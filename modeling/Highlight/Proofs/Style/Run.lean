import Highlight.Proofs.Document.Lines
import Highlight.Style.Run

/-!
The runs of one style that a range of a text consists of, and those of a line, which ends in front of its terminator.
-/

namespace Highlight

open LineIndex

namespace StyleRun

/--
Runs that lie behind each other from `start` up to `stop`, with the styles of the bytes in them.
-/
def Tiles (style : Nat → Style) (start stop : Nat) (runs : List StyleRun) : Prop :=
  match runs with
  | [] => start = stop
  | run :: runs => run.start = start ∧ start < run.stop ∧ (∀ i, start ≤ i → i < run.stop → style i = run.style)
    ∧ Tiles style run.stop stop runs

variable {style : Nat → Style} {start stop pos : Nat} {run : StyleRun} {runs : List StyleRun}

theorem Tiles.le (h : Tiles style start stop runs) : start ≤ stop := by
  induction runs generalizing start with
  | nil => exact Nat.le_of_eq h
  | cons run runs ih =>
    obtain ⟨_, hlt, _, hrest⟩ := h
    exact Nat.le_trans (Nat.le_of_lt hlt) (ih hrest)

theorem Tiles.cons (h : Tiles style (pos + 1) stop runs) : Tiles style pos stop (cons pos (style pos) runs) := by
  have hone : ∀ i, pos ≤ i → i < pos + 1 → style i = style pos := by
    intro i hle hlt
    rw [show i = pos by omega]
  cases runs with
  | nil => exact ⟨rfl, Nat.lt_succ_self pos, hone, h⟩
  | cons run runs =>
    obtain ⟨hstart, hlt, hstyle, hrest⟩ := h
    unfold StyleRun.cons
    dsimp only
    split
    . next heq =>
      rw [beq_iff_eq] at heq
      refine ⟨rfl, Nat.lt_of_succ_lt hlt, ?_, hrest⟩
      intro i hle hi
      rcases Nat.eq_or_lt_of_le hle with rfl | hbehind
      . exact heq.symm
      . exact hstyle i hbehind hi
    . exact ⟨rfl, Nat.lt_succ_self pos, hone, hstart, hlt, hstyle, hrest⟩

theorem tiles_ofStylesFrom {styles : List Style} (h : ∀ i c, styles[i]? = some c → style (pos + i) = c) :
    Tiles style pos (pos + styles.length) (ofStylesFrom pos styles) := by
  induction styles generalizing pos with
  | nil => rfl
  | cons c styles ih =>
    have hhead : style pos = c := h 0 c rfl
    have htail : Tiles style (pos + 1) (pos + 1 + styles.length) (ofStylesFrom (pos + 1) styles) := ih (by
      intro i c' hc
      rw [Nat.add_right_comm]
      exact h (i + 1) c' hc)
    rw [ofStylesFrom, ← hhead, List.length_cons, ← Nat.add_assoc, Nat.add_right_comm]
    exact htail.cons

end StyleRun

namespace Document

variable {doc : Document} {line i : Nat}

/--
The maximal runs of one style in a line, without its terminator.
-/
def lineRuns (doc : Document) (line : Nat) : List StyleRun :=
  StyleRun.ofStylesFrom (doc.lineStart line) (doc.styles.extract (doc.lineStart line) (doc.lineEnd line)).toList

namespace WellFormed

variable (hdoc : doc.WellFormed) (hline : line + 1 < doc.lineCount)
include hdoc hline

theorem tiles_lineRuns : StyleRun.Tiles doc.styleAt (doc.lineStart line) (doc.lineEnd line) (doc.lineRuns line) := by
  obtain ⟨hle, hlt, _⟩ := hdoc.lineEnd_spec hline
  have hsize := hdoc.lineStart_le_size (line + 1)
  have hlength : (doc.styles.extract (doc.lineStart line) (doc.lineEnd line)).toList.length
      = doc.lineEnd line - doc.lineStart line := by
    rw [Array.length_toList, Array.size_extract, hdoc.styles]
    omega
  have htiles : StyleRun.Tiles doc.styleAt (doc.lineStart line)
      (doc.lineStart line + (doc.styles.extract (doc.lineStart line) (doc.lineEnd line)).toList.length) (doc.lineRuns line) := by
    refine StyleRun.tiles_ofStylesFrom ?_
    intro i c hc
    rw [Array.getElem?_toList, Array.getElem?_extract] at hc
    split at hc
    . rw [Document.styleAt, hc]
      rfl
    . cases hc
  rwa [hlength, Nat.add_sub_cancel' hle] at htiles

end WellFormed

end Document

end Highlight
