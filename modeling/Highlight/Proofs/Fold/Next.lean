import Mathlib.Algebra.Ring.Int.Defs
import Mathlib.Data.Nat.Count
import Highlight.Proofs.Fold.Front

/-!
The depth that a line leaves to the next one is what a pass has counted up to there.
-/

namespace Highlight

open LineIndex

namespace Document

/--
The number of bytes `b` of a style in front of `stop`.
-/
def countStyled (doc : Document) (style : Style) (b : UInt8) (stop : Nat) : Nat :=
  Nat.count (fun i => doc.styleAt i = style ∧ doc.byteAt i 0x20 = b) stop

theorem countStyled_succ (doc : Document) (style : Style) (b : UInt8) (pos : Nat) : doc.countStyled style b (pos + 1)
    = doc.countStyled style b pos + if doc.styleAt pos = style ∧ doc.byteAt pos 0x20 = b then 1 else 0 :=
  Nat.count_succ _ _

end Document

theorem Sweep.next_brace (sweep : Sweep) (b : UInt8) :
    (sweep.brace b).next = sweep.next + ((if b = 0x7B then 1 else 0) - if b = 0x7D then 1 else 0) := by
  unfold brace
  split
  . next hopen =>
    rw [beq_iff_eq] at hopen
    rw [hopen]
    rfl
  . next hopen =>
    rw [beq_iff_eq] at hopen
    rw [if_neg hopen]
    split
    . next hclose =>
      rw [beq_iff_eq] at hclose
      rw [if_pos hclose]
      rfl
    . next hclose =>
      rw [beq_iff_eq] at hclose
      rw [if_neg hclose]
      exact (Int.add_zero _).symm

/--
Counting the braces of a style adds to the depth what the byte adds to their number.
-/
theorem Sweep.next_styledBrace (sweep : Sweep) (doc : Document) (style : Style) (pos : Nat) :
    (if doc.styleAt pos == style then sweep.brace (doc.byteAt pos 0x20) else sweep).next
      = sweep.next + (((doc.countStyled style 0x7B (pos + 1) : Int) - doc.countStyled style 0x7D (pos + 1))
        - ((doc.countStyled style 0x7B pos : Int) - doc.countStyled style 0x7D pos)) := by
  rw [Document.countStyled_succ, Document.countStyled_succ]
  push_cast
  split
  . next hstyle =>
    rw [beq_iff_eq] at hstyle
    simp only [next_brace, hstyle, true_and]
    omega
  . next hstyle =>
    rw [beq_iff_eq] at hstyle
    simp only [hstyle, false_and, if_false]
    omega

@[simp] theorem Sweep.next_see (sweep : Sweep) (b : UInt8) : (sweep.see b).next = sweep.next := by
  unfold see
  split
  . rfl
  . rfl

namespace Folding.Lawful

variable {σ : Type} {m : Folding σ} {doc : Document} {line stop : Nat} {s : σ}

/--
Storing a level does not change the depth.
-/
theorem next_step (h : m.Lawful) (stop : Nat) (s : σ) : (m.sweep (m.step stop s)).next = (m.count stop s).next := by
  rw [h.sweep_step, Sweep.next_see]
  split
  . rfl
  . rfl

/--
If the depths fit, a pass starts each line like a pass that begins there, with the depth that is stored for it, and leaves the
lines above alone from there on.
-/
theorem exists_start (h : m.Lawful) (hdoc : doc.WellFormed) (hline : line < doc.lineCount) (hstop : doc.lineStart line ≤ stop)
    (hfits : m.LevelsFit doc 0 stop) :
    ∃ t, Iterates (m.more (doc.lineStart line)) (m.step stop) (m.start doc 0) t ∧ m.Scans doc t
      ∧ t = m.start (m.doc t) (doc.lineStart line) ∧ (∀ l, l < line → (m.fold doc 0 stop).level l = (m.doc t).level l)
      ∧ (m.sweep t).next = ((m.fold doc 0 stop).levelBefore line).toInt := by
  obtain ⟨hstart, hlineOf⟩ := hdoc.startsLine_lineStart hline
  obtain ⟨t, hrun, ht, hpos⟩ := h.exists_iterates hdoc hstart (Nat.zero_le _) hstop
  have heq := h.eq_start_of_fits hdoc hstart (Nat.zero_le _) hstop hrun hpos hfits
  have hsweep : m.sweep t = .start (m.doc t) line := by
    rw [heq, h.sweep_start, h.doc_start, ht.relevelled.sameSource.lineOf, hlineOf]
  obtain ⟨hwhole, hend⟩ := h.run_spec stop (m.start doc 0)
  have hrun' := hrun.mono (fun s hmore => more_iff.mpr (Nat.lt_of_lt_of_le (more_iff.mp hmore) hstop))
  have hlevels : ∀ l, l < line → (m.fold doc 0 stop).level l = (m.doc t).level l := by
    intro l hl
    rw [Document.level, Folding.fold, h.levels_of_run (hrun'.rest hwhole hend) (by rw [hsweep]; exact hl)]
    rfl
  refine ⟨t, hrun, ht, heq, hlevels, ?_⟩
  rw [hsweep]
  show ((m.doc t).levelBefore line).toInt = _
  unfold Document.levelBefore
  split
  . next hpos => rw [hlevels _ (Nat.sub_lt hpos Nat.one_pos)]
  . rfl

end Folding.Lawful

end Highlight
