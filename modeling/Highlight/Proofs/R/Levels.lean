import Highlight.Proofs.Fold.Stored
import Highlight.Proofs.R.Fold
import Highlight.Proofs.Style.Run

/-!
What the fold levels of R count: the braces in front of a line, and those through it.
-/

namespace Highlight

namespace Sweep

theorem least_brace (sweep : Sweep) (b : UInt8) :
    (sweep.brace b).least = if b = 0x7B then min sweep.least sweep.next else sweep.least := by
  unfold brace
  split
  . next hopen => exact (if_pos (beq_iff_eq.mp hopen)).symm
  . next hopen =>
    rw [beq_iff_eq] at hopen
    rw [if_neg hopen]
    split
    . rfl
    . rfl

theorem least_see (sweep : Sweep) (b : UInt8) : (sweep.see b).least = sweep.least := by
  unfold see
  split
  . rfl
  . rfl

end Sweep

namespace R

open LineIndex

variable {doc : Document} {options : FoldOptions} {sweep : Sweep} {start pos line : Nat}

/--
Whether a brace opens a block at `pos`.
-/
def opensBlock (doc : Document) (pos : Nat) : Bool :=
  doc.styleAt pos == Style.operator && doc.byteAt pos 0x20 == 0x7B

/--
The depth in front of `pos` by the braces up to there.
-/
def depthAt (doc : Document) (pos : Nat) : Int :=
  0x400 + ((doc.countStyled Style.operator 0x7B pos : Int) - doc.countStyled Style.operator 0x7D pos)

/--
The least of the depth at `start` and those in front of the blocks that open from there up to `stop`.
-/
def leastDepth (doc : Document) (start stop : Nat) : Int :=
  (((List.range' start (stop - start)).filter (opensBlock doc)).map (depthAt doc)).foldl min (depthAt doc start)

/--
The depth of a line: that at its start, or the least one in front of its blocks.
-/
def lineDepth (options : FoldOptions) (doc : Document) (line : Nat) : Int :=
  if options.atElse then
    leastDepth doc (doc.lineStart line) (doc.lineStart (line + 1))
  else
    depthAt doc (doc.lineStart line)

theorem depthAt_zero (doc : Document) : depthAt doc 0 = 0x400 := by
  simp [depthAt, Document.countStyled]

theorem leastDepth_self (doc : Document) (pos : Nat) : leastDepth doc pos pos = depthAt doc pos := by
  rw [leastDepth, Nat.sub_self]
  rfl

theorem leastDepth_succ (doc : Document) (hle : start ≤ pos) :
    leastDepth doc start (pos + 1)
      = if opensBlock doc pos then min (leastDepth doc start pos) (depthAt doc pos) else leastDepth doc start pos := by
  have hrange : List.range' start (pos + 1 - start) = List.range' start (pos - start) ++ [pos] := by
    rw [show pos + 1 - start = pos - start + 1 by omega, List.range'_1_concat, show start + (pos - start) = pos by omega]
  rw [leastDepth, hrange, List.filter_append, List.map_append, List.foldl_append]
  split
  . next hopens => rw [List.filter_cons_of_pos hopens]; rfl
  . next hopens => rw [List.filter_cons_of_neg hopens]; rfl

section Count

variable (hlevels : doc.Relevelled sweep.doc)
include hlevels

/--
What a byte adds to the depth is what it adds to the count of braces.
-/
theorem next_countByte (pos : Nat) : (countByte sweep pos).next = sweep.next + (depthAt doc (pos + 1) - depthAt doc pos) := by
  have hstyle : sweep.doc.styleAt pos = doc.styleAt pos := by rw [Document.styleAt, hlevels.styles]; rfl
  have hbyte : sweep.doc.byteAt pos 0x20 = doc.byteAt pos 0x20 := by rw [Document.byteAt, hlevels.sameSource.text]; rfl
  unfold countByte depthAt
  rw [hstyle, hbyte, Sweep.next_styledBrace]
  omega

theorem least_countByte (pos : Nat) :
    (countByte sweep pos).least = if opensBlock doc pos then min sweep.least sweep.next else sweep.least := by
  have hstyle : sweep.doc.styleAt pos = doc.styleAt pos := by rw [Document.styleAt, hlevels.styles]; rfl
  have hbyte : sweep.doc.byteAt pos 0x20 = doc.byteAt pos 0x20 := by rw [Document.byteAt, hlevels.sameSource.text]; rfl
  unfold countByte opensBlock
  rw [hstyle, hbyte]
  split
  . next hoperator => simp only [Sweep.least_brace, hoperator, Bool.true_and, beq_iff_eq]
  . next hoperator => simp only [hoperator, Bool.false_and, Bool.false_eq_true, if_false]

end Count

theorem own_countByte (sweep : Sweep) (pos : Nat) : (countByte sweep pos).own = sweep.own := by
  unfold countByte
  split
  . exact sweep.own_brace _
  . rfl

theorem visible_countByte (sweep : Sweep) (pos : Nat) : (countByte sweep pos).visible = sweep.visible := by
  unfold countByte
  split
  . exact sweep.visible_brace _
  . rfl

section Run

variable (hdoc : doc.WellFormed)
include hdoc

/--
All along a pass, the sweep knows the depths of its line by the braces it has seen.
-/
theorem depths_sweepAt (options : FoldOptions) (hpos : pos < doc.size) :
    let sweep := (byteFold options).sweepAt doc pos
    let start := doc.lineStart (doc.lineOf pos)
    sweep.own = depthAt doc start ∧ sweep.next = depthAt doc pos ∧ sweep.least = leastDepth doc start pos := by
  have h := lawful_byteFold options
  induction pos with
  | zero =>
    have hstart : doc.lineStart (doc.lineOf 0) = 0 := by rw [hdoc.lineStart_lineOf, lineFloor_of_startsLine startsLine_zero]
    dsimp only
    rw [hstart, leastDepth_self, depthAt_zero]
    exact ⟨rfl, rfl, rfl⟩
  | succ pos ih =>
    have hlt := Nat.lt_of_succ_lt hpos
    obtain ⟨hown, hnext, hleast⟩ := ih hlt
    obtain ⟨hlevels, _⟩ := h.scans_sweepAt hdoc hlt
    have hcounted := next_countByte hlevels pos
    have hnext' : (countByte ((byteFold options).sweepAt doc pos) pos).next = depthAt doc (pos + 1) := by omega
    dsimp only
    rcases h.sweepAt_succ_cases hdoc hpos with ⟨hends, heq⟩ | ⟨hends, heq⟩
    . have hstart : doc.lineStart (doc.lineOf pos) ≤ pos := by
        rw [hdoc.lineStart_lineOf]
        exact lineFloor_le _ _
      rw [heq, hdoc.lineOf_succ, hends, if_neg Bool.false_ne_true, Nat.add_zero, leastDepth_succ doc hstart, ← hleast, ← hnext,
        Sweep.own_see, Sweep.next_see, Sweep.least_see]
      exact ⟨(own_countByte _ pos).trans hown, hnext', least_countByte hlevels pos⟩
    . have hstart : doc.lineStart (doc.lineOf (pos + 1)) = pos + 1 := by
        rw [hdoc.lineStart_lineOf, lineFloor_of_startsLine ((startsLine_succ pos).trans hends)]
      rw [heq, hstart, leastDepth_self]
      exact ⟨hnext', hnext', hnext'⟩

/--
Behind the last byte, too.
-/
theorem next_sweepAt (options : FoldOptions) (hpos : pos ≤ doc.size) :
    ((byteFold options).sweepAt doc pos).next = depthAt doc pos := by
  cases pos with
  | zero => exact (depthAt_zero doc).symm
  | succ pos =>
    obtain ⟨_, hnext, _⟩ := depths_sweepAt hdoc options hpos
    obtain ⟨hlevels, _⟩ := (lawful_byteFold options).scans_sweepAt hdoc hpos
    have hcounted := next_countByte hlevels pos
    have hstep : ((byteFold options).sweepAt doc (pos + 1)).next = (countByte ((byteFold options).sweepAt doc pos) pos).next := by
      rw [ByteFold.sweepAt_succ]
      rcases (byteFold options).foldByte_cases doc.size ((byteFold options).sweepAt doc pos) pos with ⟨_, heq⟩ | ⟨_, heq⟩
      . rw [heq, Sweep.next_see]
        rfl
      . rw [heq, Sweep.next_see]
        rfl
    omega

/--
Where a line is closed, the sweep has its depth and the one behind it.
-/
theorem depths_closing (options : FoldOptions) (hlt : doc.lineStart line < doc.lineStart (line + 1)) :
    ((byteFold options).closing doc line).depth options.atElse = lineDepth options doc line
      ∧ ((byteFold options).closing doc line).next = depthAt doc (doc.lineStart (line + 1)) := by
  obtain ⟨last, hlast⟩ : ∃ last, doc.lineStart (line + 1) = last + 1 := ⟨doc.lineStart (line + 1) - 1, by omega⟩
  have hsize := hdoc.lineStart_le_size (line + 1)
  have hpos : last < doc.size := by omega
  have hlineOf : doc.lineOf last = line := (hdoc.lineOf_eq_iff hpos).mpr ⟨by omega, by omega⟩
  obtain ⟨hlevels, _⟩ := (lawful_byteFold options).scans_sweepAt hdoc hpos
  obtain ⟨hown, hnext, hleast⟩ := depths_sweepAt hdoc options hpos
  rw [hlineOf] at hown hleast
  have hclosing : (byteFold options).closing doc line = countByte ((byteFold options).sweepAt doc last) last := by
    rw [ByteFold.closing, hlast]
    rfl
  rw [hclosing, hlast]
  refine ⟨?_, ?_⟩
  . rw [Sweep.depth, lineDepth, hlast, leastDepth_succ doc (show doc.lineStart line ≤ last by omega), own_countByte,
      least_countByte hlevels, hown, hnext, hleast]
  . have := next_countByte hlevels last
    omega

end Run

/--
The fold levels of R, for any styles: the depth behind a line is that of the braces up to there. The line itself is as deep as its
start, or as the least place in front of its blocks. It is a header if the depth rises, and white if it shows nothing. So the depth
comes back to where it was if the braces balance.
-/
theorem fold_levels_eq_braces (keywords : Keywords) (doc : Document) (hdoc : doc.WellFormed) (style : Highlight.Style) :
    let options := FoldOptions.read doc.options
    let folded := fold keywords ⟨0, doc.size, style⟩ doc
    (∀ line, line + 1 < doc.lineCount → Level.InField (lineDepth options doc line)
        → Level.InField (depthAt doc (doc.lineStart (line + 1))) →
      let level := folded.level line
      level.next.toInt = depthAt doc (doc.lineStart (line + 1)) ∧ level.number.toInt = lineDepth options doc line
        ∧ (level.isHeader = true ↔ level.number.toInt < level.next.toInt)
        ∧ (level.isWhite = true ↔ options.compact = true
          ∧ ∀ i, doc.lineStart line ≤ i → i < doc.lineStart (line + 1) → Code.isSpace (doc.byteAt i 0x20).toNat = true))
      ∧ (doc.countStyled Style.operator 0x7B doc.size = doc.countStyled Style.operator 0x7D doc.size →
        ((Sweep.start doc 0).over ⟨0, doc.size, style⟩ (foldByte options)).next = 0x400
          ∧ ∀ line, line + 1 < doc.lineCount → doc.lineStart (line + 1) = doc.size → Level.InField (lineDepth options doc line) →
            (folded.level line).next.toInt = 0x400) := by
  intro options folded
  have h := lawful_byteFold options
  have hsweep : (Sweep.start doc 0).over ⟨0, doc.size, style⟩ (foldByte options) = (byteFold options).sweepAt doc doc.size := by
    rw [foldByte_eq options doc.size]
    rfl
  have hfold : folded = (byteFold options).folding.fold doc 0 doc.size := by
    rw [ByteFold.fold_eq_sweepAt hdoc, ← hsweep]
    simp only [folded, fold, hdoc.wholeLines_all, hdoc.lineOf_zero]
    rfl
  have hlevel : ∀ line, line + 1 < doc.lineCount → folded.level line
      = .compose (.ofInt (lineDepth options doc line)) (.ofInt (depthAt doc (doc.lineStart (line + 1))))
        ((byteFold options).closing doc line).visible options.compact := by
    intro line hline
    obtain ⟨hdepth, hnext⟩ := depths_closing hdoc options (hdoc.lineStart_lt_succ hline)
    rw [hfold, h.level_fold hdoc (hdoc.lineStart_lt_succ hline) (.inr hline), ← hnext, ← hdepth]
    rfl
  refine ⟨?_, ?_⟩
  . intro line hline hown hnext level
    have hcomposed : level = _ := hlevel line hline
    have hnext' : level.next.toInt = depthAt doc (doc.lineStart (line + 1)) := by
      rw [hcomposed]
      exact Level.toInt_next_compose hown.fits hnext.fits _ _
    have hnumber : level.number.toInt = lineDepth options doc line := by
      rw [hcomposed]
      exact Level.number_compose hown.1 hown.2 _ _ _
    refine ⟨hnext', hnumber, ?_, ?_⟩
    . rw [hnext', hnumber, hcomposed, Level.isHeader_compose hown hnext, decide_eq_true_iff]
    . have hblank := h.visible_closing hdoc (fun _ => visible_countByte) (hdoc.lineStart_lt_succ hline)
      rw [hcomposed, Level.isWhite_compose hown, Bool.and_eq_true, beq_iff_eq, hblank, and_comm]
      refine and_congr_right fun _ => ⟨fun hall i hle hlt => ?_, fun hall i hle hlt => hall i hle (Nat.lt_of_succ_lt hlt)⟩
      rcases Nat.eq_or_lt_of_le (Nat.succ_le_of_lt hlt) with heq | hbefore
      . exact isSpace_of_endsLine ((hdoc.endsLine_iff hline hle hlt).mpr heq) _
      . exact hall i hle hbefore
  . intro hbalance
    have hend : depthAt doc doc.size = 0x400 := by
      rw [depthAt, hbalance]
      omega
    refine ⟨?_, fun line hline hstop hown => ?_⟩
    . rw [hsweep, next_sweepAt hdoc options (Nat.le_refl _), hend]
    . rw [hlevel line hline, hstop, hend]
      exact Level.toInt_next_compose hown.fits (by decide) _ _

/--
A line that closes one block and opens the next one, a blank line, and a brace in a string.
-/
theorem fold_levels_eq_braces_else :
    let text := "\x7b\n\x7d\x7b \r\n\t\n\x7d\x7b\n".toUTF8.data
    let styles := (Array.replicate text.size Style.default).setIfInBounds 0 Style.operator |>.setIfInBounds 2 Style.operator
      |>.setIfInBounds 3 Style.operator |>.setIfInBounds 9 Style.operator |>.setIfInBounds 10 Style.string
    let doc := { Document.fresh text .singleByte (.ofList [("fold.at.else", "1")]) with styles }
    let folded := fold #[] ⟨0, doc.size, Style.default⟩ doc
    ((folded.level 0).next.toInt = 0x401 ∧ (folded.level 0).isHeader = true)
      ∧ ((folded.level 1).number.toInt = 0x400 ∧ (folded.level 1).isHeader = true)
      ∧ ((folded.level 2).isWhite = true ∧ (folded.level 3).isWhite = false) ∧ (folded.level 3).next.toInt = 0x400 := by
  intro text styles doc folded
  have hdoc : doc.WellFormed := ⟨rfl, by decide +kernel, by decide +kernel, by decide +kernel⟩
  obtain ⟨hlines, hbalance⟩ := fold_levels_eq_braces #[] doc hdoc Style.default
  obtain ⟨hnext0, hnumber0, hheader0, _⟩ := hlines 0 (by decide +kernel) (by decide +kernel) (by decide +kernel)
  obtain ⟨hnext1, hnumber1, hheader1, _⟩ := hlines 1 (by decide +kernel) (by decide +kernel) (by decide +kernel)
  obtain ⟨_, _, _, hwhite2⟩ := hlines 2 (by decide +kernel) (by decide +kernel) (by decide +kernel)
  obtain ⟨_, _, _, hwhite3⟩ := hlines 3 (by decide +kernel) (by decide +kernel) (by decide +kernel)
  have hnext0' : (folded.level 0).next.toInt = 0x401 := hnext0.trans (by decide +kernel)
  have hnumber0' : (folded.level 0).number.toInt = 0x400 := hnumber0.trans (by decide +kernel)
  have hnext1' : (folded.level 1).next.toInt = 0x401 := hnext1.trans (by decide +kernel)
  have hnumber1' : (folded.level 1).number.toInt = 0x400 := hnumber1.trans (by decide +kernel)
  refine ⟨⟨hnext0', hheader0.mpr ?_⟩, ⟨hnumber1', hheader1.mpr ?_⟩, ⟨hwhite2.mpr ⟨by decide +kernel, ?_⟩, ?_⟩, ?_⟩
  . rw [hnext0', hnumber0']
    decide
  . rw [hnext1', hnumber1']
    decide
  . intro i hle hlt
    rw [show doc.lineStart 2 = 7 by decide +kernel] at hle
    rw [show doc.lineStart 3 = 9 by decide +kernel] at hlt
    obtain rfl | rfl : i = 7 ∨ i = 8 := by omega
    . decide
    . decide
  . rw [Bool.eq_false_iff, ne_eq, hwhite3]
    exact fun ⟨_, hall⟩ => absurd (hall 9 (by decide +kernel) (by decide +kernel)) (by decide)
  . exact (hbalance (by decide +kernel)).2 3 (by decide +kernel) (by decide +kernel) (by decide +kernel)

end R

end Highlight
