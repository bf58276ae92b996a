import Highlight.Proofs.Document.Seam
import Highlight.Proofs.Fold.Bytes
import Highlight.Proofs.Fold.Next

/-!
The level that a pass over the bytes of a text stores for a line: it depends on what has been counted up to the last byte of
the line, which is not looked at any more.
-/

namespace Highlight

open LineIndex

namespace Document.WellFormed

variable {doc : Document}

/--
The span of a whole text has whole lines.
-/
theorem wholeLines_all (hdoc : doc.WellFormed) (style : Style) : doc.wholeLines ⟨0, doc.size, style⟩ = ⟨0, doc.size, style⟩ := by
  rcases Nat.eq_zero_or_pos doc.size with hzero | hpos
  . have hstart : doc.lineStart (doc.lineOf 0) = 0 := by
      rw [hdoc.lineStart_lineOf, lineFloor_of_startsLine startsLine_zero]
    simp [Document.wholeLines, hzero, hstart]
  . have hwhole := hdoc.wholeLines_eq startsLine_zero hpos (Nat.le_refl _) style
    rw [lineCeil_of_isBoundary (show IsBoundary doc.text doc.size from .inr rfl)] at hwhole
    exact hwhole

end Document.WellFormed

theorem Sweep.visible_brace (sweep : Sweep) (b : UInt8) : (sweep.brace b).visible = sweep.visible := by
  unfold brace
  split
  . rfl
  . split
    . rfl
    . rfl

namespace ByteFold

/--
The sweep of a pass over all of a text in front of the byte at `pos`.
-/
def sweepAt (m : ByteFold) (doc : Document) (pos : Nat) : Sweep :=
  stepsTo (m.foldByte doc.size) (.start doc 0) 0 pos

/--
The sweep that closes a line: at its last byte, with what stands there counted.
-/
def closing (m : ByteFold) (doc : Document) (line : Nat) : Sweep :=
  let last := doc.lineStart (line + 1) - 1
  m.count doc.size (m.sweepAt doc last) last

/--
The depths that the pass stores lines with fit below the flags.
-/
def DepthsFit (m : ByteFold) (doc : Document) : Prop :=
  ∀ line < doc.lineCount, doc.lineStart line < doc.lineStart (line + 1) → Level.InField ((m.closing doc line).depth m.atElse)

instance (m : ByteFold) (doc : Document) : Decidable (m.DepthsFit doc) :=
  inferInstanceAs (Decidable (∀ line < doc.lineCount, doc.lineStart line < doc.lineStart (line + 1) → _))

variable {m : ByteFold} {doc : Document} {line pos : Nat}

theorem sweepAt_succ (m : ByteFold) (doc : Document) (pos : Nat) :
    m.sweepAt doc (pos + 1) = m.foldByte doc.size (m.sweepAt doc pos) pos :=
  stepsTo_succ _ (Nat.zero_le pos)

theorem fold_eq_sweepAt (hdoc : doc.WellFormed) : m.folding.fold doc 0 doc.size = (m.sweepAt doc doc.size).doc := by
  rw [fold_eq_over doc (Nat.zero_le _), hdoc.lineOf_zero]
  rfl

/--
What a byte does to a sweep: if it closes the line, the level of the line is stored.
-/
theorem foldByte_cases (m : ByteFold) (stop : Nat) (sweep : Sweep) (pos : Nat) :
    let counted := m.count stop sweep pos
    m.closes stop sweep pos = false ∧ m.foldByte stop sweep pos = counted.see (sweep.doc.byteAt pos 0x20)
      ∨ m.closes stop sweep pos = true ∧ m.foldByte stop sweep pos
        = (counted.closeLine (counted.depth m.atElse) m.compact).see (sweep.doc.byteAt pos 0x20) := by
  intro counted
  cases hcloses : m.closes stop sweep pos with
  | false =>
    refine .inl ⟨rfl, ?_⟩
    rw [foldByte, hcloses]
    rfl
  | true =>
    refine .inr ⟨rfl, ?_⟩
    rw [foldByte, hcloses]
    rfl

namespace Lawful

variable (h : m.Lawful)
include h

/--
A line that has been closed keeps its level.
-/
theorem level_foldByte (stop : Nat) {sweep : Sweep} (pos : Nat) (hline : line < sweep.line) :
    (m.foldByte stop sweep pos).doc.level line = sweep.doc.level line ∧ line < (m.foldByte stop sweep pos).line := by
  have hcount := h.doc_count stop sweep pos
  have hcountLine := h.line_count stop sweep pos
  rcases m.foldByte_cases stop sweep pos with ⟨_, heq⟩ | ⟨_, heq⟩
  . rw [heq, Sweep.doc_see, Sweep.line_see, hcount, hcountLine]
    exact ⟨rfl, hline⟩
  . rw [heq, Sweep.doc_see, Sweep.line_see]
    refine ⟨?_, Nat.lt_of_lt_of_eq (Nat.lt_succ_of_lt hline) (congrArg (· + 1) hcountLine.symm)⟩
    show ((m.count stop sweep pos).doc.setLevel (m.count stop sweep pos).line _).level line = _
    rw [Document.level, Document.getElem?_setLevel, if_neg (by omega), hcount]
    rfl

section Sweep

variable (hdoc : doc.WellFormed)
include hdoc

/--
In front of the last byte, the sweep stands on the line that it counts.
-/
theorem scans_sweepAt (hpos : pos < doc.size) :
    doc.Relevelled (m.sweepAt doc pos).doc ∧ (m.sweepAt doc pos).line = doc.lineOf pos := by
  induction pos with
  | zero => exact ⟨.refl doc, hdoc.lineOf_zero.symm⟩
  | succ pos ih =>
    obtain ⟨hlevels, hline⟩ := ih (Nat.lt_of_succ_lt hpos)
    have hcount := h.doc_count doc.size (m.sweepAt doc pos) pos
    have hcountLine := h.line_count doc.size (m.sweepAt doc pos) pos
    have hcloses : m.closes doc.size (m.sweepAt doc pos) pos = endsLine doc.text pos := by
      rw [closes, Document.closesLine, hlevels.sameSource.text, beq_false_of_ne (by omega), Bool.and_false, Bool.or_false]
    rw [sweepAt_succ, hdoc.lineOf_succ, ← hcloses]
    rcases m.foldByte_cases doc.size (m.sweepAt doc pos) pos with ⟨hends, heq⟩ | ⟨hends, heq⟩
    . rw [heq, Sweep.doc_see, Sweep.line_see, hcount, hcountLine, hends]
      exact ⟨hlevels, hline⟩
    . rw [heq, Sweep.doc_see, Sweep.line_see, hends]
      refine ⟨hlevels.trans ?_, congrArg (· + 1) (hcountLine.trans hline)⟩
      rw [← hcount]
      exact .setLevel _ _ _

theorem closes_sweepAt (hpos : pos < doc.size) :
    m.closes doc.size (m.sweepAt doc pos) pos = doc.closesLine m.closingLast doc.size pos := by
  rw [closes, Document.closesLine, (h.scans_sweepAt hdoc hpos).1.sameSource.text]
  rfl

/--
A step within a line, and one over the end of a line.
-/
theorem sweepAt_succ_cases (hpos : pos + 1 < doc.size) :
    let counted := m.count doc.size (m.sweepAt doc pos) pos
    let b := doc.byteAt pos 0x20
    endsLine doc.text pos = false ∧ m.sweepAt doc (pos + 1) = counted.see b
      ∨ endsLine doc.text pos = true
        ∧ m.sweepAt doc (pos + 1) = counted.closeLine (counted.depth m.atElse) m.compact := by
  intro counted b
  have hlt := Nat.lt_of_succ_lt hpos
  have htext := (h.scans_sweepAt hdoc hlt).1.sameSource.text
  have hbyte : (m.sweepAt doc pos).doc.byteAt pos 0x20 = b := by rw [Document.byteAt, htext]; rfl
  have hcloses : m.closes doc.size (m.sweepAt doc pos) pos = endsLine doc.text pos := by
    rw [h.closes_sweepAt hdoc hlt, Document.closesLine, beq_false_of_ne (by omega), Bool.and_false, Bool.or_false]
  rw [sweepAt_succ, ← hcloses]
  rcases m.foldByte_cases doc.size (m.sweepAt doc pos) pos with ⟨hends, heq⟩ | ⟨hends, heq⟩
  . exact .inl ⟨hends, heq.trans (by rw [hbyte])⟩
  . refine .inr ⟨hends, heq.trans ?_⟩
    rw [hbyte]
    exact Sweep.see_of_isSpace (isSpace_of_endsLine (hcloses.symm.trans hends) _)

/--
A line that has a byte and is closed is stored with what has been counted at its last byte.
-/
theorem level_sweepAt {last : Nat} (hlast : doc.lineStart (line + 1) = last + 1) (hle : doc.lineStart line ≤ last)
    (hclosed : m.closingLast = true ∨ line + 1 < doc.lineCount) :
    (m.sweepAt doc (last + 1)).doc.level line
        = .compose (.ofInt ((m.closing doc line).depth m.atElse)) (.ofInt (m.closing doc line).next) (m.closing doc line).visible
          m.compact
      ∧ line < (m.sweepAt doc (last + 1)).line := by
  have hsize := hdoc.lineStart_le_size (line + 1)
  have hpos : last < doc.size := by omega
  obtain ⟨hlevels, hline⟩ := h.scans_sweepAt hdoc hpos
  have hlineOf : doc.lineOf last = line := (hdoc.lineOf_eq_iff hpos).mpr ⟨hle, by omega⟩
  have hcloses : m.closes doc.size (m.sweepAt doc last) last = true := by
    rw [h.closes_sweepAt hdoc hpos, Document.closesLine]
    by_cases hnext : line + 1 < doc.lineCount
    . have hends := hdoc.endsLine_of_lineStart_succ hnext
      rw [hlast, Nat.add_sub_cancel] at hends
      rw [hends, Bool.true_or]
    . have hstop := hdoc.lineStart_of_lineCount_le (Nat.le_of_not_lt hnext)
      rw [hclosed.resolve_right hnext, ← hlast, hstop, beq_self_eq_true, Bool.and_self, Bool.or_true]
  have hclosing : m.closing doc line = m.count doc.size (m.sweepAt doc last) last := by
    rw [closing, hlast]
    rfl
  have hcount := h.doc_count doc.size (m.sweepAt doc last) last
  have hcountLine := h.line_count doc.size (m.sweepAt doc last) last
  rw [sweepAt_succ, hclosing]
  rcases m.foldByte_cases doc.size (m.sweepAt doc last) last with ⟨hends, _⟩ | ⟨_, heq⟩
  . exact absurd (hcloses.symm.trans hends) (by decide)
  . rw [heq, Sweep.doc_see, Sweep.line_see, ← hlineOf, ← hline, ← hcountLine]
    refine ⟨?_, Nat.lt_succ_self _⟩
    apply Document.level_setLevel
    . rw [hcount]
      exact hlevels.sameSource.wellFormed hdoc
    . rw [hcount, hcountLine, hline]
      exact Nat.lt_of_lt_of_eq (hdoc.lineOf_lt last) hlevels.sameSource.lineCount.symm

/--
The rest of the pass leaves it as it is.
-/
theorem level_fold (hlt : doc.lineStart line < doc.lineStart (line + 1)) (hclosed : m.closingLast = true ∨ line + 1 < doc.lineCount) :
    (m.folding.fold doc 0 doc.size).level line
      = .compose (.ofInt ((m.closing doc line).depth m.atElse)) (.ofInt (m.closing doc line).next) (m.closing doc line).visible
        m.compact := by
  obtain ⟨last, hlast⟩ : ∃ last, doc.lineStart (line + 1) = last + 1 := ⟨doc.lineStart (line + 1) - 1, by omega⟩
  have hsize := hdoc.lineStart_le_size (line + 1)
  have hpos : last < doc.size := by omega
  have hstored := h.level_sweepAt hdoc hlast (by omega) hclosed
  rw [fold_eq_sweepAt hdoc, sweepAt, ← stepsTo_trans _ (Nat.zero_le (last + 1)) hpos]
  refine (stepsTo_invariant (R := fun _ (sweep : Sweep) => sweep.doc.level line = _ ∧ line < sweep.line) hpos ?_ hstored).1
  rintro pos sweep _ _ ⟨hlevel, hline⟩
  obtain ⟨hkept, hline⟩ := h.level_foldByte doc.size pos hline
  exact ⟨hkept.trans hlevel, hline⟩

section Visible

variable (hvisible : ∀ stop sweep pos, (m.count stop sweep pos).visible = sweep.visible)
include hvisible

/--
Only bytes that show something are counted as visible, from the start of their line on.
-/
theorem visible_sweepAt (hpos : pos < doc.size) :
    (m.sweepAt doc pos).visible = 0 ↔ ∀ i < pos, doc.lineOf i = doc.lineOf pos → Code.isSpace (doc.byteAt i 0x20).toNat = true := by
  induction pos with
  | zero => exact ⟨fun _ i hi => absurd hi (Nat.not_lt_zero i), fun _ => rfl⟩
  | succ pos ih =>
    have ih := ih (Nat.lt_of_succ_lt hpos)
    rcases h.sweepAt_succ_cases hdoc hpos with ⟨hends, heq⟩ | ⟨hends, heq⟩
    . rw [heq, hdoc.lineOf_succ, hends, if_neg Bool.false_ne_true, Nat.add_zero, Sweep.see]
      split
      . next hspace =>
        rw [hvisible, ih]
        refine ⟨fun hall i hi hline => ?_, fun hall i hi => hall i (Nat.lt_succ_of_lt hi)⟩
        rcases Nat.eq_or_lt_of_le (Nat.le_of_lt_succ hi) with rfl | hlt
        . exact hspace
        . exact hall i hlt hline
      . next hspace => exact ⟨nofun, fun hall => absurd (hall pos (Nat.lt_succ_self pos) rfl) hspace⟩
    . rw [heq, hdoc.lineOf_succ, hends, if_pos rfl]
      refine ⟨fun _ i hi hline => ?_, fun _ => rfl⟩
      have := hdoc.lineOf_mono (Nat.le_of_lt_succ hi)
      omega

/--
A closed line shows nothing in front of its last byte if the sweep has counted nothing visible there.
-/
theorem visible_closing (hlt : doc.lineStart line < doc.lineStart (line + 1)) :
    (m.closing doc line).visible = 0
      ↔ ∀ i, doc.lineStart line ≤ i → i + 1 < doc.lineStart (line + 1) → Code.isSpace (doc.byteAt i 0x20).toNat = true := by
  have hsize := hdoc.lineStart_le_size (line + 1)
  have hpos : doc.lineStart (line + 1) - 1 < doc.size := by omega
  have hlineOf : doc.lineOf (doc.lineStart (line + 1) - 1) = line := (hdoc.lineOf_eq_iff hpos).mpr ⟨by omega, by omega⟩
  rw [closing, hvisible, h.visible_sweepAt hdoc hvisible hpos, hlineOf]
  constructor
  . intro hall i hle hi
    exact hall i (by omega) ((hdoc.lineOf_eq_iff (by omega)).mpr ⟨hle, by omega⟩)
  . intro hall i hi hline
    obtain ⟨hle, _⟩ := (hdoc.lineOf_eq_iff (by omega)).mp hline
    exact hall i hle (by omega)

end Visible

end Sweep

end Lawful

end ByteFold

end Highlight
