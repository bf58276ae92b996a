import Highlight.Proofs.Cursor.Lowered
import Highlight.Proofs.Sql.Pass

/-!
A pass over SQL takes a line feed in front of the text for nothing but a blank.
-/

namespace Highlight

open LineIndex

namespace Sql

variable {doc doc' : Document} {s s' : Scan}

namespace Scan

theorem startingLine?_lineFeed (hcur : s.cur = Code.lineFeed) : s.startingLine? = none := by
  have hlower : lowerAt s.doc s.pos = Code.lineFeed := congrArg Code.toLower hcur
  have hremark : abbreviatedAt s.doc s.pos "rem~ark" = false := by
    rw [Bool.eq_false_iff]
    intro h
    have hfirst := abbreviatedAt_first rfl h
    rw [hlower] at hfirst
    cases hfirst
  have hprompt : abbreviatedAt s.doc s.pos "pro~mpt" = false := by
    rw [Bool.eq_false_iff]
    intro h
    have hfirst := abbreviatedAt_first rfl h
    rw [hlower] at hfirst
    cases hfirst
  rw [startingLine?, hremark, hprompt]
  rfl

theorem stepBetween_lineFeed (hcur : s.cur = Code.lineFeed) : s.stepBetween = s := by
  have hnone : s.starting? true = none := by
    unfold starting? startingComment? startingString? startingWord?
    rw [startingLine?_lineFeed hcur, hcur]
    rfl
  unfold stepBetween operator
  rw [hnone, hcur]
  rfl

theorem step_lineFeed {settings : Settings} (hcur : s.cur = Code.lineFeed) (hlead : s.atLead = false)
    (hstate : s.state = Style.default) : s.step settings = { s with pos := s.pos + 1, prev := Code.lineFeed } := by
  rw [step_of_turn hlead, turn_of_default hstate, stepBetween_lineFeed hcur, hcur]

end Scan

/--
The line feed in front of a text.
-/
theorem stepFrom_begin (h : doc.Lowered doc') (keywords : Keywords) :
    stepFrom keywords doc' 0 (.begin doc' 0) = { Scan.begin doc' 0 with pos := 1, prev := Code.lineFeed } := by
  have hcur : (Scan.begin doc' 0).cur = Code.lineFeed := by
    show codeAt doc' 0 = _
    rw [codeAt, Document.byteAt, h.lineFeed]
    rfl
  refine Scan.step_lineFeed hcur (Bool.eq_false_iff.mpr ?_) rfl
  intro hlead
  have hends := Scan.endsLine_of_atLead hlead
  rw [show endsLine (Scan.begin doc' 0).doc.text (Scan.begin doc' 0).pos = true from h.endsLine] at hends
  cases hends

theorem alike_lowered (h : doc.Lowered doc') :
    Scan.Alike (.lowered doc) (Pen.ShiftedLate (.lowered doc) loose Style.default) (.begin doc 0)
      { Scan.begin doc' 0 with pos := 1, prev := Code.lineFeed } where
  shows := h.shows
  pos := rfl
  state := rfl
  prev := .inr ⟨rfl, rfl⟩
  pen := h.shiftedLate (.start doc) (.start doc') rfl
  start_le := Nat.le_refl 0

/--
Both passes begin outside of comments, and all comments of theirs start in the text.
-/
theorem stepFrom_alike (h : doc.Lowered doc') (keywords : Keywords)
    (hs : s.Alike (.lowered doc) (Pen.ShiftedLate (.lowered doc) loose Style.default) s') (hsegment : s.pen.segment ≤ s.pos)
    (hlt : s.pos < doc.size) :
    (stepFrom keywords doc 0 s).Alike (.lowered doc) (Pen.ShiftedLate (.lowered doc) loose Style.default)
      (stepFrom keywords doc' 0 s') := by
  have hrel : Kept (.lowered doc) (Pen.ShiftedLate (.lowered doc) loose Style.default) :=
    kept_of_closed (View.closed_shiftedLate Style.default)
  refine hs.step hrel hlt hsegment rfl ?_ ?_
  . show doc'.options.getFlag _ _ = doc.options.getFlag _ _
    rw [h.options]
  . intro hstate _
    have hne : s.state ≠ Style.default := by
      rcases hstate with hstate | hstate
      . rw [hstate]
        decide
      . rw [hstate]
        decide
    have hdefault : (Style.default == s.state) = false := beq_eq_false_iff_ne.mpr hne.symm
    show Scan.closesComment ⟨0, _, Style.default⟩ s' = Scan.closesComment ⟨0, _, Style.default⟩ s
    rw [Scan.closesComment, Scan.closesComment, hs.state, hdefault, hs.pen.segment hne, hs.pos]
    simp only [Bool.false_and, Bool.or_false, decide_eq_decide]
    omega

theorem styles_lowered (h : doc.Lowered doc') (keywords : Keywords) (i : Nat) :
    (pass keywords doc' 0 doc'.size).styles[i + 1]? = (pass keywords doc 0 doc.size).styles[i]? := by
  have hrel : Kept (.lowered doc) (Pen.ShiftedLate (.lowered doc) loose Style.default) :=
    kept_of_closed (View.closed_shiftedLate Style.default)
  have hfirst : Run keywords doc' 0 doc'.size (.begin doc' 0) { Scan.begin doc' 0 with pos := 1, prev := Code.lineFeed } := by
    rw [← stepFrom_begin h keywords]
    exact .head (decide_eq_true h.pos') (.refl _)
  obtain ⟨t', hrun', hend', heq'⟩ := exists_run keywords doc' 0 doc'.size
  have hrest' := hfirst.rest hrun' (decide_eq_false (Nat.not_lt.mpr hend'))
  obtain ⟨t, hrun, halike, _⟩ : ∃ t, Run keywords doc 0 doc.size (.begin doc 0) t
      ∧ t.Alike (.lowered doc) (Pen.ShiftedLate (.lowered doc) loose Style.default) t' ∧ t.pen.segment ≤ t.pos := by
    refine Run.lockstep (R := fun s s' => s.Alike (.lowered doc) (Pen.ShiftedLate (.lowered doc) loose Style.default) s'
      ∧ s.pen.segment ≤ s.pos) hrest' ?_ ?_ ⟨alike_lowered h, Nat.le_refl 0⟩
    . intro s s' hs hlt
      have hpos : s'.pos = s.pos + 1 := hs.1.pos
      rw [hpos, h.size] at hlt
      exact Nat.lt_of_succ_lt_succ hlt
    . intro s s' hs hlt
      exact ⟨stepFrom_alike h keywords hs.1 hs.2 hlt, Scan.segment_step_le _ hs.2⟩
  have hend : doc.size ≤ t.pos := by
    have hpos : t'.pos = t.pos + 1 := halike.pos
    rw [hpos, h.size] at hend'
    exact Nat.le_of_succ_le_succ hend'
  have hpens (style : Highlight.Style) := hrel.colourTo style halike.shows (Nat.zero_le _)
    (show doc.size ≤ (View.lowered doc).reach from Nat.le_succ _) halike.pen
  rw [heq', hrun.pass_eq hend, halike.state, h.size]
  exact Pen.ShiftedLate.styles hpens i

end Sql

end Highlight
