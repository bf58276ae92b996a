import Highlight.Proofs.Cursor.LineEnd
import Highlight.Proofs.Cursor.Sight
import Highlight.R.Colour

/-!
The steps of R depend on nothing but what a cursor sees. At the end of a line, only strings, comments and
special operators are open.
-/

namespace Highlight.R

open Cursor

variable {strict : Prop} {v : View} {rel : Style → Pen → Pen → Prop} {c c' : Cursor}

/--
The tokens that can be open at a line start.
-/
def loose (style : Style) : Bool :=
  style == Style.default || style == Style.string || style == Style.singleQuoted || style == Style.comment

/--
The tokens that can be open between two steps.
-/
def isToken (style : Style) : Bool :=
  loose style || style == Style.operator || style == Style.number || style == Style.identifier || style == Style.special

theorem isInner_of_isWord {x : Code} (h : isWord x = true) : x.isInner = true := by
  rw [isWord, Bool.or_eq_true] at h
  exact h.elim Code.isInner_of_isAlphanumeric (Code.isInner_of_isOneOf (by decide))

theorem isInner_of_isWordStart {x : Code} (h : isWordStart x = true) : x.isInner = true := by
  rw [isWordStart, Bool.and_eq_true] at h
  exact isInner_of_isWord h.1

theorem isInner_of_isOperator {x : Code} (h : isOperator x = true) : x.isInner = true :=
  Code.isInner_of_isOneOf (by decide) h

theorem isInner_of_startsNumber (h : startsNumber c = true) : c.cur.isInner = true := by
  rw [startsNumber, Bool.or_eq_true, Bool.and_eq_true] at h
  exact h.elim Code.isInner_of_isDigit fun h => isInner_of_sees (by decide) h.1

/--
Two cursors inside of a step, at the same character of the part that a view shows. If `strict`, it is a step of a
pass that can be interrupted, in which only some tokens are open.
-/
structure Inside (strict : Prop) (v : View) (rel : Style → Pen → Pen → Prop) (c c' : Cursor) : Prop where
  cursor : c.Alike v rel c'
  lt_reach : c.pos < v.reach
  token : strict → isToken c.state = true

/--
Only these tokens can be open at the end of a line.
-/
def GoesOver (strict : Prop) (c : Cursor) : Prop :=
  strict → c.atLineEnd = true → loose c.state = true

/--
A special operator that the end of its line closes.
-/
def endsSpecial (c : Cursor) : Bool :=
  c.state == Style.special && (!c.sees '%' && c.atLineEnd)

namespace Inside

theorem startsNumber_eq (h : Inside strict v rel c c') : startsNumber c' = startsNumber c := by
  rw [startsNumber, startsNumber, h.cursor.cur h.lt_reach, h.cursor.sees h.lt_reach,
    h.cursor.sees_and_next h.lt_reach (by decide)]

theorem setState (hrel : v.Closed loose rel) (h : Inside strict v rel c c') {style : Style} (hstyle : isToken style = true) :
    Inside strict v rel (c.setState style) (c'.setState style) :=
  ⟨h.cursor.setState hrel style, h.lt_reach, fun _ => hstyle⟩

theorem forward (h : Inside strict v rel c c') (hcur : c.cur.isInner = true) : Inside strict v rel c.forward c'.forward where
  cursor := h.cursor.forward h.lt_reach
  lt_reach := h.cursor.forward_inner h.lt_reach hcur
  token := by
    rw [state_forward (h.cursor.more h.lt_reach)]
    exact h.token

/--
A token ends behind its last character.
-/
theorem forwardSetState (hrel : v.Closed loose rel) (h : Inside strict v rel c c') (hcur : c.cur.isInner = true) :
    Inside strict v rel (c.forwardSetState Style.default) (c'.forwardSetState Style.default)
      ∧ GoesOver strict (c.forwardSetState Style.default) :=
  ⟨(h.forward hcur).setState hrel rfl, fun _ _ => rfl⟩

theorem leaveString (hrel : v.Closed loose rel) (h : Inside strict v rel c c') (hstate : loose c.state = true) {quote : Code}
    (hquote : quote.isInner = true) :
    Inside strict v rel (leaveString quote c) (leaveString quote c') ∧ GoesOver strict (leaveString quote c) := by
  have hcur := h.cursor.cur h.lt_reach
  unfold R.leaveString
  rw [hcur]
  split
  . next hbackslash =>
    have hinner := Code.isInner_of_eq (by decide) hbackslash
    rw [h.cursor.next_of_isInner h.lt_reach hinner]
    split
    . refine ⟨h.forward hinner, fun _ _ => ?_⟩
      rwa [state_forward (h.cursor.more h.lt_reach)]
    . exact ⟨h, fun _ _ => hstate⟩
  . split
    . next hclose => exact h.forwardSetState hrel (Code.isInner_of_eq hquote hclose)
    . exact ⟨h, fun _ _ => hstate⟩

theorem leave (hrel : v.Closed loose rel) (h : Inside strict v rel c c') (hspecial : endsSpecial c = false) (keywords : Keywords) :
    Inside strict v rel (leave keywords c) (leave keywords c') ∧ GoesOver strict (leave keywords c) := by
  have hsettled := h.cursor.settled
  unfold R.leave
  rw [h.cursor.state]
  split
  . exact ⟨h.setState hrel rfl, fun _ _ => rfl⟩
  . rw [h.startsNumber_eq]
    split
    . next hnumber =>
      refine ⟨h, fun _ hend => ?_⟩
      rw [hsettled.atLineEnd_of_isInner (isInner_of_startsNumber hnumber)] at hend
      cases hend
    . exact ⟨h.setState hrel rfl, fun _ _ => rfl⟩
  . next hstate =>
    have hloose : loose c.state = false := by rw [hstate]; rfl
    rw [h.cursor.cur h.lt_reach, h.cursor.token hrel hloose]
    split
    . next hword =>
      refine ⟨h, fun _ hend => ?_⟩
      rw [hsettled.atLineEnd_of_isInner (isInner_of_isWord hword)] at hend
      cases hend
    . have hchange := h.cursor.changeState hrel hloose (wordStyle keywords (c.token 99))
      exact ⟨⟨hchange.setState hrel Style.default, h.lt_reach, fun _ => rfl⟩, fun _ _ => rfl⟩
  . next hstate =>
    rw [h.cursor.seesLineEnd h.lt_reach]
    split
    . exact ⟨h.setState hrel rfl, fun _ _ => rfl⟩
    . exact ⟨h, fun _ _ => by rw [hstate]; rfl⟩
  . next hstate => exact h.leaveString hrel (by rw [hstate]; rfl) (by decide)
  . next hstate => exact h.leaveString hrel (by rw [hstate]; rfl) (by decide)
  . next hstate =>
    rw [h.cursor.sees h.lt_reach, h.cursor.atLineEnd h.lt_reach]
    split
    . next hclose => exact h.forwardSetState hrel (isInner_of_sees (by decide) hclose)
    . next hopen =>
      have hend : c.atLineEnd = false := by
        rw [endsSpecial, hstate, Bool.eq_false_iff.mpr hopen] at hspecial
        exact hspecial
      rw [hend, if_neg Bool.false_ne_true, if_neg Bool.false_ne_true]
      exact ⟨h, fun _ hline => absurd (hend.symm.trans hline) Bool.false_ne_true⟩
  . next hoperator hnumber hidentifier _ _ _ hspecial =>
    refine ⟨h, fun hstrict _ => ?_⟩
    have htoken := h.token hstrict
    simp only [isToken, Bool.or_eq_true, beq_iff_eq] at htoken
    rcases htoken with (((hloose | hstate) | hstate) | hstate) | hstate
    . exact hloose
    . exact absurd hstate hoperator
    . exact absurd hstate hnumber
    . exact absurd hstate hidentifier
    . exact absurd hstate hspecial

theorem starting?_eq (h : Inside strict v rel c c') : starting? c' = starting? c := by
  unfold starting?
  simp only [h.startsNumber_eq, h.cursor.cur h.lt_reach, h.cursor.sees h.lt_reach]

theorem starts_of_ite {p : Prop} [Decidable p] {found : Style} {rest : Option Style}
    (hfound : p → isToken found = true ∧ (loose found = true ∨ c.cur.isInner = true))
    (hrest : ∀ style, rest = some style → isToken style = true ∧ (loose style = true ∨ c.cur.isInner = true)) :
    ∀ style, (if p then some found else rest) = some style →
      isToken style = true ∧ (loose style = true ∨ c.cur.isInner = true) := by
  intro style h
  split at h
  . next hp =>
    cases h
    exact hfound hp
  . exact hrest style h

theorem starting?_spec : ∀ style, starting? c = some style →
    isToken style = true ∧ (loose style = true ∨ c.cur.isInner = true) := by
  unfold starting?
  refine starts_of_ite (fun hnumber => ⟨rfl, .inr (isInner_of_startsNumber hnumber)⟩) ?_
  refine starts_of_ite (fun hword => ⟨rfl, .inr (isInner_of_isWordStart hword)⟩) ?_
  refine starts_of_ite (fun _ => ⟨rfl, .inl rfl⟩) ?_
  refine starts_of_ite (fun _ => ⟨rfl, .inl rfl⟩) ?_
  refine starts_of_ite (fun hpercent => ⟨rfl, .inr (isInner_of_sees (by decide) hpercent)⟩) ?_
  refine starts_of_ite (fun _ => ⟨rfl, .inl rfl⟩) ?_
  refine starts_of_ite (fun hoperator => ⟨rfl, .inr (isInner_of_isOperator hoperator)⟩) ?_
  exact nofun

theorem enter (hrel : v.Closed loose rel) (h : Inside strict v rel c c') (hover : GoesOver strict c) :
    Inside strict v rel (enter c) (enter c') ∧ GoesOver strict (enter c) := by
  unfold R.enter
  rw [h.cursor.state, h.starting?_eq]
  split
  . split
    . next style hstyle =>
      obtain ⟨htoken, hloose⟩ := starting?_spec style hstyle
      refine ⟨h.setState hrel htoken, fun _ hend => ?_⟩
      rcases hloose with hloose | hinner
      . exact hloose
      . have hend : c.atLineEnd = true := hend
        rw [h.cursor.settled.atLineEnd_of_isInner hinner] at hend
        cases hend
    . exact ⟨h, hover⟩
  . exact ⟨h, hover⟩

end Inside

end Highlight.R
