import Highlight.Proofs.Cursor.Sight
import Highlight.Proofs.Scss.Context
import Highlight.Scss.Colour

/-!
The steps of SCSS depend on nothing but what a cursor sees, the context and the character in front of
the cursor.
-/

namespace Highlight.Scss

open Cursor

variable {strict : Prop} {v : View} {rel : Style → Pen → Pen → Prop} {s s' : Scan}

namespace Scan

/--
Two scans inside of a step, at the same character of the part that a view shows. Of the character in
front only two things count. If `strict`, it is a step of a pass that can be interrupted, and the line state keeps all.
The lines above have the same states from the first one of the part on.
-/
structure Inside (strict : Prop) (v : View) (rel : Style → Pen → Pen → Prop) (s s' : Scan) : Prop where
  cursor : s.cursor.Alike v rel s'.cursor
  lt_reach : s.cursor.pos < v.reach
  context : s'.context = s.context
  isWord_prev : isWord s'.cursor.prev = isWord s.cursor.prev
  colon_prev : s'.cursor.prev.is ':' = s.cursor.prev.is ':'
  fits : strict → s.context.Fits
  packable : strict → Packable s.cursor.state
  lineStates : ∀ l : Nat, v.first ≤ l → l < s.cursor.line →
    s'.cursor.doc.lineStates[l + v.shift]? = s.cursor.doc.lineStates[l]?

namespace Inside

theorem withContext (h : Inside strict v rel s s') {context : Context} (hfits : strict → context.Fits) :
    Inside strict v rel { s with context } { s' with context } where
  cursor := h.cursor
  lt_reach := h.lt_reach
  context := rfl
  isWord_prev := h.isWord_prev
  colon_prev := h.colon_prev
  fits := hfits
  packable := h.packable
  lineStates := h.lineStates

theorem setState (hrel : v.Closed (fun _ => false) rel) (h : Inside strict v rel s s') {style : Style}
    (hstyle : strict → Packable style) :
    Inside strict v rel (s.withCursor (s.cursor.setState style)) (s'.withCursor (s'.cursor.setState style)) where
  cursor := h.cursor.setState hrel style
  lt_reach := h.lt_reach
  context := h.context
  isWord_prev := h.isWord_prev
  colon_prev := h.colon_prev
  fits := h.fits
  packable := hstyle
  lineStates := by
    show ∀ l : Nat, v.first ≤ l → l < s.cursor.line →
      (s'.cursor.pen.colourTo _ _).doc.lineStates[l + v.shift]? = (s.cursor.pen.colourTo _ _).doc.lineStates[l]?
    rw [Pen.lineStates_colourTo, Pen.lineStates_colourTo]
    exact h.lineStates

theorem changeState (hrel : v.Closed (fun _ => false) rel) (h : Inside strict v rel s s') {style : Style}
    (hstyle : strict → Packable style) :
    Inside strict v rel (s.withCursor (s.cursor.changeState style)) (s'.withCursor (s'.cursor.changeState style)) where
  cursor := h.cursor.changeState hrel rfl style
  lt_reach := h.lt_reach
  context := h.context
  isWord_prev := h.isWord_prev
  colon_prev := h.colon_prev
  fits := h.fits
  packable := hstyle
  lineStates := h.lineStates

theorem forward (h : Inside strict v rel s s') (hcur : s.cursor.cur.isInner = true) :
    Inside strict v rel (s.withCursor s.cursor.forward) (s'.withCursor s'.cursor.forward) where
  cursor := h.cursor.forward h.lt_reach
  lt_reach := h.cursor.forward_inner h.lt_reach hcur
  context := h.context
  isWord_prev := congrArg isWord (h.cursor.prev_forward h.lt_reach)
  colon_prev := congrArg (Code.is · ':') (h.cursor.prev_forward h.lt_reach)
  fits := h.fits
  packable := by
    show strict → Packable s.cursor.forward.state
    rw [state_forward (h.cursor.more h.lt_reach)]
    exact h.packable
  lineStates := by
    show ∀ l : Nat, v.first ≤ l → l < s.cursor.forward.line →
      s'.cursor.forward.doc.lineStates[l + v.shift]? = s.cursor.forward.doc.lineStates[l]?
    rw [line_forward (h.cursor.more h.lt_reach), h.cursor.settled.atLineEnd_of_isInner hcur, doc_forward, doc_forward]
    exact h.lineStates

theorem leaveComment (hrel : v.Closed (fun _ => false) rel) (h : Inside strict v rel s s') :
    Inside strict v rel s.leaveComment s'.leaveComment := by
  have hstyle : strict → Packable (s.context.beforeComment?.getD Style.default) := by
    intro hstrict
    cases hbefore : s.context.beforeComment? with
    | none => decide
    | some style => exact (h.fits hstrict).beforeComment style hbefore
  unfold Scan.leaveComment
  simp only [h.context, h.cursor.state, h.cursor.seesPair h.lt_reach (show Code.isInner '*'.toNat = true by decide) '/',
    h.cursor.atLineEnd h.lt_reach]
  split
  . next hclose =>
    have hpair := (Bool.and_eq_true _ _ ▸ hclose).2
    have hfirst := h.forward (isInner_of_seesPair (by decide) hpair)
    have hsecond := hfirst.forward (by
      show s.cursor.forward.cur.isInner = true
      rw [cur_forward (h.cursor.more h.lt_reach)]
      exact Code.isInner_of_is (by decide) (next_of_seesPair hpair))
    exact hsecond.setState hrel hstyle
  . split
    . exact h.setState hrel hstyle
    . exact h

theorem backslashesBefore_eq {doc doc' : Document} (hshow : v.Shows doc doc') {pos : Nat} (hpos : pos ≤ v.reach) :
    backslashesBefore doc' (pos + v.shift) = backslashesBefore doc pos := by
  induction pos with
  | zero =>
    rw [Nat.zero_add]
    cases hshift : v.shift with
    | zero => rfl
    | succ k =>
      have hbyte : doc'.byteAt k 0 = 0x0A := by
        rw [Document.byteAt, hshow.lead k (by omega)]
        rfl
      show (if doc'.byteAt k 0 == 0x5C then backslashesBefore doc' k + 1 else 0) = 0
      rw [hbyte]
      rfl
  | succ pos ih =>
    have hbyte : doc'.byteAt (pos + v.shift) 0 = doc.byteAt pos 0 := hshow.byteAt (View.lt_limit_or_whole hpos) 0
    rw [show pos + 1 + v.shift = pos + v.shift + 1 by omega, backslashesBefore, backslashesBefore, hbyte, ih (by omega)]

theorem closesString_eq (h : Inside strict v rel s s') (quote : Code) : closesString quote s'.cursor = closesString quote s.cursor := by
  rw [closesString, closesString, h.cursor.cur h.lt_reach, h.cursor.pos, backslashesBefore_eq h.cursor.shows h.cursor.le_reach]

theorem packable_of_ite {p : Prop} [Decidable p] {found : Style} {rest : Option Style} (hfound : Packable found)
    (hrest : ∀ style, rest = some style → Packable style) :
    ∀ style, (if p then some found else rest) = some style → Packable style := by
  intro style h
  split at h
  . cases h
    exact hfound
  . exact hrest style h

theorem packable_of_styleAfter? {context : Context} : ∀ style, styleAfter? context = some style → Packable style := by
  unfold styleAfter?
  repeat refine packable_of_ite (by decide) ?_
  exact nofun

theorem leaveOperator (hrel : v.Closed (fun _ => false) rel) (h : Inside strict v rel s s') :
    Inside strict v rel s.leaveOperator s'.leaveOperator := by
  unfold Scan.leaveOperator
  rw [h.context]
  split
  . next style hstyle => exact h.setState hrel (fun _ => packable_of_styleAfter? style hstyle)
  . exact h

theorem packable_identifierStyle (keywords : Keywords) (word : String) : Packable (identifierStyle keywords word) := by
  unfold identifierStyle
  repeat' split
  all_goals decide

theorem packable_pseudoStyle (keywords : Keywords) (context : Context) (word : String) :
    Packable (pseudoStyle keywords context word) := by
  unfold pseudoStyle
  simp only
  repeat' split
  all_goals decide

theorem packable_wordStyle (keywords : Keywords) (context : Context) {style : Style} (hstyle : Packable style)
    (word : String) : Packable (wordStyle keywords context style word) := by
  unfold wordStyle
  split
  . exact packable_identifierStyle keywords word
  . split
    . exact packable_pseudoStyle keywords context word
    . split
      . split
        . exact hstyle
        . decide
      . split
        . decide
        . exact hstyle

theorem classify (hrel : v.Closed (fun _ => false) rel) (h : Inside strict v rel s s') (keywords : Keywords) :
    Inside strict v rel (s.classify keywords) (s'.classify keywords) := by
  unfold Scan.classify
  simp only [h.context, h.cursor.state, h.isWord_prev, Cursor.tokenLower, h.cursor.token hrel rfl]
  split
  . exact h.changeState hrel (fun hstrict => packable_wordStyle _ _ (h.packable hstrict) _)
  . exact h

theorem leaveSelector (hrel : v.Closed (fun _ => false) rel) (h : Inside strict v rel s s') :
    Inside strict v rel s.leaveSelector s'.leaveSelector := by
  unfold Scan.leaveSelector
  simp only [h.cursor.state, h.cursor.cur h.lt_reach]
  split
  . exact h.setState hrel (fun _ => by decide)
  . exact h

theorem startComment (hrel : v.Closed (fun _ => false) rel) (h : Inside strict v rel s s') {style : Style} (hstyle : strict → Packable style)
    (hcur : s.cursor.cur.isInner = true) : Inside strict v rel (s.startComment style) (s'.startComment style) := by
  have hfits : strict → Context.Fits { s.context with beforeComment? := some s.cursor.state } := fun hstrict =>
    { lastStyle := (h.fits hstrict).lastStyle
      beforeComment := by
        intro style hstyle
        cases hstyle
        exact h.packable hstrict
      beforeString := (h.fits hstrict).beforeString
      operator := (h.fits hstrict).operator }
  have hset := ((h.withContext hfits).setState hrel hstyle).forward hcur
  unfold Scan.startComment
  rw [h.context, h.cursor.state]
  exact hset

theorem mem_operators_of_isOperator {c : Code} (h : isOperator c = true) : UInt8.ofNat c ∈ operators := by
  obtain ⟨sign, hsign, heq⟩ := List.any_eq_true.mp h
  rw [beq_iff_eq] at heq
  rw [← heq, UInt8.ofNat_toNat]
  exact hsign

theorem seesOperator_eq (h : Inside strict v rel s s') : seesOperator s'.cursor = seesOperator s.cursor := by
  simp only [seesOperator, h.cursor.sees h.lt_reach, h.cursor.cur h.lt_reach, h.cursor.state]

theorem start (hrel : v.Closed (fun _ => false) rel) (h : Inside strict v rel s s') : Inside strict v rel s.start s'.start := by
  have hslash : Code.isInner '/'.toNat = true := by decide
  unfold Scan.start
  simp only [h.cursor.seesPair h.lt_reach hslash]
  split
  . next hpair => exact h.startComment hrel (fun _ => by decide) (isInner_of_seesPair hslash hpair)
  . split
    . next hpair => exact h.startComment hrel (fun _ => by decide) (isInner_of_seesPair hslash hpair)
    . simp only [h.seesOperator_eq, h.context, h.cursor.state, h.cursor.cur h.lt_reach, h.colon_prev]
      split
      . have hfits : strict → Context.Fits { s.context with beforeString? := some s.cursor.state } := fun hstrict =>
          { lastStyle := (h.fits hstrict).lastStyle
            beforeComment := (h.fits hstrict).beforeComment
            beforeString := by
              intro style hstyle
              cases hstyle
              exact h.packable hstrict
            operator := (h.fits hstrict).operator }
        refine (h.withContext hfits).setState hrel fun _ => ?_
        split <;> decide
      . split
        . next hsign =>
          simp only [seesOperator, Bool.and_eq_true] at hsign
          have hfits : strict → Context.Fits
              { s.context with
                lastStyle? := if s.cursor.state == Style.operator then s.context.lastStyle? else some s.cursor.state
                operator? := some ⟨UInt8.ofNat s.cursor.cur, s.cursor.prev.is ':'⟩ } := fun hstrict =>
            { lastStyle := by
                intro style hstyle
                simp only at hstyle
                split at hstyle
                . exact (h.fits hstrict).lastStyle style hstyle
                . cases hstyle
                  exact h.packable hstrict
              beforeComment := (h.fits hstrict).beforeComment
              beforeString := (h.fits hstrict).beforeString
              operator := by
                intro operator hoperator
                cases hoperator
                exact mem_operators_of_isOperator hsign.1.1.1 }
          exact (h.withContext hfits).setState hrel (fun _ => by decide)
        . exact h

theorem stepOutside (hrel : v.Closed (fun _ => false) rel) (h : Inside strict v rel s s') (keywords : Keywords) :
    Inside strict v rel (s.stepOutside keywords) (s'.stepOutside keywords) := by
  have hleave : Inside strict v rel (if s.cursor.state == Style.operator then s.leaveOperator else s)
      (if s'.cursor.state == Style.operator then s'.leaveOperator else s') := by
    rw [h.cursor.state]
    split
    . exact h.leaveOperator hrel
    . exact h
  unfold Scan.stepOutside
  generalize (if s.cursor.state == Style.operator then s.leaveOperator else s) = t at *
  generalize (if s'.cursor.state == Style.operator then s'.leaveOperator else s') = t' at *
  simp only [hleave.cursor.sees hleave.lt_reach, hleave.cursor.cur hleave.lt_reach, hleave.cursor.state]
  split
  . split
    . exact hleave.setState hrel (fun _ => by decide)
    . exact hleave
  . split
    . exact hleave.setState hrel (fun _ => by decide)
    . exact ((hleave.classify hrel keywords).leaveSelector hrel).start hrel

theorem stepInString (hrel : v.Closed (fun _ => false) rel) (h : Inside strict v rel s s') (keywords : Keywords) {quote : Code}
    (hquote : quote.isInner = true) : Inside strict v rel (s.stepInString keywords quote) (s'.stepInString keywords quote) := by
  have hstyle : strict → Packable (s.context.beforeString?.getD Style.value) := by
    intro hstrict
    cases hbefore : s.context.beforeString? with
    | none => decide
    | some style => exact (h.fits hstrict).beforeString style hbefore
  unfold Scan.stepInString
  rw [h.closesString_eq, h.context]
  split
  . next hclose =>
    have hcur : s.cursor.cur.isInner = true := by
      rw [closesString, Bool.and_eq_true] at hclose
      exact Code.isInner_of_eq hquote hclose.1
    exact ((h.forward hcur).setState hrel hstyle).stepOutside hrel keywords
  . exact h

theorem stepInToken (hrel : v.Closed (fun _ => false) rel) (h : Inside strict v rel s s') (keywords : Keywords) :
    Inside strict v rel (s.stepInToken keywords) (s'.stepInToken keywords) := by
  have hleave := h.leaveComment hrel
  unfold Scan.stepInToken
  generalize s.leaveComment = t at *
  generalize s'.leaveComment = t' at *
  simp only [hleave.cursor.state]
  split
  . exact hleave
  . exact hleave
  . exact hleave.stepInString hrel keywords (by decide)
  . exact hleave.stepInString hrel keywords (by decide)
  . exact hleave.stepOutside hrel keywords

end Inside

end Scan

end Highlight.Scss
