import Highlight.Haskell.Colour
import Highlight.Proofs.Cursor.Sight
import Highlight.Proofs.Iteration

/-!
The steps of Haskell depend on nothing but what a cursor sees and on the memory. A step that comes over a
line end stops right behind it, inside of a token that can go on there.
-/

namespace Highlight.Haskell

open Cursor

variable {v : View} {rel : Style → Pen → Pen → Prop} {c c' : Cursor} {s s' r r' : Scan}

/--
The tokens that can be open at a line start.
-/
def loose (style : Style) : Bool :=
  style == Style.default || style == Style.string || style == Style.character || style == Style.commentBlock
    || style == Style.pragma || style == Style.preprocessor

/--
The tokens that can be open between two steps.
-/
def isToken (style : Style) : Bool :=
  loose style || style == Style.operator || style == Style.number || style == Style.identifier
    || style == Style.commentLine

theorem isInner_of_isOperatorSign {x : Code} (h : isOperatorSign x = true) : x.isInner = true :=
  Code.isInner_of_isOneOf (by decide) h

theorem isInner_of_isPunctuation {x : Code} (h : isPunctuation x = true) : x.isInner = true :=
  Code.isInner_of_isOneOf (by decide) h

theorem isInner_of_isWordStart {x : Code} (h : isWordStart x = true) : x.isInner = true := by
  rw [isWordStart, Bool.or_eq_true] at h
  exact h.elim Code.isInner_of_isAlpha (Code.isInner_of_is (by decide))

theorem isInner_of_isWord {magicHash : Bool} {x : Code} (h : isWord magicHash x = true) : x.isInner = true := by
  simp only [isWord, Bool.or_eq_true, Bool.and_eq_true] at h
  rcases h with ((h | h) | h) | ⟨_, h⟩
  . exact Code.isInner_of_isAlphanumeric h
  . exact Code.isInner_of_is (by decide) h
  . exact Code.isInner_of_eq (by decide) h
  . exact Code.isInner_of_is (by decide) h

theorem isInner_of_isDigitInBase {x : Code} {base : Nat} (h : x.isDigitInBase base = true) : x.isInner = true := by
  unfold Code.isDigitInBase Code.digitValue? at h
  split at h
  . next hdigit => exact Code.isInner_of_isDigit hdigit
  . split at h
    . next hlower => exact Code.isInner_of_isLower hlower
    . split at h
      . next hupper => exact Code.isInner_of_isUpper hupper
      . cases h

namespace Scan

/--
Two scans at the same place of the part that a view shows.
-/
structure Near (v : View) (rel : Style → Pen → Pen → Prop) (s s' : Scan) : Prop where
  cursor : s.cursor.Alike v rel s'.cursor
  memory : s'.memory = s.memory
  pending : s'.pending = s.pending + v.shift
  first_le : v.first ≤ s.pending
  pending_le : s.pending ≤ s.cursor.line
  token : isToken s.cursor.state = true
  sign : s.cursor.state = Style.operator → isOperatorSign s.cursor.cur = true
  small : s.cursor.state ≠ Style.commentBlock → s.memory.extra < 1 <<< 27

/--
What is so with a scan that has come over a line end.
-/
structure Landed (s : Scan) : Prop where
  loose : loose s.cursor.state = true
  pending_lt : s.pending < s.cursor.line
  segment_lt : s.cursor.pen.segment < s.cursor.pos

/--
Two scans inside of a step or behind it, which have come over a line end if they have left the part.
-/
structure Went (v : View) (rel : Style → Pen → Pen → Prop) (s s' : Scan) : Prop where
  near : Near v rel s s'
  landed : s.cursor.pos = v.reach → s.Landed ∧ s'.Landed

/--
Steps that do not move the cursor make this less.
-/
def weight (s : Scan) : Nat :=
  if s.cursor.state == Style.operator || (s.cursor.state == Style.commentLine && s.memory.extra != 1) then 0 else 1

/--
What ending a token comes to: the cursor has moved, or less is left to do in front of the character, or
the character starts a token, but no operator if there was little to do.
-/
def Progress (v : View) (s r : Scan) : Prop :=
  v.start < r.cursor.pos ∨ r.weight < s.weight
    ∨ (r.cursor.state = Style.default ∧ (isOperatorSign r.cursor.cur = true → s.weight = 1))

namespace Near

theorem of_inner (h : Near v rel s s') (hin : s.cursor.pos < v.reach) : Went v rel s s' :=
  ⟨h, fun hpos => absurd hpos (Nat.ne_of_lt hin)⟩

/--
Another token is open, which is no operator.
-/
theorem move (h : Near v rel s s') (hc : c.Alike v rel c') (hline : s.cursor.line ≤ c.line) (htoken : isToken c.state = true)
    (hoperator : c.state ≠ Style.operator) (hsmall : c.state ≠ Style.commentBlock → s.memory.extra < 1 <<< 27) :
    Near v rel (s.withCursor c) (s'.withCursor c') where
  cursor := hc
  memory := h.memory
  pending := h.pending
  first_le := h.first_le
  pending_le := Nat.le_trans h.pending_le hline
  token := htoken
  sign := fun hstate => absurd hstate hoperator
  small := hsmall

theorem withMemory (h : Near v rel s s') (memory : Memory)
    (hsmall : s.cursor.state ≠ Style.commentBlock → memory.extra < 1 <<< 27) :
    Near v rel { s with memory } { s' with memory } where
  cursor := h.cursor
  memory := rfl
  pending := h.pending
  first_le := h.first_le
  pending_le := h.pending_le
  token := h.token
  sign := h.sign
  small := hsmall

theorem withExtra (h : Near v rel s s') (extra : Nat) (hsmall : s.cursor.state ≠ Style.commentBlock → extra < 1 <<< 27) :
    Near v rel (s.withExtra extra) (s'.withExtra extra) := by
  have := h.withMemory { s.memory with extra } hsmall
  unfold Scan.withExtra
  rw [h.memory]
  exact this

theorem withMode (h : Near v rel s s') (mode : Mode) : Near v rel (s.withMode mode) (s'.withMode mode) := by
  have := h.withMemory { s.memory with mode } h.small
  unfold Scan.withMode
  rw [h.memory]
  exact this

theorem setState (hrel : v.Closed Haskell.loose rel) (h : Near v rel s s') (hstate : s.cursor.state ≠ Style.commentBlock)
    {style : Style} (htoken : isToken style = true) (hoperator : style ≠ Style.operator) :
    Near v rel (s.withCursor (s.cursor.setState style)) (s'.withCursor (s'.cursor.setState style)) :=
  h.move (h.cursor.setState hrel style) (Nat.le_refl _) htoken hoperator (fun _ => h.small hstate)

/--
A character that ends no line is passed.
-/
theorem pass (h : Near v rel s s') (hin : s.cursor.pos < v.reach) (hend : s.cursor.atLineEnd = false)
    (hoperator : s.cursor.state ≠ Style.operator) :
    Near v rel (s.withCursor s.cursor.forward) (s'.withCursor s'.cursor.forward)
      ∧ s.cursor.forward.pos < v.reach ∧ v.start < s.cursor.forward.pos := by
  have hmore := h.cursor.more hin
  have hstate := state_forward hmore
  refine ⟨h.move (h.cursor.forward hin) (line_le_forward _) ?_ ?_ ?_, h.cursor.forward_lt hin hend, ?_⟩
  . rw [hstate]
    exact h.token
  . rwa [hstate]
  . rw [hstate]
    exact h.small
  . have := h.cursor.start_le
    have := h.cursor.settled.width_pos
    rw [pos_forward hmore]
    omega

/--
A character that can end a line is passed inside of a token that can go on behind it.
-/
theorem forward (h : Near v rel s s') (hin : s.cursor.pos < v.reach) (hloose : Haskell.loose s.cursor.state = true) :
    Went v rel (s.withCursor s.cursor.forward) (s'.withCursor s'.cursor.forward) ∧ v.start < s.cursor.forward.pos := by
  have hmore := h.cursor.more hin
  have hmore' := h.cursor.more' hin
  have hstate := state_forward hmore
  have hstate' := state_forward hmore'
  have hforward := h.cursor.forward hin
  have hstart := h.cursor.start_le
  have hwidth := h.cursor.settled.width_pos
  have hwidth' := h.cursor.settled'.width_pos
  have hsegment := h.cursor.settled.segment_le
  have hsegment' := h.cursor.settled'.segment_le
  have hpending := h.pending
  have hle := h.pending_le
  have hline := h.cursor.line
  refine ⟨⟨h.move hforward (line_le_forward _) ?_ ?_ ?_, ?_⟩, ?_⟩
  . rw [hstate]
    exact h.token
  . rw [hstate]
    intro heq
    rw [heq] at hloose
    cases hloose
  . rw [hstate]
    exact h.small
  . intro hpos
    have hend : s.cursor.atLineEnd = true := by
      rw [← atLineStart_forward hmore]
      exact hforward.atLineStart_of_reach hpos
    have hend' := (h.cursor.atLineEnd hin).trans hend
    constructor
    . refine ⟨hstate.symm ▸ hloose, ?_, ?_⟩
      . show s.pending < s.cursor.forward.line
        rw [line_forward hmore, if_pos hend]
        omega
      . show s.cursor.forward.pen.segment < s.cursor.forward.pos
        rw [pen_forward hmore, pos_forward hmore]
        omega
    . refine ⟨?_, ?_, ?_⟩
      . show Haskell.loose s'.cursor.forward.state = true
        rw [hstate', h.cursor.state]
        exact hloose
      . show s'.pending < s'.cursor.forward.line
        rw [line_forward hmore', if_pos hend']
        omega
      . show s'.cursor.forward.pen.segment < s'.cursor.forward.pos
        rw [pen_forward hmore', pos_forward hmore']
        omega
  . rw [pos_forward hmore]
    omega

theorem passBy (h : Near v rel s s') (hin : s.cursor.pos < v.reach) (count : Nat) (hcount : 0 < count)
    (hbytes : ∀ i, i < count → Code.isInner (s.cursor.doc.byteAt (s.cursor.pos + i) 0).toNat = true)
    (hoperator : s.cursor.state ≠ Style.operator) :
    Near v rel (s.withCursor (s.cursor.forwardBy count)) (s'.withCursor (s'.cursor.forwardBy count))
      ∧ (s.cursor.forwardBy count).pos < v.reach ∧ v.start < (s.cursor.forwardBy count).pos := by
  obtain ⟨hforward, hpos, hlt⟩ := h.cursor.forwardBy hin hbytes
  have hstate := state_forwardBy s.cursor count
  refine ⟨h.move hforward (line_le_forwardBy _ _) ?_ ?_ ?_, hlt, ?_⟩
  . rw [hstate]
    exact h.token
  . rwa [hstate]
  . rw [hstate]
    exact h.small
  . have := h.cursor.start_le
    omega

end Near

/--
What two alike scans come to when their token goes on or ends: where it has ended they are still in the
part.
-/
structure Left (v : View) (rel : Style → Pen → Pen → Prop) (s r r' : Scan) : Prop where
  went : Went v rel r r'
  progress : s.Progress v r
  lt_reach : r.cursor.state = Style.default → r.cursor.pos < v.reach

namespace Left

theorem of_inner (h : Near v rel r r') (hin : r.cursor.pos < v.reach) (hprogress : s.Progress v r) : Left v rel s r r' :=
  ⟨h.of_inner hin, hprogress, fun _ => hin⟩

theorem of_went (h : Went v rel r r' ∧ v.start < r.cursor.pos) (hstate : r.cursor.state ≠ Style.default) :
    Left v rel s r r' :=
  ⟨h.1, .inl h.2, fun hdefault => absurd hdefault hstate⟩

end Left

theorem leaveOperator_eq (c : Cursor) (hsign : isOperatorSign c.cur = true) :
    leaveOperator c
      = ((repeatWhile (isOperatorSign ·.cur) Cursor.forward c.remaining c.forward).changeState
          (if c.sees ':' && !(c.next.is ':' && !isOperatorSign (c.byteAhead 2)) then Style.capital else Style.operator)).setState
          Style.default := by
  unfold leaveOperator
  dsimp only
  rw [repeatWhile, if_pos hsign]

/--
What stands behind a colon is looked at only as far as colons go on.
-/
theorem typeSign_eq (h : c.Alike v rel c') (hin : c.pos < v.reach) :
    (c'.sees ':' && !(c'.next.is ':' && !isOperatorSign (c'.byteAhead 2)))
      = (c.sees ':' && !(c.next.is ':' && !isOperatorSign (c.byteAhead 2))) := by
  rw [h.sees hin]
  cases hcolon : c.sees ':' with
  | false => rfl
  | true =>
    have hcur := isInner_of_sees (by decide) hcolon
    rw [h.next_of_isInner hin hcur]
    cases hnext : c.next.is ':' with
    | false => rfl
    | true =>
      have hpair := h.settled.isInner_pair hcur (Code.isInner_of_is (by decide) hnext)
      have hlt := h.shows.succ_lt_reach (h.shows.succ_lt_reach hin (hpair 0 (by decide))) (hpair 1 (by decide))
      rw [h.byteAhead hlt]

theorem Near.leaveOperator (hrel : v.Closed Haskell.loose rel) (h : Near v rel s s') (hin : s.cursor.pos < v.reach)
    (hstate : s.cursor.state = Style.operator) :
    Left v rel s (s.withCursor (leaveOperator s.cursor)) (s'.withCursor (leaveOperator s'.cursor)) := by
  have hsign := h.sign hstate
  have hcur := isInner_of_isOperatorSign hsign
  have hmore := h.cursor.more hin
  have hsign' : isOperatorSign s'.cursor.cur = true := by rw [h.cursor.cur hin, hsign]
  have hstart := h.cursor.start_le
  have hwidth := h.cursor.settled.width_pos
  have hremaining := h.cursor.reach_sub_le_remaining
  have hloop : ∀ d d', d = repeatWhile (isOperatorSign ·.cur) Cursor.forward s.cursor.remaining s.cursor.forward →
      d' = repeatWhile (isOperatorSign ·.cur) Cursor.forward s'.cursor.remaining s'.cursor.forward →
      d.Alike v rel d' ∧ d.pos < v.reach ∧ v.start < d.pos ∧ d.state = Style.operator ∧ s.cursor.line ≤ d.line := by
    rintro _ _ rfl rfl
    refine repeatWhile_lockstep (R := fun d d' : Cursor => d.Alike v rel d' ∧ d.pos < v.reach ∧ v.start < d.pos
      ∧ d.state = Style.operator ∧ s.cursor.line ≤ d.line) (fun d => v.reach - d.pos) ?_ ?_
      ⟨h.cursor.forward hin, h.cursor.forward_inner hin hcur, ?_, (state_forward hmore).trans hstate, line_le_forward _⟩ ?_ ?_
    . intro d d' hd
      exact congrArg isOperatorSign (hd.1.cur hd.2.1)
    . intro d d' ⟨halike, hlt, hpos, hoperator, hline⟩ hsign
      have hmore := halike.more hlt
      have hwidth := halike.settled.width_pos
      have hforward := halike.forward_inner hlt (isInner_of_isOperatorSign hsign)
      have hat := pos_forward hmore
      exact ⟨⟨halike.forward hlt, hforward, by omega, (state_forward hmore).trans hoperator,
        Nat.le_trans hline (line_le_forward _)⟩, by omega⟩
    all_goals
      rw [pos_forward hmore]
      omega
  obtain ⟨halike, hlt, hpos, hoperator, hline⟩ := hloop _ _ rfl rfl
  rw [leaveOperator_eq _ hsign, leaveOperator_eq _ hsign', typeSign_eq h.cursor hin]
  have hchange := halike.changeState hrel (by rw [hoperator]; decide)
    (if s.cursor.sees ':' && !(s.cursor.next.is ':' && !isOperatorSign (s.cursor.byteAhead 2)) then Style.capital
      else Style.operator)
  refine .of_inner (h.move (hchange.setState hrel Style.default) hline rfl (show Style.default ≠ Style.operator by decide)
    (fun _ => h.small ?_)) hlt (.inl hpos)
  rw [hstate]
  decide

theorem Near.leaveQuoted (hrel : v.Closed Haskell.loose rel) (h : Near v rel s s') (hin : s.cursor.pos < v.reach)
    (hstate : s.cursor.state = Style.string ∨ s.cursor.state = Style.character) {quote : Code} (hquote : quote.isInner = true) :
    Left v rel s (s.withCursor (leaveQuoted quote s.cursor)) (s'.withCursor (leaveQuoted quote s'.cursor)) := by
  have hblock : s.cursor.state ≠ Style.commentBlock := by rcases hstate with h | h <;> rw [h] <;> decide
  have hoperator : s.cursor.state ≠ Style.operator := by rcases hstate with h | h <;> rw [h] <;> decide
  have hdefault : s.cursor.state ≠ Style.default := by rcases hstate with h | h <;> rw [h] <;> decide
  have hloose : Haskell.loose s.cursor.state = true := by rcases hstate with h | h <;> rw [h] <;> rfl
  have hweight : s.weight = 1 := by
    rw [weight]
    rcases hstate with h | h <;> rw [h] <;> rfl
  have hmore := h.cursor.more hin
  have hset := h.setState hrel hblock (show isToken Style.default = true from rfl) (by decide)
  unfold Haskell.Scan.leaveQuoted
  rw [h.cursor.cur hin, h.cursor.atLineEnd hin]
  split
  . next hcur =>
    obtain ⟨hpass, hlt, hpos⟩ := h.pass hin (h.cursor.settled.atLineEnd_of_isInner (Code.isInner_of_eq hquote hcur)) hoperator
    refine .of_inner (hpass.setState hrel ?_ (show isToken Style.default = true from rfl) (by decide)) hlt (.inl hpos)
    rw [withCursor, state_forward hmore]
    exact hblock
  . split
    . next hcur =>
      obtain ⟨hpass, hlt, hpos⟩ := h.pass hin (h.cursor.settled.atLineEnd_of_isInner (Code.isInner_of_eq (by decide) hcur))
        hoperator
      have hstate : s.cursor.forward.state = s.cursor.state := state_forward hmore
      have hforward := hpass.forward hlt (by rw [withCursor, hstate]; exact hloose)
      refine .of_went hforward ?_
      show (s.cursor.forwardBy 2).state ≠ _
      rw [state_forwardBy]
      exact hdefault
    . split
      . exact .of_inner hset hin (.inr (.inr ⟨rfl, fun _ => hweight⟩))
      . next hend =>
        obtain ⟨hpass, hlt, hpos⟩ := h.pass hin (Bool.eq_false_iff.mpr hend) hoperator
        exact .of_inner hpass hlt (.inl hpos)

theorem Near.leaveNumber (hrel : v.Closed Haskell.loose rel) (h : Near v rel s s') (hin : s.cursor.pos < v.reach)
    (hstate : s.cursor.state = Style.number) (base : Nat) :
    Left v rel s (s.withCursor (leaveNumber base s.cursor)) (s'.withCursor (leaveNumber base s'.cursor)) := by
  have hblock : s.cursor.state ≠ Style.commentBlock := by
    rw [hstate]
    decide
  have hoperator : s.cursor.state ≠ Style.operator := by
    rw [hstate]
    decide
  have hmore := h.cursor.more hin
  have hpoint := h.cursor.sees_and_next hin (x := '.') (by decide) (Code.isDigitInBase · base)
  have hexponent := h.cursor.and_next hin (p := fun x => base == 10 && x.isOneOf "eE")
    (q := fun x => x.isDigit || x.isOneOf "+-") (fun x hx => Code.isInner_of_isOneOf (by decide) (Bool.and_eq_true _ _ ▸ hx).2)
  have hpass : s.cursor.cur.isInner = true → _ := fun hcur =>
    h.pass hin (h.cursor.settled.atLineEnd_of_isInner hcur) hoperator
  unfold Haskell.Scan.leaveNumber
  rw [h.cursor.cur hin, h.cursor.sees hin, hpoint, hexponent]
  split
  . next hdigit =>
    have hcur : s.cursor.cur.isInner = true := by
      rw [Bool.or_eq_true, Bool.and_eq_true] at hdigit
      exact hdigit.elim isInner_of_isDigitInBase fun hpoint => isInner_of_sees (by decide) hpoint.1
    obtain ⟨hpass, hlt, hpos⟩ := hpass hcur
    exact .of_inner hpass hlt (.inl hpos)
  . split
    . next hexponent =>
      rw [Bool.and_eq_true, Bool.and_eq_true] at hexponent
      obtain ⟨hpass, hlt, hpos⟩ := hpass (Code.isInner_of_isOneOf (by decide) hexponent.1.2)
      dsimp only
      rw [show s'.cursor.forward.cur = s.cursor.forward.cur from hpass.cursor.cur hlt]
      split
      . next hsign =>
        obtain ⟨hpass', hlt', hpos'⟩ := hpass.pass hlt
          (hpass.cursor.settled.atLineEnd_of_isInner (Code.isInner_of_isOneOf (by decide) hsign)) (by
            rw [withCursor, state_forward hmore]
            exact hoperator)
        exact .of_inner hpass' hlt' (.inl hpos')
      . exact .of_inner hpass hlt (.inl hpos)
    . refine .of_inner (h.setState hrel hblock (show isToken Style.default = true from rfl) (by decide)) hin
        (.inr (.inr ⟨rfl, fun _ => ?_⟩))
      rw [weight, hstate]
      rfl

theorem goingOn?_eq (h : Near v rel s s') (hin : s.cursor.pos < v.reach) (magicHash : Bool) :
    goingOn? magicHash s' = goingOn? magicHash s := by
  unfold goingOn?
  dsimp only
  rw [h.cursor.cur hin, h.cursor.sees hin, h.memory]
  split
  . rfl
  . split
    . next hpoint =>
      rw [Bool.and_eq_true] at hpoint
      rw [h.cursor.next_of_isInner hin (isInner_of_sees (by decide) hpoint.2)]
    . rfl

/--
A name goes on with characters that end no line.
-/
theorem isInner_of_goingOn? {magicHash : Bool} {style : Nat} (h : goingOn? magicHash s = some style) :
    s.cursor.cur.isInner = true := by
  unfold goingOn? at h
  dsimp only at h
  split at h
  . next hword => exact isInner_of_isWord hword
  . split at h
    . next hpoint => exact isInner_of_sees (by decide) (Bool.and_eq_true _ _ ▸ hpoint).2
    . split at h
      . next hsign => exact isInner_of_isOperatorSign (Bool.and_eq_true _ _ ▸ hsign).2
      . cases h

theorem small_of_goingOn? {magicHash : Bool} {style : Nat} (h : goingOn? magicHash s = some style)
    (hsmall : s.memory.extra < 1 <<< 27) : style < 1 <<< 27 := by
  unfold goingOn? at h
  dsimp only at h
  split at h
  . cases h
    exact hsmall
  . split at h
    . split at h
      . cases h
        decide
      . split at h
        . cases h
          decide
        . split at h
          . cases h
            decide
          . cases h
    . split at h
      . cases h
        exact hsmall
      . cases h

theorem Near.goOn (h : Near v rel s s') (hin : s.cursor.pos < v.reach) (hstate : s.cursor.state = Style.identifier)
    {magicHash : Bool} {style : Nat} (hgoing : goingOn? magicHash s = some style) :
    Near v rel (goOn magicHash s) (goOn magicHash s') ∧ (goOn magicHash s).cursor = s.cursor.forward
      ∧ s.cursor.forward.pos < v.reach ∧ v.start < s.cursor.forward.pos := by
  have hoperator : s.cursor.state ≠ Style.operator := by
    rw [hstate]
    decide
  have hsmall : s.memory.extra < 1 <<< 27 := h.small (by rw [hstate]; decide)
  obtain ⟨hpass, hlt, hpos⟩ := h.pass hin (h.cursor.settled.atLineEnd_of_isInner (isInner_of_goingOn? hgoing)) hoperator
  have hextra := hpass.withExtra style (fun _ => small_of_goingOn? hgoing hsmall)
  unfold Scan.goOn
  rw [goingOn?_eq h hin, hgoing]
  exact ⟨hextra, rfl, hlt, hpos⟩

theorem Near.skipName (h : Near v rel s s') (hin : s.cursor.pos < v.reach) (hstate : s.cursor.state = Style.identifier)
    (magicHash : Bool) :
    Near v rel (s.skipName magicHash) (s'.skipName magicHash) ∧ (s.skipName magicHash).cursor.pos < v.reach
      ∧ (s.skipName magicHash).cursor.state = Style.identifier := by
  have hremaining := h.cursor.reach_sub_le_remaining
  unfold Scan.skipName
  refine repeatWhile_lockstep
    (R := fun t t' : Scan => Near v rel t t' ∧ t.cursor.pos < v.reach ∧ t.cursor.state = Style.identifier)
    (fun t => v.reach - t.cursor.pos) ?_ ?_ ⟨h, hin, hstate⟩ hremaining.1 hremaining.2
  . intro t t' ⟨ht, hlt, _⟩
    rw [goingOn?_eq ht hlt, ht.cursor.more hlt, ht.cursor.more' hlt]
  . intro t t' ⟨ht, hlt, hidentifier⟩ hmore
    rw [Bool.and_eq_true] at hmore
    obtain ⟨style, hgoing⟩ := Option.isSome_iff_exists.mp hmore.2
    obtain ⟨hgo, hcursor, hlt', _⟩ := ht.goOn hlt hidentifier hgoing
    have hwidth := ht.cursor.settled.width_pos
    rw [hcursor]
    refine ⟨⟨hgo, hlt', (state_forward hmore.1).trans hidentifier⟩, ?_⟩
    rw [pos_forward hmore.1]
    omega

theorem Near.leaveIdentifier (hrel : v.Closed Haskell.loose rel) (h : Near v rel s s') (hin : s.cursor.pos < v.reach)
    (hstate : s.cursor.state = Style.identifier) (settings : Settings) :
    Left v rel s (s.leaveIdentifier settings) (s'.leaveIdentifier settings) := by
  obtain ⟨hskip, hlt, hidentifier⟩ := h.skipName hin hstate settings.magicHash
  have hloose : Haskell.loose (s.skipName settings.magicHash).cursor.state = false := by
    rw [hidentifier]
    rfl
  have hweight : s.weight = 1 := by
    rw [weight, hstate]
    rfl
  unfold Scan.leaveIdentifier
  generalize s.skipName settings.magicHash = t at *
  generalize s'.skipName settings.magicHash = t' at *
  dsimp only
  rw [hskip.memory, hskip.cursor.token hrel hloose]
  generalize hfound : classify settings t.memory.mode
    (if t.memory.extra < 256 then UInt8.ofNat t.memory.extra else Style.identifier) (t.cursor.token 99) = found
  have hset := (hskip.cursor.changeState hrel hloose found.1).setState hrel Style.default
  have hmove := hskip.move hset (Nat.le_refl _) (show isToken Style.default = true from rfl)
    (show Style.default ≠ Style.operator by decide) (fun _ => hskip.small (by rw [hidentifier]; decide))
  exact .of_inner (hmove.withMemory ⟨modeAfter t.memory.mode found.2 (t.cursor.token 99), 0⟩
    (fun _ => (by decide : (0 : Nat) < 1 <<< 27))) hlt
    (.inr (.inr ⟨rfl, fun _ => hweight⟩))

theorem Near.leaveCommentLine (hrel : v.Closed Haskell.loose rel) (h : Near v rel s s') (hin : s.cursor.pos < v.reach)
    (hstate : s.cursor.state = Style.commentLine) : Left v rel s s.leaveCommentLine s'.leaveCommentLine := by
  have hblock : s.cursor.state ≠ Style.commentBlock := by
    rw [hstate]
    decide
  have hoperator : s.cursor.state ≠ Style.operator := by
    rw [hstate]
    decide
  unfold Scan.leaveCommentLine
  dsimp only
  rw [h.memory, h.cursor.sees hin, h.cursor.cur hin, h.cursor.atLineEnd hin]
  split
  . next hfirst =>
    rw [Bool.and_eq_true, beq_iff_eq] at hfirst
    have hweight : s.weight = 1 := by
      rw [weight, hstate, hfirst.1]
      rfl
    have hextra := h.withExtra 0 (fun _ => by decide)
    split
    . next hsign =>
      refine .of_inner ?_ hin (.inr (.inl ?_))
      . exact
          { cursor := h.cursor.changeState hrel (by rw [hstate]; rfl) Style.operator
            memory := hextra.memory
            pending := h.pending
            first_le := h.first_le
            pending_le := h.pending_le
            token := rfl
            sign := fun _ => hsign
            small := fun _ => by
              show 0 < _
              decide }
      . rw [hweight]
        exact Nat.zero_lt_one
    . refine .of_inner hextra hin (.inr (.inl ?_))
      have : (s.withExtra 0).weight = 0 := by
        show (if s.cursor.state == Style.operator || (s.cursor.state == Style.commentLine && (0 : Nat) != 1) then 0 else 1) = 0
        rw [hstate]
        rfl
      omega
  . split
    . next hend =>
      refine .of_inner (h.setState hrel hblock (show isToken Style.default = true from rfl) (by decide)) hin
        (.inr (.inr ⟨rfl, fun hsign => ?_⟩))
      rw [h.cursor.settled.atLineEnd_of_isInner (isInner_of_isOperatorSign hsign)] at hend
      cases hend
    . next hend =>
      obtain ⟨hpass, hlt, hpos⟩ := h.pass hin (Bool.eq_false_iff.mpr hend) hoperator
      exact .of_inner hpass hlt (.inl hpos)

theorem Near.leaveCommentBlock (hrel : v.Closed Haskell.loose rel) (h : Near v rel s s') (hin : s.cursor.pos < v.reach)
    (hstate : s.cursor.state = Style.commentBlock) : Left v rel s s.leaveCommentBlock s'.leaveCommentBlock := by
  have hoperator : s.cursor.state ≠ Style.operator := by
    rw [hstate]
    decide
  have hblock : (s.cursor.forwardBy 2).state = Style.commentBlock := (state_forwardBy _ _).trans hstate
  unfold Scan.leaveCommentBlock
  dsimp only
  rw [h.memory, h.cursor.seesPair hin (x := '\x7b') (by decide), h.cursor.seesPair hin (x := '-') (by decide)]
  split
  . next hopen =>
    obtain ⟨hpass, hlt, hpos⟩ := h.passBy hin 2 (by decide)
      (h.cursor.settled.isInner_of_seesPair (x := '\x7b') (y := '-') (by decide) (by decide) hopen) hoperator
    exact .of_inner (hpass.withExtra _ fun hne => absurd hblock hne) hlt (.inl hpos)
  . split
    . next hclose =>
      obtain ⟨hpass, hlt, hpos⟩ := h.passBy hin 2 (by decide)
        (h.cursor.settled.isInner_of_seesPair (x := '-') (y := '\x7d') (by decide) (by decide) hclose) hoperator
      have hextra := hpass.withExtra (s.memory.extra - 1) fun hne => absurd hblock hne
      split
      . next hzero =>
        rw [beq_iff_eq] at hzero
        refine .of_inner (hextra.move (hpass.cursor.setState hrel Style.default) (Nat.le_refl _)
          (show isToken Style.default = true from rfl) (show Style.default ≠ Style.operator by decide) (fun _ => ?_)) hlt (.inl hpos)
        show s.memory.extra - 1 < _
        rw [hzero]
        decide
      . exact .of_inner hextra hlt (.inl hpos)
    . refine .of_went (h.forward hin (by rw [hstate]; rfl)) ?_
      show s.cursor.forward.state ≠ _
      rw [state_forward (h.cursor.more hin), hstate]
      decide

theorem Near.leavePragma (hrel : v.Closed Haskell.loose rel) (h : Near v rel s s') (hin : s.cursor.pos < v.reach)
    (hstate : s.cursor.state = Style.pragma) :
    Left v rel s
      (s.withCursor (if s.cursor.seesText "#-\x7d" then (s.cursor.forwardBy 3).setState Style.default else s.cursor.forward))
      (s'.withCursor
        (if s'.cursor.seesText "#-\x7d" then (s'.cursor.forwardBy 3).setState Style.default else s'.cursor.forward)) := by
  have hoperator : s.cursor.state ≠ Style.operator := by
    rw [hstate]
    decide
  have hinner : (Utf8.encode "#-\x7d").all (Code.isInner ·.toNat) = true := by decide
  rw [h.cursor.seesText hin hinner]
  split
  . next hclose =>
    obtain ⟨hpass, hlt, hpos⟩ := h.passBy hin 3 (by decide) (isInner_of_seesText h.cursor.settled hinner hclose) hoperator
    refine .of_inner (hpass.setState hrel ?_ (show isToken Style.default = true from rfl) (by decide)) hlt (.inl hpos)
    rw [withCursor, state_forwardBy, hstate]
    decide
  . refine .of_went (h.forward hin (by rw [hstate]; rfl)) ?_
    show s.cursor.forward.state ≠ _
    rw [state_forward (h.cursor.more hin), hstate]
    decide

theorem Near.leavePreprocessor (hrel : v.Closed Haskell.loose rel) (h : Near v rel s s') (hin : s.cursor.pos < v.reach)
    (hstate : s.cursor.state = Style.preprocessor) (within : Bool) :
    Left v rel s (s.withCursor (leavePreprocessor within s.cursor)) (s'.withCursor (leavePreprocessor within s'.cursor)) := by
  have hblock : s.cursor.state ≠ Style.commentBlock := by
    rw [hstate]
    decide
  have hoperator : s.cursor.state ≠ Style.operator := by
    rw [hstate]
    decide
  have hweight : s.weight = 1 := by
    rw [weight, hstate]
    rfl
  have hset : Left v rel s (s.withCursor (s.cursor.setState Style.default)) (s'.withCursor (s'.cursor.setState Style.default)) :=
    .of_inner (h.setState hrel hblock rfl (by decide)) hin (.inr (.inr ⟨rfl, fun _ => hweight⟩))
  unfold Haskell.Scan.leavePreprocessor
  rw [h.cursor.cur hin, h.cursor.atLineEnd hin]
  split
  . exact hset
  . split
    . next hcontinue =>
      rw [Bool.and_eq_true] at hcontinue
      obtain ⟨hpass, hlt, _⟩ := h.pass hin
        (h.cursor.settled.atLineEnd_of_isInner (Code.isInner_of_eq (by decide) hcontinue.1)) hoperator
      have hpreprocessor : s.cursor.forward.state = Style.preprocessor := (state_forward (h.cursor.more hin)).trans hstate
      refine .of_went (hpass.forward hlt (by rw [withCursor, hpreprocessor]; rfl)) ?_
      show (s.cursor.forwardBy 2).state ≠ _
      rw [state_forwardBy, hstate]
      decide
    . split
      . exact hset
      . next hend =>
        obtain ⟨hpass, hlt, hpos⟩ := h.pass hin (Bool.eq_false_iff.mpr hend) hoperator
        exact .of_inner hpass hlt (.inl hpos)

theorem Near.leave (hrel : v.Closed Haskell.loose rel) (h : Near v rel s s') (hin : s.cursor.pos < v.reach)
    (settings : Settings) : Left v rel s (s.leave settings) (s'.leave settings) := by
  unfold Scan.leave
  dsimp only
  rw [h.cursor.state]
  split
  . next hstate => exact h.leaveOperator hrel hin hstate
  . next hstate => exact h.leaveQuoted hrel hin (.inl hstate) (by decide)
  . next hstate => exact h.leaveQuoted hrel hin (.inr hstate) (by decide)
  . next hstate =>
    rw [h.memory]
    exact h.leaveNumber hrel hin hstate _
  . next hstate => exact h.leaveIdentifier hrel hin hstate settings
  . next hstate => exact h.leaveCommentLine hrel hin hstate
  . next hstate => exact h.leaveCommentBlock hrel hin hstate
  . next hstate => exact h.leavePragma hrel hin hstate
  . next hstate => exact h.leavePreprocessor hrel hin hstate _
  . next hoperator hstring hcharacter hnumber hidentifier hline hblock hpragma hpreprocessor =>
    have hdefault : s.cursor.state = Style.default := by
      have htoken := h.token
      simp only [isToken, Haskell.loose, Bool.or_eq_true, beq_iff_eq] at htoken
      rcases htoken with ((((((((htoken | htoken) | htoken) | htoken) | htoken) | htoken) | htoken) | htoken) | htoken) | htoken
      . exact htoken
      . exact absurd htoken hstring
      . exact absurd htoken hcharacter
      . exact absurd htoken hblock
      . exact absurd htoken hpragma
      . exact absurd htoken hpreprocessor
      . exact absurd htoken hoperator
      . exact absurd htoken hnumber
      . exact absurd htoken hidentifier
      . exact absurd htoken hline
    refine .of_inner h hin (.inr (.inr ⟨hdefault, fun _ => ?_⟩))
    rw [weight, hdefault]
    rfl

/--
What two alike scans come to outside of a token: they move, if not to an operator.
-/
structure Entered (v : View) (rel : Style → Pen → Pen → Prop) (s r r' : Scan) : Prop where
  went : Went v rel r r'
  moved : v.start < r.cursor.pos ∨ (isOperatorSign s.cursor.cur = true ∧ r.weight = 0 ∧ r.cursor.pos = s.cursor.pos)

namespace Entered

theorem of_inner (h : Near v rel r r') (hin : r.cursor.pos < v.reach) (hpos : v.start < r.cursor.pos) :
    Entered v rel s r r' :=
  ⟨h.of_inner hin, .inl hpos⟩

theorem ite {p : Prop} [Decidable p] {a a' b b' : Scan} (ha : p → Entered v rel s a a') (hb : ¬ p → Entered v rel s b b') :
    Entered v rel s (if p then a else b) (if p then a' else b') := by
  split
  . next h => exact ha h
  . next h => exact hb h

end Entered

/--
Outside of a token any other one can begin.
-/
theorem Near.begin (hrel : v.Closed Haskell.loose rel) (h : Near v rel s s') (hstate : s.cursor.state = Style.default)
    {style : Style} (htoken : isToken style = true) (hoperator : style ≠ Style.operator) :
    Near v rel (s.withCursor (s.cursor.setState style)) (s'.withCursor (s'.cursor.setState style)) :=
  h.setState hrel (by rw [hstate]; decide) htoken hoperator

/--
Outside of a token, another one can begin with a character inside of a line.
-/
theorem Near.beginPass (hrel : v.Closed Haskell.loose rel) (h : Near v rel s s') (hin : s.cursor.pos < v.reach)
    (hstate : s.cursor.state = Style.default) (hcur : s.cursor.cur.isInner = true) {style : Style} (htoken : isToken style = true)
    (hoperator : style ≠ Style.operator) :
    Near v rel (s.withCursor (s.cursor.setState style).forward) (s'.withCursor (s'.cursor.setState style).forward)
      ∧ (s.cursor.setState style).forward.pos < v.reach ∧ v.start < (s.cursor.setState style).forward.pos :=
  (h.begin hrel hstate htoken hoperator).pass hin (h.cursor.settled.atLineEnd_of_isInner hcur) hoperator

/--
Outside of a token, another one can begin with `count` bytes inside of a line.
-/
theorem Near.beginPassBy (hrel : v.Closed Haskell.loose rel) (h : Near v rel s s') (hin : s.cursor.pos < v.reach)
    (hstate : s.cursor.state = Style.default) (count : Nat) (hcount : 0 < count)
    (hbytes : ∀ i, i < count → Code.isInner (s.cursor.doc.byteAt (s.cursor.pos + i) 0).toNat = true) {style : Style}
    (htoken : isToken style = true) (hoperator : style ≠ Style.operator) :
    Near v rel (s.withCursor ((s.cursor.setState style).forwardBy count)) (s'.withCursor ((s'.cursor.setState style).forwardBy count))
      ∧ ((s.cursor.setState style).forwardBy count).pos < v.reach ∧ v.start < ((s.cursor.setState style).forwardBy count).pos := by
  refine (h.begin hrel hstate htoken hoperator).passBy hin count hcount ?_ hoperator
  intro i hi
  have htext : (s.cursor.setState style).doc.text = s.cursor.doc.text := (sameSource_colourTo _ _ _).text
  show Code.isInner ((s.cursor.setState style).doc.byteAt (s.cursor.pos + i) 0).toNat = true
  rw [Document.byteAt, htext]
  exact hbytes i hi

/--
Behind the first characters of a number, its base is known.
-/
theorem Near.enterBase (h : Near v rel r r') (hin : r.cursor.pos < v.reach) (hstate : r.cursor.state = Style.number)
    (hcur : r.cursor.cur.isInner = true) (count : Nat) (hcount : count = 2 → r.cursor.next.isInner = true)
    (hle : count = 1 ∨ count = 2) {base : Nat} (hbase : base < 1 <<< 27) :
    Entered v rel s (((r.withCursor (r.cursor.forwardBy count)).withExtra base).withMode .plain)
      (((r'.withCursor (r'.cursor.forwardBy count)).withExtra base).withMode .plain) := by
  have hbytes : ∀ i, i < count → Code.isInner (r.cursor.doc.byteAt (r.cursor.pos + i) 0).toNat = true := by
    rcases hle with rfl | rfl
    . intro i hi
      obtain rfl := Nat.lt_one_iff.mp hi
      rw [Nat.add_zero, (h.cursor.settled.byte_of_isInner hcur).1]
      exact hcur
    . exact h.cursor.settled.isInner_pair hcur (hcount rfl)
  obtain ⟨hpass, hlt, hpos⟩ := h.passBy hin count (by omega) hbytes (by rw [hstate]; decide)
  exact .of_inner ((hpass.withExtra base fun _ => hbase).withMode .plain) hlt hpos

theorem Near.startNumber (hrel : v.Closed Haskell.loose rel) (h : Near v rel s s') (hin : s.cursor.pos < v.reach)
    (hstate : s.cursor.state = Style.default) (hdigit : s.cursor.cur.isDigit = true) :
    Entered v rel s s.startNumber s'.startNumber := by
  have hbegin := h.begin hrel hstate (show isToken Style.number = true from rfl) (by decide)
  have hcur := Code.isInner_of_isDigit hdigit
  have hnext : ∀ x : String, x.toList.all (fun y => Code.isInner y.toNat) = true → s.cursor.next.isOneOf x = true →
      s.cursor.next.isInner = true := fun _ => Code.isInner_of_isOneOf
  unfold Scan.startNumber
  dsimp only
  rw [show (s'.cursor.setState Style.number).sees '0' = (s.cursor.setState Style.number).sees '0' from h.cursor.sees hin '0',
    show (s'.cursor.setState Style.number).next = (s.cursor.setState Style.number).next from h.cursor.next_of_isInner hin hcur]
  split
  . next hhex =>
    have hhex := hnext "xX" (by decide) (Bool.and_eq_true _ _ ▸ hhex).2
    exact hbegin.enterBase hin rfl hcur 2 (fun _ => hhex) (.inr rfl) (by decide)
  . split
    . next hoctal =>
      have hoctal := hnext "oO" (by decide) (Bool.and_eq_true _ _ ▸ hoctal).2
      exact hbegin.enterBase hin rfl hcur 2 (fun _ => hoctal) (.inr rfl) (by decide)
    . exact hbegin.enterBase hin rfl hcur 1 nofun (.inl rfl) (by decide)

/--
An operator starts without the pass going over its sign.
-/
theorem Near.startOperator (hrel : v.Closed Haskell.loose rel) (h : Near v rel s s') (hin : s.cursor.pos < v.reach)
    (hstate : s.cursor.state = Style.default) (hsign : isOperatorSign s.cursor.cur = true) :
    Entered v rel s ((s.withCursor (s.cursor.setState Style.operator)).withMode .plain)
      ((s'.withCursor (s'.cursor.setState Style.operator)).withMode .plain) := by
  have hnear : Near v rel (s.withCursor (s.cursor.setState Style.operator)) (s'.withCursor (s'.cursor.setState Style.operator)) :=
    { cursor := h.cursor.setState hrel Style.operator
      memory := h.memory
      pending := h.pending
      first_le := h.first_le
      pending_le := h.pending_le
      token := rfl
      sign := fun _ => hsign
      small := fun _ => h.small (by rw [hstate]; decide) }
  exact ⟨(hnear.withMode .plain).of_inner hin, .inr ⟨hsign, rfl, rfl⟩⟩

/--
A sign that no other one can follow in an operator is over at once.
-/
theorem Near.startPunctuation (hrel : v.Closed Haskell.loose rel) (h : Near v rel s s') (hin : s.cursor.pos < v.reach)
    (hstate : s.cursor.state = Style.default) (hpunctuation : isPunctuation s.cursor.cur = true) :
    Entered v rel s (s.withCursor ((s.cursor.setState Style.operator).forward.setState Style.default))
      (s'.withCursor ((s'.cursor.setState Style.operator).forward.setState Style.default)) := by
  have hset := h.cursor.setState hrel Style.operator
  have hcur : (s.cursor.setState Style.operator).cur.isInner = true := isInner_of_isPunctuation hpunctuation
  have hstart := h.cursor.start_le
  have hwidth := h.cursor.settled.width_pos
  refine .of_inner (h.move ((hset.forward hin).setState hrel Style.default) (line_le_forward (s.cursor.setState Style.operator))
    rfl (show Style.default ≠ Style.operator by decide) (fun _ => h.small (by rw [hstate]; decide)))
    (hset.forward_inner hin hcur) ?_
  show v.start < (s.cursor.setState Style.operator).forward.pos
  rw [pos_forward (hset.more hin)]
  show v.start < s.cursor.pos + s.cursor.width
  omega

theorem Near.start (hrel : v.Closed Haskell.loose rel) (h : Near v rel s s') (hin : s.cursor.pos < v.reach)
    (hstate : s.cursor.state = Style.default) : Entered v rel s s.start s'.start := by
  have hpass := h.beginPass hrel hin hstate
  have hpassBy := h.beginPassBy hrel hin hstate
  have hinner : (Utf8.encode "\x7b-#").all (Code.isInner ·.toNat) = true := by decide
  unfold Scan.start
  dsimp only
  rw [h.cursor.cur hin, h.cursor.seesText hin hinner, h.cursor.seesPair hin (x := '-') (by decide),
    h.cursor.seesPair hin (x := '\x7b') (by decide), h.cursor.atLineStart hin, h.cursor.sees hin]
  refine .ite (h.startNumber hrel hin hstate) fun _ => ?_
  refine .ite (fun hpragma => ?_) fun _ => ?_
  . obtain ⟨hpass, hlt, hpos⟩ := hpassBy 3 (by decide) (isInner_of_seesText h.cursor.settled hinner hpragma)
      (show isToken Style.pragma = true from rfl) (by decide)
    exact .of_inner hpass hlt hpos
  refine .ite (fun hline => ?_) fun _ => ?_
  . obtain ⟨hpass, hlt, hpos⟩ := hpassBy 2 (by decide) (h.cursor.settled.isInner_of_seesPair (by decide) (by decide) hline)
      (show isToken Style.commentLine = true from rfl) (by decide)
    exact .of_inner (hpass.withExtra 1 fun _ => by decide) hlt hpos
  refine .ite (fun hblock => ?_) fun _ => ?_
  . obtain ⟨hpass, hlt, hpos⟩ := hpassBy 2 (by decide) (h.cursor.settled.isInner_of_seesPair (by decide) (by decide) hblock)
      (show isToken Style.commentBlock = true from rfl) (by decide)
    exact .of_inner (hpass.withExtra 1 fun _ => by decide) hlt hpos
  refine .ite (fun hquote => ?_) fun _ => ?_
  . obtain ⟨hpass, hlt, hpos⟩ := hpass (Code.isInner_of_eq (by decide) hquote) (show isToken Style.string = true from rfl)
      (by decide)
    exact .of_inner hpass hlt hpos
  refine .ite (fun hquote => ?_) fun _ => ?_
  . obtain ⟨hpass, hlt, hpos⟩ := hpass (Code.isInner_of_eq (by decide) hquote) (show isToken Style.character = true from rfl)
      (by decide)
    exact .of_inner hpass hlt hpos
  refine .ite (fun hdirective => ?_) fun _ => ?_
  . obtain ⟨hpass, hlt, hpos⟩ := hpass (isInner_of_sees (by decide) (Bool.and_eq_true _ _ ▸ hdirective).2)
      (show isToken Style.preprocessor = true from rfl) (by decide)
    exact .of_inner (hpass.withMode .plain) hlt hpos
  refine .ite (fun hsign => ?_) fun _ => ?_
  . exact h.startOperator hrel hin hstate hsign
  refine .ite (fun hpunctuation => ?_) fun _ => ?_
  . exact h.startPunctuation hrel hin hstate hpunctuation
  refine .ite (fun hword => ?_) fun _ => ?_
  . obtain ⟨hpass, hlt, hpos⟩ := hpass (isInner_of_isWordStart hword) (show isToken Style.identifier = true from rfl) (by decide)
    refine .of_inner (hpass.withExtra _ fun _ => ?_) hlt hpos
    split <;> decide
  . obtain ⟨hwent, hpos⟩ := h.forward hin (by rw [hstate]; rfl)
    exact ⟨hwent, .inl hpos⟩

/--
A step: the token goes on or ends, and where none is open one begins. The cursor moves, or less is left to
do in front of its character.
-/
theorem Near.step (hrel : v.Closed Haskell.loose rel) (h : Near v rel s s') (hin : s.cursor.pos < v.reach)
    (settings : Settings) :
    Went v rel ((s.leave settings).enter) ((s'.leave settings).enter)
      ∧ (v.start < ((s.leave settings).enter).cursor.pos ∨ ((s.leave settings).enter).weight < s.weight) := by
  have hleft := h.leave hrel hin settings
  generalize s.leave settings = r at *
  generalize s'.leave settings = r' at *
  unfold enter
  rw [hleft.went.near.cursor.state]
  split
  . next hdefault =>
    rw [beq_iff_eq] at hdefault
    have hlt := hleft.lt_reach hdefault
    have hentered := hleft.went.near.start hrel hlt hdefault
    refine ⟨hentered.went, ?_⟩
    rcases hentered.moved with hpos | ⟨hsign, hweight, hat⟩
    . exact .inl hpos
    . rcases hleft.progress with hpos | hless | ⟨_, hone⟩
      . exact .inl (Nat.lt_of_lt_of_eq hpos hat.symm)
      . have : r.weight = 1 := by
          rw [weight, hdefault]
          rfl
        have : s.weight ≤ 1 := by
          unfold weight
          split <;> decide
        omega
      . right
        rw [hweight, hone hsign]
        exact Nat.zero_lt_one
  . next hopen =>
    refine ⟨hleft.went, ?_⟩
    rcases hleft.progress with hpos | hless | ⟨hdefault, _⟩
    . exact .inl hpos
    . exact .inr hless
    . rw [hdefault] at hopen
      exact absurd rfl hopen

end Scan

end Highlight.Haskell
