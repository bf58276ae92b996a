import Highlight.Proofs.Cursor.Sight
import Highlight.Proofs.Gibiane.Word

/-!
The steps of Gibiane depend on nothing but what a cursor sees, the character in front of it and the word that
ends there. Where a line starts, only a string can be open, and it is no keyword any more.
-/

namespace Highlight

/--
The character in front of the line start `pos`.
-/
def Document.lead (doc : Document) (pos : Nat) : Code :=
  if 0 < pos then (doc.byteAt (pos - 1) 0).toNat else 0

theorem Document.SameSource.lead {doc doc' : Document} (h : doc.SameSource doc') (pos : Nat) : doc'.lead pos = doc.lead pos := by
  rw [Document.lead, Document.lead, Document.byteAt, Document.byteAt, h.text]

namespace Gibiane

open Cursor

variable {v : View} {rel : Style → Pen → Pen → Prop} {keywords : Keywords} {c c' : Cursor} {token token' : String}

/--
The tokens that can be open at a line start.
-/
def loose (style : Style) : Bool :=
  style == Style.default || style == Style.string

/--
The tokens that can be open between two steps.
-/
def isToken (style : Style) : Bool :=
  loose style || style == Style.comment || style == Style.number

theorem isToken_cases {style : Style} (h : isToken style = true) :
    style = Style.default ∨ style = Style.string ∨ style = Style.comment ∨ style = Style.number := by
  simp only [isToken, loose, Bool.or_eq_true, beq_iff_eq] at h
  rcases h with ((h | h) | h) | h
  . exact .inl h
  . exact .inr (.inl h)
  . exact .inr (.inr (.inl h))
  . exact .inr (.inr (.inr h))

theorem isInner_of_isQuote {x : Code} (h : isQuote x = true) : x.isInner = true :=
  Code.isInner_of_eq (by decide) h

/--
No byte of the text in front of the cursor is left to paint.
-/
def Fresh (c : Cursor) : Prop :=
  min c.pos c.doc.size ≤ c.pen.segment

theorem colourTo_of_fresh (h : Fresh c) (style : Style) : c.pen.colourTo c.pos style = c.pen := by
  unfold Pen.colourTo
  exact if_neg (Nat.not_lt_of_le h)

theorem fresh_setState (c : Cursor) (style : Style) : Fresh (c.setState style) := by
  show min c.pos (c.pen.colourTo c.pos c.state).doc.size ≤ (c.pen.colourTo c.pos c.state).segment
  rw [(sameSource_colourTo _ _ _).size, Pen.segment_colourTo]
  exact Nat.le_max_right _ _

/--
A word without letters can have any style.
-/
theorem setState_changeState_of_fresh (h : Fresh c) (style style' : Style) :
    (c.changeState style).setState style' = c.setState style' := by
  show { c with pen := c.pen.colourTo c.pos style, state := style' } = { c with pen := c.pen.colourTo c.pos c.state, state := style' }
  rw [colourTo_of_fresh h, colourTo_of_fresh h]

namespace Scan

variable {s s' : Scan}

theorem leave_default (keywords : Keywords) (token : String) (h : c.state = Style.default) :
    leave keywords token c = if startsWithSeparator token then c.setState Style.default else c := by
  unfold leave
  rw [h]
  rfl

theorem leave_string (keywords : Keywords) (token : String) (h : c.state = Style.string) :
    leave keywords token c
      = if isQuote c.cur then
          (c.forward.changeState ((quotedStyle? keywords token).getD Style.string)).setState Style.default
        else c := by
  unfold leave
  rw [h]
  rfl

/--
A word that ends with its first character is left behind it.
-/
theorem leave_of_ended (keywords : Keywords) (h : c.state = Style.default) (hended : Ended c) :
    leave keywords (c.tokenLower 99) c = c.setState Style.default := by
  rw [leave_default keywords _ h]
  split
  . rfl
  . next hopen =>
    have hfresh : Fresh c := by
      apply Nat.le_trans (Nat.min_le_left _ _)
      apply Nat.le_of_not_lt
      exact fun hlt => hopen (startsWithSeparator_of_ended hended hlt)
    show c = { c with pen := c.pen.colourTo c.pos c.state, state := Style.default }
    rw [colourTo_of_fresh hfresh, ← h]

/--
Whether a star would make the rest of the line a comment.
-/
def behindLineEnd (s : Scan) : Bool :=
  s.cursor.prev.isLineEnd || s.cursor.pos == s.first

/--
Two scans in a step, in which the open token has been left if it ends.
-/
structure Left (v : View) (rel : Style → Pen → Pen → Prop) (token token' : String) (s s' : Scan) : Prop where
  cursor : s.cursor.Alike v rel s'.cursor
  lt_reach : s.cursor.pos < v.reach
  first_le : s.first ≤ s.cursor.pos
  first_le' : s'.first ≤ s'.cursor.pos
  prev : s'.cursor.prev = s.cursor.prev
  behindLineEnd : s'.behindLineEnd = s.behindLineEnd
  state : s.cursor.state = Style.default ∨ s.cursor.state = Style.comment ∨ s.cursor.state = Style.string
  goesOver : s.cursor.atLineEnd = true → loose s.cursor.state = true
  number : s.cursor.state = Style.default →
    s'.inNumber = s.inNumber ∨ s.cursor.prev.isDigit = false ∨ s.cursor.cur.isInner = false
  tight : s.cursor.state = Style.default → ∀ style, rel style s.cursor.pen s'.cursor.pen
  word : s.cursor.state = Style.default → token' = token ∨ Fresh s.cursor ∧ Fresh s'.cursor
  carried : s.cursor.state = Style.string → (∀ style, rel style s.cursor.pen s'.cursor.pen)
    ∨ Carried s.cursor ∧ Carried s'.cursor ∧ isQuote s.cursor.cur = false

/--
Two scans in a step, in front of the last thing that it does, which is to go forward.
-/
structure Entered (v : View) (rel : Style → Pen → Pen → Prop) (s s' : Scan) : Prop where
  cursor : s.cursor.Alike v rel s'.cursor
  lt_reach : s.cursor.pos < v.reach
  first_le : s.first ≤ s.cursor.pos
  first_le' : s'.first ≤ s'.cursor.pos
  token : isToken s.cursor.state = true
  goesOver : s.cursor.atLineEnd = true → loose s.cursor.state = true
  number : s'.inNumber = s.inNumber ∨ s.cursor.state = Style.comment ∨ s.cursor.state = Style.string
  tight : s.cursor.state = Style.default → ∀ style, rel style s.cursor.pen s'.cursor.pen
  carried : s.cursor.state = Style.string → (∀ style, rel style s.cursor.pen s'.cursor.pen)
    ∨ Carried s.cursor ∧ Carried s'.cursor ∧ isQuote s.cursor.cur = false

theorem seesNumber_eq (h : s.cursor.Alike v rel s'.cursor) (hin : s.cursor.pos < v.reach) (hprev : s'.cursor.prev = s.cursor.prev)
    (hnumber : s'.inNumber = s.inNumber ∨ s.cursor.prev.isDigit = false ∨ s.cursor.cur.isInner = false) :
    s'.seesNumber = s.seesNumber := by
  unfold seesNumber
  dsimp only
  rw [h.cur hin, h.sees hin, hprev]
  by_cases hinner : s.cursor.cur.isInner = true
  . rw [h.next_of_isInner hin hinner]
    rcases hnumber with heq | hdigit | houter
    . rw [heq]
    . rw [hdigit, Bool.false_and, Bool.false_and]
    . rw [hinner] at houter
      cases houter
  . have hdigit : s.cursor.cur.isDigit = false := by
      rw [Bool.eq_false_iff]
      exact fun hdigit => hinner (Code.isInner_of_isDigit hdigit)
    have hpoint : s.cursor.sees '.' = false := by
      rw [Bool.eq_false_iff]
      exact fun hpoint => hinner (isInner_of_sees (by decide) hpoint)
    rw [hdigit, hpoint, Bool.false_and, Bool.false_and, Bool.false_or, Bool.false_and, Bool.false_and, Bool.false_and,
      Bool.false_and]

theorem isInner_of_seesNumber (h : s.seesNumber = true) : s.cursor.cur.isInner = true := by
  unfold seesNumber at h
  simp only [Bool.and_eq_true, Bool.or_eq_true] at h
  rcases h.1.1 with hdigit | ⟨hpoint, _⟩
  . exact Code.isInner_of_isDigit hdigit
  . exact isInner_of_sees (by decide) hpoint

namespace Left

/--
A token begins at a character that ends no line.
-/
theorem setState (hrel : v.Closed loose rel) (h : Left v rel token token' s s') {style : Style} (hstyle : isToken style = true)
    (hdefault : style ≠ Style.default) (hinner : s.cursor.cur.isInner = true) {inNumber inNumber' : Bool}
    (hnumber : inNumber' = inNumber ∨ style = Style.comment ∨ style = Style.string) :
    Entered v rel { s with cursor := s.cursor.setState style, inNumber }
      { s' with cursor := s'.cursor.setState style, inNumber := inNumber' } where
  cursor := h.cursor.setState hrel style
  lt_reach := h.lt_reach
  first_le := h.first_le
  first_le' := h.first_le'
  token := hstyle
  goesOver := by
    intro hend
    have hend : s.cursor.atLineEnd = true := hend
    rw [h.cursor.settled.atLineEnd_of_isInner hinner] at hend
    cases hend
  number := hnumber
  tight := fun heq => absurd heq hdefault
  carried := fun _ => .inl fun style' => (h.cursor.setState hrel style').pen

/--
A word ends in front of a character between words.
-/
theorem endWord (hrel : v.Closed loose rel) (h : Left v rel token token' s s') (hstate : s.cursor.state = Style.default)
    {f : String → Style} (inNumber : Bool) :
    Entered v rel { s with cursor := (s.cursor.changeState (f token)).setState Style.default, inNumber }
      { s' with cursor := (s'.cursor.changeState (f token')).setState Style.default, inNumber } := by
  have htight : View.Closed v (fun _ => false) (Pen.Tight rel) := hrel.tight (show loose Style.comment = false from rfl)
  have hcursor : Cursor.Alike v (Pen.Tight rel) ((s.cursor.changeState (f token)).setState Style.default)
      ((s'.cursor.changeState (f token')).setState Style.default) := by
    have halike := h.cursor.tight (h.tight hstate)
    rcases h.word hstate with heq | ⟨hfresh, hfresh'⟩
    . rw [heq]
      exact (halike.changeState htight rfl (f token)).setState htight Style.default
    . rw [setState_changeState_of_fresh hfresh, setState_changeState_of_fresh hfresh']
      exact halike.setState htight Style.default
  exact
    { cursor := hcursor.loosen
      lt_reach := h.lt_reach
      first_le := h.first_le
      first_le' := h.first_le'
      token := rfl
      goesOver := fun _ => rfl
      number := .inl rfl
      tight := fun _ => hcursor.pen
      carried := nofun }

theorem enter (hrel : v.Closed loose rel) (h : Left v rel token token' s s') (keywords : Keywords) :
    Entered v rel (s.enter keywords token) (s'.enter keywords token') := by
  have hbehind : (s'.cursor.prev.isLineEnd || s'.cursor.pos == s'.first) = (s.cursor.prev.isLineEnd || s.cursor.pos == s.first) :=
    h.behindLineEnd
  unfold Scan.enter
  dsimp only
  rw [h.cursor.state, h.cursor.sees h.lt_reach, hbehind, h.cursor.cur h.lt_reach, h.cursor.sees h.lt_reach]
  split
  . next hstate =>
    have hstate : s.cursor.state ≠ Style.default := bne_iff_ne.mp hstate
    exact
      { cursor := h.cursor
        lt_reach := h.lt_reach
        first_le := h.first_le
        first_le' := h.first_le'
        token := by
          rcases h.state with heq | heq | heq <;> rw [heq] <;> rfl
        goesOver := h.goesOver
        number := .inr (h.state.resolve_left hstate)
        tight := fun heq => absurd heq hstate
        carried := h.carried }
  . next hstate =>
    have hstate : s.cursor.state = Style.default := by simpa using hstate
    split
    . next hstar =>
      rw [Bool.and_eq_true] at hstar
      exact h.setState hrel rfl (by decide) (isInner_of_sees (by decide) hstar.1) (.inr (.inl rfl))
    . split
      . next hquote => exact h.setState hrel rfl (by decide) (isInner_of_isQuote hquote) (.inr (.inr rfl))
      . rw [seesNumber_eq h.cursor h.lt_reach h.prev (h.number hstate)]
        split
        . next hnumber => exact h.setState hrel rfl (by decide) (isInner_of_seesNumber hnumber) (.inl rfl)
        . split
          . exact h.endWord hrel hstate (f := fun token => (wordStyle? keywords token).getD Style.default) _
          . split
            . exact h.endWord hrel hstate (f := fun _ => Style.table) _
            . exact
                { cursor := h.cursor
                  lt_reach := h.lt_reach
                  first_le := h.first_le
                  first_le' := h.first_le'
                  token := by
                    rw [hstate]
                    rfl
                  goesOver := h.goesOver
                  number := .inl rfl
                  tight := h.tight
                  carried := h.carried }

end Left

/--
What is so with a scan between two steps of a pass from `start` on. At a line start, the open token is a string
that goes on, or no letter of it has been read yet.
-/
structure Kept (start : Nat) (s : Scan) : Prop where
  first_le : s.first ≤ s.cursor.pos
  begun : s.cursor.pos = start ∨ s.cursor.pen.segment < s.cursor.pos
  loose : s.cursor.atLineStart = true → loose s.cursor.state = true
  ended : s.cursor.atLineStart = true → s.cursor.pos ≤ s.cursor.doc.size → s.cursor.state = Style.default → Ended s.cursor
  carried : s.cursor.atLineStart = true → s.cursor.pos ≤ s.cursor.doc.size → s.cursor.state = Style.string → Carried s.cursor
  prev : s.cursor.atLineStart = true → s.cursor.pos ≤ s.cursor.doc.size → s.cursor.prev = s.cursor.doc.lead s.cursor.pos

theorem cur_enter (s : Scan) (keywords : Keywords) (token : String) : (s.enter keywords token).cursor.cur = s.cursor.cur := by
  unfold Scan.enter
  dsimp only
  repeat' split
  all_goals rfl

/--
Between words, a step leaves nothing to paint.
-/
theorem fresh_enter (s : Scan) (keywords : Keywords) (token : String)
    (hseparator : isSeparator (s.enter keywords token).cursor.cur = true)
    (hstate : (s.enter keywords token).cursor.state = Style.default) : Fresh (s.enter keywords token).cursor := by
  rw [cur_enter] at hseparator
  unfold Scan.enter at *
  dsimp only at *
  split at hstate
  . next hopen => exact absurd hstate (bne_iff_ne.mp hopen)
  . next hopen =>
    rw [if_neg hopen]
    split at hstate
    . cases hstate
    . next hstar =>
      rw [if_neg hstar]
      split at hstate
      . cases hstate
      . next hquote =>
        rw [if_neg hquote]
        split at hstate
        . cases hstate
        . next hnumber =>
          rw [if_neg hnumber, if_pos hseparator]
          exact fresh_setState _ _

/--
The last character of a line is one byte, which ends the line.
-/
theorem exists_break (h : c.Settled) (hsingle : ∀ page, c.doc.encoding ≠ .doubleByte page) (hend : c.atLineEnd = true)
    (hsize : c.pos + c.width ≤ c.doc.size) :
    c.width = 1 ∧ ∃ b, c.doc.byteAt? c.pos = some b ∧ isBreak b = true ∧ c.cur = b.toNat := by
  have hwidth := h.width_pos
  rw [h.atLineEnd, Bool.or_eq_true, decide_eq_true_eq] at hend
  have hend := hend.resolve_right (by omega)
  rw [h.width_eq] at hend
  obtain ⟨b, hb, hread⟩ := Encoding.decodeAt_eq_of_endsLine c.doc.encoding hsingle hend
  have hone : c.width = 1 := by rw [h.width_eq, Document.decodeAt, hread]
  obtain ⟨b', hb', hbreak⟩ := LineIndex.ascii_of_endsLine hend
  rw [← h.width_eq, hone, Nat.add_sub_cancel, hb, Option.some_inj] at hb'
  subst hb'
  refine ⟨hone, b, hb, ?_, by rw [h.cur_eq, Document.decodeAt, hread]⟩
  rw [isBreak, Bool.or_eq_true, beq_iff_eq, beq_iff_eq]
  exact hbreak.imp UInt8.toNat_inj.mp UInt8.toNat_inj.mp

theorem kept_forward (h : s.cursor.Settled) (hmore : s.cursor.more = true) (hsingle : ∀ page, s.cursor.doc.encoding ≠ .doubleByte page)
    (hfirst : s.first ≤ s.cursor.pos) (hover : s.cursor.atLineEnd = true → loose s.cursor.state = true)
    (hfresh : isSeparator s.cursor.cur = true → s.cursor.state = Style.default → Fresh s.cursor) (start : Nat) :
    (s.withCursor s.cursor.forward).Kept start := by
  have hwidth := h.width_pos
  have hsegment := h.segment_le
  have hpos := pos_forward hmore
  have hpen := pen_forward hmore
  have hbreak : s.cursor.forward.atLineStart = true → s.cursor.forward.pos ≤ s.cursor.forward.doc.size →
      s.cursor.width = 1 ∧ ∃ b, s.cursor.doc.byteAt? s.cursor.pos = some b ∧ isBreak b = true ∧ s.cursor.cur = b.toNat := by
    intro hend hsize
    rw [atLineStart_forward hmore] at hend
    rw [Cursor.doc, hpen, hpos] at hsize
    exact exists_break h hsingle hend hsize
  refine
    { first_le := ?_
      begun := ?_
      loose := ?_
      ended := ?_
      carried := ?_
      prev := ?_ }
  . show s.first ≤ s.cursor.forward.pos
    omega
  . right
    show s.cursor.forward.pen.segment < s.cursor.forward.pos
    rw [hpen]
    omega
  . intro hend
    show Gibiane.loose s.cursor.forward.state = true
    rw [state_forward hmore]
    exact hover ((atLineStart_forward hmore).symm.trans hend)
  . intro hend hsize hstate _
    obtain ⟨hone, b, hb, hbreak, hcur⟩ := hbreak hend hsize
    have hseparator : isSeparator s.cursor.cur = true := by
      rw [isBreak, Bool.or_eq_true, beq_iff_eq, beq_iff_eq] at hbreak
      rw [hcur]
      rcases hbreak with rfl | rfl <;> decide
    have hfresh := hfresh hseparator ((state_forward hmore).symm.trans hstate)
    have hlt : s.cursor.pos < s.cursor.doc.size := (Array.getElem?_eq_some_iff.mp hb).1
    have hat : s.cursor.pen.segment = s.cursor.pos := by
      unfold Fresh at hfresh
      omega
    refine ⟨b, ?_, hbreak⟩
    show s.cursor.forward.pen.doc.byteAt? s.cursor.forward.pen.segment = some b
    rw [hpen, hat]
    exact hb
  . intro hend hsize hstate _
    obtain ⟨hone, b, hb, hbreak, _⟩ := hbreak hend hsize
    refine .inr ⟨s.cursor.pos, b, ?_, ?_, ?_, hbreak⟩
    . show s.cursor.forward.pen.segment ≤ s.cursor.pos
      rw [hpen]
      exact hsegment
    . show s.cursor.pos < s.cursor.forward.pos
      omega
    . show s.cursor.forward.pen.doc.byteAt? s.cursor.pos = some b
      rw [hpen]
      exact hb
  . intro hend hsize
    obtain ⟨hone, b, hb, _, hcur⟩ := hbreak hend hsize
    show s.cursor.forward.prev = s.cursor.forward.pen.doc.lead s.cursor.forward.pos
    rw [prev_forward hmore, hpen, hpos, hone, hcur, Document.lead, if_pos (Nat.succ_pos _), Nat.add_sub_cancel, Document.byteAt]
    rw [Document.byteAt?, Cursor.doc] at hb
    rw [hb]
    rfl

/--
A string that goes on from the line above, and goes on.
-/
theorem carried_forward (h : c.Settled) (hmore : c.more = true) (hcarried : Carried c) (hquote : isQuote c.cur = false) :
    Carried c.forward := by
  intro _
  have hpen := pen_forward hmore
  have hpos := pos_forward hmore
  have hsegment := h.segment_le
  show c.forward.pen.doc.byteAt? c.forward.pen.segment ≠ some 0x27
    ∨ ∃ i b, c.forward.pen.segment ≤ i ∧ i < c.forward.pos ∧ c.forward.pen.doc.byteAt? i = some b ∧ isBreak b = true
  rw [hpen, hpos]
  by_cases hlt : c.pen.segment < c.pos
  . refine (hcarried hlt).imp_right ?_
    rintro ⟨i, b, hi, hi', hb⟩
    exact ⟨i, b, hi, by omega, hb⟩
  . left
    intro hbyte
    have hat : c.pen.segment = c.pos := by omega
    rw [hat] at hbyte
    have hbyte : c.doc.text[c.pos]? = some 0x27 := hbyte
    have hcur : c.cur = 0x27 := by
      rw [h.cur_eq, Document.decodeAt, Encoding.decodeAt_of_ascii c.doc.encoding hbyte (by decide)]
      rfl
    rw [hcur] at hquote
    cases hquote

end Scan

end Gibiane

end Highlight
