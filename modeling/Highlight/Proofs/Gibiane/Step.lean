import Highlight.Proofs.Gibiane.Alike

/-!
A step of Gibiane: it leaves the open token, enters the next one and goes forward.
-/

namespace Highlight.Gibiane.Scan

open Cursor

variable {v : View} {rel : Style → Pen → Pen → Prop} {keywords : Keywords} {token token' : String} {s s' : Scan}

/--
Two scans between two steps, at the same place of the part that a view shows. Their open tokens are the same, or
they are what goes on from the line above.
-/
structure Alike (v : View) (rel : Style → Pen → Pen → Prop) (s s' : Scan) : Prop where
  cursor : s.cursor.Alike v rel s'.cursor
  prev : s'.cursor.prev = s.cursor.prev
  behindLineEnd : s'.behindLineEnd = s.behindLineEnd
  token : isToken s.cursor.state = true
  number : s'.inNumber = s.inNumber ∨ s.cursor.prev.isDigit = false ∨ s.cursor.state = Style.comment
    ∨ s.cursor.state = Style.string
  word : s.cursor.state = Style.default → (∀ style, rel style s.cursor.pen s'.cursor.pen) ∨ Ended s.cursor ∧ Ended s'.cursor
  string : s.cursor.state = Style.string → (∀ style, rel style s.cursor.pen s'.cursor.pen) ∨ Carried s.cursor ∧ Carried s'.cursor
  single : ∀ page, v.encoding ≠ .doubleByte page
  kept : s.Kept v.start
  kept' : s'.Kept (v.start + v.shift)

namespace Alike

theorem tokenLower_eq (hrel : v.Closed loose rel) (h : Alike v rel s s') (hpens : ∀ style, rel style s.cursor.pen s'.cursor.pen) :
    s'.cursor.tokenLower 99 = s.cursor.tokenLower 99 := by
  have htight : View.Closed v (fun _ => false) (Pen.Tight rel) := hrel.tight (show loose Style.comment = false from rfl)
  rw [Cursor.tokenLower, Cursor.tokenLower, (h.cursor.tight hpens).token htight rfl]

/--
A token ends in front of the cursor.
-/
theorem leaveWith (hrel : v.Closed loose rel) (h : Alike v rel s s') (hin : s.cursor.pos < v.reach)
    (hnumber : s'.inNumber = s.inNumber ∨ s.cursor.prev.isDigit = false ∨ s.cursor.cur.isInner = false) :
    Left v rel token token' (s.withCursor (s.cursor.setState Style.default)) (s'.withCursor (s'.cursor.setState Style.default)) where
  cursor := h.cursor.setState hrel Style.default
  lt_reach := hin
  first_le := h.kept.first_le
  first_le' := h.kept'.first_le
  prev := h.prev
  behindLineEnd := h.behindLineEnd
  state := .inl rfl
  goesOver := fun _ => rfl
  number := fun _ => hnumber
  tight := fun _ style => (h.cursor.setState hrel style).pen
  word := fun _ => .inr ⟨fresh_setState _ _, fresh_setState _ _⟩
  carried := nofun

theorem leave_comment (hrel : v.Closed loose rel) (h : Alike v rel s s') (hin : s.cursor.pos < v.reach)
    (hstate : s.cursor.state = Style.comment) :
    Left v rel token token' (s.withCursor (leave keywords token s.cursor)) (s'.withCursor (leave keywords token' s'.cursor)) := by
  unfold leave
  rw [h.cursor.state, hstate]
  show Left v rel token token'
    (s.withCursor (if s.cursor.atLineEnd = true then s.cursor.setState Style.default else s.cursor))
    (s'.withCursor (if s'.cursor.atLineEnd = true then s'.cursor.setState Style.default else s'.cursor))
  rw [h.cursor.atLineEnd hin]
  split
  . next hend =>
    refine h.leaveWith hrel hin (.inr (.inr ?_))
    rw [Bool.eq_false_iff]
    intro hinner
    rw [h.cursor.settled.atLineEnd_of_isInner hinner] at hend
    cases hend
  . next hend =>
    exact
      { cursor := h.cursor
        lt_reach := hin
        first_le := h.kept.first_le
        first_le' := h.kept'.first_le
        prev := h.prev
        behindLineEnd := h.behindLineEnd
        state := .inr (.inl hstate)
        goesOver := fun hend' => absurd hend' hend
        number := fun heq => absurd (hstate.symm.trans heq) (by decide)
        tight := fun heq => absurd (hstate.symm.trans heq) (by decide)
        word := fun heq => absurd (hstate.symm.trans heq) (by decide)
        carried := fun heq => absurd (hstate.symm.trans heq) (by decide) }

theorem leave_number (hrel : v.Closed loose rel) (h : Alike v rel s s') (hin : s.cursor.pos < v.reach)
    (hstate : s.cursor.state = Style.number) :
    Left v rel token token' (s.withCursor (leave keywords token s.cursor)) (s'.withCursor (leave keywords token' s'.cursor)) := by
  unfold leave
  rw [h.cursor.state, hstate]
  refine h.leaveWith hrel hin (h.number.imp_right fun hnumber => .inl ?_)
  rcases hnumber with hdigit | heq | heq
  . exact hdigit
  . exact absurd (hstate.symm.trans heq) (by decide)
  . exact absurd (hstate.symm.trans heq) (by decide)

theorem leave_default (hrel : v.Closed loose rel) (h : Alike v rel s s') (hin : s.cursor.pos < v.reach)
    (hstate : s.cursor.state = Style.default) :
    Left v rel (s.cursor.tokenLower 99) (s'.cursor.tokenLower 99)
      (s.withCursor (leave keywords (s.cursor.tokenLower 99) s.cursor))
      (s'.withCursor (leave keywords (s'.cursor.tokenLower 99) s'.cursor)) := by
  have hstate' : s'.cursor.state = Style.default := h.cursor.state.trans hstate
  have hnumber : s'.inNumber = s.inNumber ∨ s.cursor.prev.isDigit = false ∨ s.cursor.cur.isInner = false := by
    refine h.number.imp_right fun hnumber => .inl ?_
    rcases hnumber with hdigit | heq | heq
    . exact hdigit
    . exact absurd (hstate.symm.trans heq) (by decide)
    . exact absurd (hstate.symm.trans heq) (by decide)
  rcases h.word hstate with hpens | ⟨hended, hended'⟩
  . have htoken := h.tokenLower_eq hrel hpens
    rw [htoken, Scan.leave_default keywords _ hstate, Scan.leave_default keywords _ hstate']
    split
    . exact h.leaveWith hrel hin hnumber
    . exact
        { cursor := h.cursor
          lt_reach := hin
          first_le := h.kept.first_le
          first_le' := h.kept'.first_le
          prev := h.prev
          behindLineEnd := h.behindLineEnd
          state := .inl hstate
          goesOver := fun _ => by
            show Gibiane.loose s.cursor.state = true
            rw [hstate]
            rfl
          number := fun _ => hnumber
          tight := fun _ => hpens
          word := fun _ => .inl rfl
          carried := fun heq => absurd (hstate.symm.trans heq) (by decide) }
  . rw [leave_of_ended keywords hstate hended, leave_of_ended keywords hstate' hended']
    exact h.leaveWith hrel hin hnumber

/--
What the closing quote of a string does to the pens. A string that goes on from the line above keeps its style.
-/
theorem closeString (hrel : v.Closed loose rel) (hkeywords : Bounded keywords) (h : Alike v rel s s') (hin : s.cursor.pos < v.reach)
    (hstate : s.cursor.state = Style.string) :
    Cursor.Alike v (Pen.Tight rel)
      ((s.cursor.forward.changeState ((quotedStyle? keywords (s.cursor.tokenLower 99)).getD Style.string)).setState Style.default)
      ((s'.cursor.forward.changeState ((quotedStyle? keywords (s'.cursor.tokenLower 99)).getD Style.string)).setState
        Style.default) := by
  have htight : View.Closed v (fun _ => false) (Pen.Tight rel) := hrel.tight (show loose Style.comment = false from rfl)
  have hmore := h.cursor.more hin
  have hmore' := h.cursor.more' hin
  have hforward := h.cursor.forward hin
  rcases h.string hstate with hpens | ⟨hcarried, hcarried'⟩
  . rw [h.tokenLower_eq hrel hpens]
    have hpens' : ∀ style, rel style s.cursor.forward.pen s'.cursor.forward.pen := by
      rw [pen_forward hmore, pen_forward hmore']
      exact hpens
    exact ((hforward.tight hpens').changeState htight rfl _).setState htight Style.default
  . rw [quotedStyle?_of_carried hkeywords hcarried, quotedStyle?_of_carried hkeywords hcarried', Option.getD_none]
    have hkeep : s.cursor.forward.changeState Style.string = s.cursor.forward := by
      rw [← hstate, ← state_forward hmore]
      rfl
    have hkeep' : s'.cursor.forward.changeState Style.string = s'.cursor.forward := by
      rw [← hstate, ← h.cursor.state, ← state_forward hmore']
      rfl
    rw [hkeep, hkeep']
    exact (hforward.setState hrel Style.default).tight fun style => (hforward.setState hrel style).pen

theorem leave_string (hrel : v.Closed loose rel) (hkeywords : Bounded keywords) (h : Alike v rel s s') (hin : s.cursor.pos < v.reach)
    (hstate : s.cursor.state = Style.string) :
    Left v rel (s.cursor.tokenLower 99) (s'.cursor.tokenLower 99)
      (s.withCursor (leave keywords (s.cursor.tokenLower 99) s.cursor))
      (s'.withCursor (leave keywords (s'.cursor.tokenLower 99) s'.cursor)) := by
  have hclose := h.closeString hrel hkeywords hin hstate
  rw [Scan.leave_string keywords _ hstate, Scan.leave_string keywords _ (h.cursor.state.trans hstate), h.cursor.cur hin]
  split
  . next hquote =>
    have hmore := h.cursor.more hin
    have hmore' := h.cursor.more' hin
    have hinner := isInner_of_isQuote hquote
    have hwidth := h.cursor.settled.width_pos
    have hwidth' := h.cursor.settled'.width_pos
    have hfirst := h.kept.first_le
    have hfirst' := h.kept'.first_le
    have hpos := pos_forward hmore
    have hpos' := pos_forward hmore'
    have hprev : s'.cursor.forward.prev = s.cursor.forward.prev := h.cursor.prev_forward hin
    have hquoted : s.cursor.forward.prev = Code.apostrophe := by
      rw [prev_forward hmore]
      exact beq_iff_eq.mp hquote
    exact
      { cursor := hclose.loosen
        lt_reach := h.cursor.forward_inner hin hinner
        first_le := by
          show s.first ≤ s.cursor.forward.pos
          omega
        first_le' := by
          show s'.first ≤ s'.cursor.forward.pos
          omega
        prev := hprev
        behindLineEnd := by
          show (s'.cursor.forward.prev.isLineEnd || s'.cursor.forward.pos == s'.first)
            = (s.cursor.forward.prev.isLineEnd || s.cursor.forward.pos == s.first)
          rw [hprev, beq_false_of_ne (show s'.cursor.forward.pos ≠ s'.first by omega),
            beq_false_of_ne (show s.cursor.forward.pos ≠ s.first by omega)]
        state := .inl rfl
        goesOver := fun _ => rfl
        number := fun _ => .inr (.inl (by
          show s.cursor.forward.prev.isDigit = false
          rw [hquoted]
          rfl))
        tight := fun _ => hclose.pen
        word := fun _ => .inr ⟨fresh_setState _ _, fresh_setState _ _⟩
        carried := nofun }
  . next hquote =>
    have hquote := Bool.eq_false_iff.mpr hquote
    exact
      { cursor := h.cursor
        lt_reach := hin
        first_le := h.kept.first_le
        first_le' := h.kept'.first_le
        prev := h.prev
        behindLineEnd := h.behindLineEnd
        state := .inr (.inr hstate)
        goesOver := fun _ => by
          show Gibiane.loose s.cursor.state = true
          rw [hstate]
          rfl
        number := fun heq => absurd (hstate.symm.trans heq) (by decide)
        tight := fun heq => absurd (hstate.symm.trans heq) (by decide)
        word := fun heq => absurd (hstate.symm.trans heq) (by decide)
        carried := fun _ => (h.string hstate).imp_right fun ⟨hcarried, hcarried'⟩ => ⟨hcarried, hcarried', hquote⟩ }

theorem leave (hrel : v.Closed loose rel) (hkeywords : Bounded keywords) (h : Alike v rel s s') (hin : s.cursor.pos < v.reach) :
    Left v rel (s.cursor.tokenLower 99) (s'.cursor.tokenLower 99)
      (s.withCursor (Scan.leave keywords (s.cursor.tokenLower 99) s.cursor))
      (s'.withCursor (Scan.leave keywords (s'.cursor.tokenLower 99) s'.cursor)) := by
  rcases isToken_cases h.token with hstate | hstate | hstate | hstate
  . exact h.leave_default hrel hin hstate
  . exact h.leave_string hrel hkeywords hin hstate
  . exact h.leave_comment hrel hin hstate
  . exact h.leave_number hrel hin hstate

/--
One step. It goes forward.
-/
theorem step (hrel : v.Closed loose rel) (hkeywords : Bounded keywords) (h : Alike v rel s s') (hin : s.cursor.pos < v.reach) :
    Alike v rel (s.step keywords) (s'.step keywords) ∧ v.start < (s.step keywords).cursor.pos := by
  have hentered := (h.leave hrel hkeywords hin).enter hrel keywords
  have hfresh := fresh_enter (s.withCursor (Scan.leave keywords (s.cursor.tokenLower 99) s.cursor)) keywords
    (s.cursor.tokenLower 99)
  have hfresh' := fresh_enter (s'.withCursor (Scan.leave keywords (s'.cursor.tokenLower 99) s'.cursor)) keywords
    (s'.cursor.tokenLower 99)
  unfold Scan.step
  dsimp only
  generalize (s.withCursor (Scan.leave keywords (s.cursor.tokenLower 99) s.cursor)).enter keywords
    (s.cursor.tokenLower 99) = t at *
  generalize (s'.withCursor (Scan.leave keywords (s'.cursor.tokenLower 99) s'.cursor)).enter keywords
    (s'.cursor.tokenLower 99) = t' at *
  have hmore := hentered.cursor.more hentered.lt_reach
  have hmore' := hentered.cursor.more' hentered.lt_reach
  have hprev := hentered.cursor.prev_forward hentered.lt_reach
  have hpos := pos_forward hmore
  have hpos' := pos_forward hmore'
  have hpen := pen_forward hmore
  have hpen' := pen_forward hmore'
  have hstate := state_forward hmore
  have hwidth := hentered.cursor.settled.width_pos
  have hwidth' := hentered.cursor.settled'.width_pos
  have hfirst := hentered.first_le
  have hfirst' := hentered.first_le'
  have hstart := hentered.cursor.start_le
  have hover' : t'.cursor.atLineEnd = true → loose t'.cursor.state = true := by
    rw [hentered.cursor.atLineEnd hentered.lt_reach, hentered.cursor.state]
    exact hentered.goesOver
  refine
    ⟨{ cursor := hentered.cursor.forward hentered.lt_reach
       prev := hprev
       behindLineEnd := ?_
       token := ?_
       number := ?_
       word := ?_
       string := ?_
       single := h.single
       kept := kept_forward hentered.cursor.settled hmore ?_ hfirst hentered.goesOver hfresh _
       kept' := kept_forward hentered.cursor.settled' hmore' ?_ hfirst' hover' hfresh' _ }, ?_⟩
  . show (t'.cursor.forward.prev.isLineEnd || t'.cursor.forward.pos == t'.first)
      = (t.cursor.forward.prev.isLineEnd || t.cursor.forward.pos == t.first)
    rw [hprev, beq_false_of_ne (show t'.cursor.forward.pos ≠ t'.first by omega),
      beq_false_of_ne (show t.cursor.forward.pos ≠ t.first by omega)]
  . show isToken t.cursor.forward.state = true
    rw [hstate]
    exact hentered.token
  . refine hentered.number.imp_right fun hnumber => .inr ?_
    show t.cursor.forward.state = Style.comment ∨ t.cursor.forward.state = Style.string
    rwa [hstate]
  . intro heq
    left
    show ∀ style, rel style t.cursor.forward.pen t'.cursor.forward.pen
    rw [hpen, hpen']
    exact hentered.tight (hstate.symm.trans heq)
  . intro heq
    rcases hentered.carried (hstate.symm.trans heq) with hpens | ⟨hcarried, hcarried', hquote⟩
    . left
      show ∀ style, rel style t.cursor.forward.pen t'.cursor.forward.pen
      rwa [hpen, hpen']
    . right
      refine ⟨carried_forward hentered.cursor.settled hmore hcarried hquote,
        carried_forward hentered.cursor.settled' hmore' hcarried' ?_⟩
      rwa [hentered.cursor.cur hentered.lt_reach]
  . intro page
    rw [hentered.cursor.shows.encoding]
    exact h.single page
  . intro page
    rw [hentered.cursor.shows.encoding']
    exact h.single page
  . show v.start < t.cursor.forward.pos
    omega

theorem second (h : Alike v rel s s') : Alike v.second Pen.Equal s' s' where
  cursor := h.cursor.second
  prev := rfl
  behindLineEnd := rfl
  token := by
    rw [h.cursor.state]
    exact h.token
  number := .inl rfl
  word := fun _ => .inl fun _ => rfl
  string := fun _ => .inl fun _ => rfl
  single := h.single
  kept := h.kept'
  kept' := h.kept'

/--
Alike scans can be looked at from their place on.
-/
theorem behind (h : Alike v rel s s') (hin : s.cursor.pos < v.reach) :
    Alike (v.behind s.cursor.doc s.cursor.pos) rel s s' where
  cursor := h.cursor.fromPos hin
  prev := h.prev
  behindLineEnd := h.behindLineEnd
  token := h.token
  number := h.number
  word := h.word
  string := h.string
  single := h.single
  kept := { h.kept with begun := .inl rfl }
  kept' := { h.kept' with begun := .inl h.cursor.pos }

/--
At a line start, whatever the pens have in common: a word in front has ended, and a string goes on.
-/
theorem behindLine {rel' : Style → Pen → Pen → Prop} (h : Alike v rel s s') (hin : s.cursor.pos < v.reach)
    (hstart : s.cursor.atLineStart = true) (hrel : rel' s.cursor.state s.cursor.pen s'.cursor.pen) :
    Alike (v.behind s.cursor.doc s.cursor.pos) rel' s s' := by
  have hstart' : s'.cursor.atLineStart = true := (h.cursor.atLineStart hin).trans hstart
  have hsize := h.cursor.settled.pos_le (h.cursor.more hin)
  have hsize' := h.cursor.settled'.pos_le (h.cursor.more' hin)
  refine
    { cursor := (h.cursor.fromPos hin).of_rel hrel
      prev := h.prev
      behindLineEnd := h.behindLineEnd
      token := h.token
      number := h.number
      word := ?_
      string := ?_
      single := h.single
      kept := { h.kept with begun := .inl rfl }
      kept' := { h.kept' with begun := .inl h.cursor.pos } }
  . intro hstate
    exact .inr ⟨h.kept.ended hstart hsize hstate, h.kept'.ended hstart' hsize' (h.cursor.state.trans hstate)⟩
  . intro hstate
    exact .inr ⟨h.kept.carried hstart hsize hstate, h.kept'.carried hstart' hsize' (h.cursor.state.trans hstate)⟩

end Alike

end Highlight.Gibiane.Scan
