import Highlight.Proofs.Gibiane.Resume

/-!
A pass of Gibiane over a range, wherever it begins. Whether it can be interrupted depends on the words that are looked
up over the ends of lines; over one and the same range, two passes always look up the same words.
-/

namespace Highlight.Gibiane

open Cursor LineIndex

variable {v : View} {rel : Style → Pen → Pen → Prop} {s s' : Scan} {doc doc' : Document}

/--
Two scans at the same place of the part that a view shows, whose open tokens began at the same place too.
-/
structure Scan.Twin (v : View) (rel : Style → Pen → Pen → Prop) (s s' : Scan) : Prop where
  cursor : s.cursor.Alike v rel s'.cursor
  prev : s'.cursor.prev = s.cursor.prev
  behindLineEnd : s'.behindLineEnd = s.behindLineEnd
  inNumber : s'.inNumber = s.inNumber
  first_le : s.first ≤ s.cursor.pos
  first_le' : s'.first ≤ s'.cursor.pos

namespace Scan.Twin

section Step

variable (hrel : v.Closed (fun _ => false) rel) (h : Twin v rel s s') (hin : s.cursor.pos < v.reach)
include hrel h hin

omit hin in
theorem tokenLower_eq : s'.cursor.tokenLower 99 = s.cursor.tokenLower 99 := by
  rw [Cursor.tokenLower, Cursor.tokenLower, h.cursor.token hrel rfl]

omit hin in
theorem setState (style : Style) :
    Twin v rel (s.withCursor (s.cursor.setState style)) (s'.withCursor (s'.cursor.setState style)) :=
  { h with cursor := h.cursor.setState hrel style }

omit hin in
theorem changeState (style : Style) :
    Twin v rel (s.withCursor (s.cursor.changeState style)) (s'.withCursor (s'.cursor.changeState style)) :=
  { h with cursor := h.cursor.changeState hrel rfl style }

omit hrel in
theorem forward : Twin v rel (s.withCursor s.cursor.forward) (s'.withCursor s'.cursor.forward) := by
  have hwidth := h.cursor.settled.width_pos
  have hwidth' := h.cursor.settled'.width_pos
  have hpos := pos_forward (h.cursor.more hin)
  have hpos' := pos_forward (h.cursor.more' hin)
  have hprev := h.cursor.prev_forward hin
  have hfirst := h.first_le
  have hfirst' := h.first_le'
  refine
    { cursor := h.cursor.forward hin
      prev := hprev
      behindLineEnd := ?_
      inNumber := h.inNumber
      first_le := ?_
      first_le' := ?_ }
  . show (s'.cursor.forward.prev.isLineEnd || s'.cursor.forward.pos == s'.first)
      = (s.cursor.forward.prev.isLineEnd || s.cursor.forward.pos == s.first)
    rw [hprev, beq_false_of_ne (show s'.cursor.forward.pos ≠ s'.first by omega),
      beq_false_of_ne (show s.cursor.forward.pos ≠ s.first by omega)]
  . show s.first ≤ s.cursor.forward.pos
    omega
  . show s'.first ≤ s'.cursor.forward.pos
    omega

theorem leave (keywords : Keywords) (token : String) :
    Twin v rel (s.withCursor (Scan.leave keywords token s.cursor)) (s'.withCursor (Scan.leave keywords token s'.cursor))
      ∧ s.cursor.pos ≤ (Scan.leave keywords token s.cursor).pos ∧ (Scan.leave keywords token s.cursor).pos < v.reach := by
  unfold Scan.leave
  rw [h.cursor.state, h.cursor.atLineEnd hin, h.cursor.cur hin]
  split
  . split
    . exact ⟨h.setState hrel _, Nat.le_refl _, hin⟩
    . exact ⟨h, Nat.le_refl _, hin⟩
  . split
    . next hquote =>
      have hchanged := (h.forward hin).changeState hrel ((quotedStyle? keywords token).getD s.cursor.state)
      have hle : s.cursor.pos ≤ s.cursor.forward.pos := by
        rw [pos_forward (h.cursor.more hin)]
        exact Nat.le_add_right _ _
      exact ⟨hchanged.setState hrel Style.default, hle, h.cursor.forward_inner hin (isInner_of_isQuote hquote)⟩
    . exact ⟨h, Nat.le_refl _, hin⟩
  . exact ⟨h.setState hrel _, Nat.le_refl _, hin⟩
  . split
    . exact ⟨h.setState hrel _, Nat.le_refl _, hin⟩
    . exact ⟨h, Nat.le_refl _, hin⟩

omit hrel in
theorem seesNumber_eq : s'.seesNumber = s.seesNumber :=
  Scan.seesNumber_eq h.cursor hin h.prev (.inl h.inNumber)

theorem enter (keywords : Keywords) (token : String) :
    Twin v rel (s.enter keywords token) (s'.enter keywords token) ∧ (s.enter keywords token).cursor.pos = s.cursor.pos := by
  have hbehind : (s'.cursor.prev.isLineEnd || s'.cursor.pos == s'.first) = (s.cursor.prev.isLineEnd || s.cursor.pos == s.first) :=
    h.behindLineEnd
  unfold Scan.enter
  dsimp only
  rw [h.cursor.state, h.cursor.sees hin, hbehind, h.cursor.cur hin, h.cursor.sees hin, h.seesNumber_eq hin]
  split
  . exact ⟨h, rfl⟩
  . split
    . exact ⟨h.setState hrel _, rfl⟩
    . split
      . exact ⟨h.setState hrel _, rfl⟩
      . split
        . exact ⟨{ h.setState hrel Style.number with inNumber := rfl }, rfl⟩
        . split
          . exact ⟨{ (h.changeState hrel _).setState hrel Style.default with inNumber := rfl }, rfl⟩
          . split
            . exact ⟨{ (h.changeState hrel _).setState hrel Style.default with inNumber := rfl }, rfl⟩
            . exact ⟨{ h with inNumber := rfl }, rfl⟩

/--
One step. It goes forward.
-/
theorem step (keywords : Keywords) : Twin v rel (s.step keywords) (s'.step keywords) ∧ s.cursor.pos < (s.step keywords).cursor.pos := by
  obtain ⟨hleft, hle, hreach⟩ := h.leave hrel hin keywords (s.cursor.tokenLower 99)
  obtain ⟨hentered, hpos⟩ := hleft.enter hrel hreach keywords (s.cursor.tokenLower 99)
  rw [Scan.step, Scan.step, h.tokenLower_eq hrel]
  generalize (s.withCursor (Scan.leave keywords (s.cursor.tokenLower 99) s.cursor)).enter keywords
    (s.cursor.tokenLower 99) = t at *
  have hpos : t.cursor.pos = (Scan.leave keywords (s.cursor.tokenLower 99) s.cursor).pos := hpos
  have hin : t.cursor.pos < v.reach := by rwa [hpos]
  have hwidth := hentered.cursor.settled.width_pos
  refine ⟨hentered.forward hin, ?_⟩
  show s.cursor.pos < t.cursor.forward.pos
  rw [pos_forward (hentered.cursor.more hin)]
  omega

end Step

theorem second (h : Twin v rel s s') : Twin v.second Pen.Equal s' s' where
  cursor := h.cursor.second
  prev := rfl
  behindLineEnd := rfl
  inNumber := rfl
  first_le := h.first_le'
  first_le' := h.first_le'

end Scan.Twin

/--
The pass of Gibiane over a range, taken apart into the same steps as the colouring that can be interrupted.
-/
def pass (keywords : Keywords) : Colouring Scan :=
  { colouring keywords with
    loose := fun _ => false
    alike := Scan.Twin }

/--
Passes over the same lines start alike if what is in front of them is the same.
-/
theorem twin_ofSpan {stop stop' : Nat} (h : v.Begins doc doc' stop stop')
    (hrel : ∀ style, rel style ⟨doc, v.start⟩ ⟨doc', v.start + v.shift⟩)
    (hstyle : doc'.styleBefore (v.start + v.shift) = doc.styleBefore v.start)
    (hlead : doc'.lead (v.start + v.shift) = doc.lead v.start) :
    Scan.Twin v rel (.ofSpan (doc.spanOf v.start stop) doc) (.ofSpan (doc'.spanOf (v.start + v.shift) stop') doc') where
  cursor := h.alike_start hstyle (hrel _)
  prev := by
    rw [prev_ofSpan h.shows.wellFormed h.startsLine h.lt_stop h.boundary,
      prev_ofSpan h.shows.wellFormed' h.startsLine' h.lt_stop' h.boundary', hlead]
  behindLineEnd := by
    show (_ || _ == _) = (_ || _ == _)
    rw [Scan.ofSpan, Scan.ofSpan, beq_self_eq_true, beq_self_eq_true, Bool.or_true, Bool.or_true]
  inNumber := rfl
  first_le := Nat.le_refl _
  first_le' := Nat.le_refl _

theorem lawfulSteps_pass (keywords : Keywords) : (pass keywords).LawfulSteps where
  cursor_alike := fun h => h.cursor
  alike_second := fun h => h.second
  storable_alike := fun _ _ => trivial
  alike_step := fun hrel _ hin h => (h.step hrel hin keywords).1
  rank_step := by
    intro v s hshift _ hin h
    obtain ⟨hstep, hlt⟩ := h.step (View.closed_equal hshift) hin keywords
    have hstop : (s.step keywords).cursor.stop = s.cursor.stop := hstep.cursor.stop.trans h.cursor.stop.symm
    have hmore := h.cursor.more hin
    simp only [Cursor.more, decide_eq_true_eq] at hmore
    exact Cursor.remaining_lt hmore hstop hlt

/--
Whatever the keywords are.
-/
theorem lawfulPass (keywords : Keywords) : (pass keywords).LawfulPass where
  toLawfulSteps := lawfulSteps_pass keywords
  colour_eq := by
    intro doc start stop t _ _ _ _ hgood hends
    have hloop := (lawfulSteps_pass keywords).ends_repeatWhile hgood (fun _ => Nat.le_refl _)
    rw [hends.1.end_unique hends.2 hloop.1 hloop.2]
    rfl
  goesOn_of_agree := fun _ hsame hstyles _ _ => ⟨Document.styleBefore_congr hstyles, hsame.lead _⟩
  alike_start := fun _ hbegins hgoes _ hrel => twin_ofSpan hbegins hrel hgoes.1 hgoes.2

theorem good_pass (keywords : Keywords) (hdoc : doc.WellFormed) {start stop : Nat} (hstart : startsLine doc.text start = true)
    (hlt : start < stop) (hstop : IsBoundary doc.text stop) : (pass keywords).Good ((pass keywords).start doc start stop) := by
  have hbegins := View.Begins.ofRange hdoc (.refl doc) hstart hlt hstop (Nat.le_refl stop) hstop
  have htwin : Scan.Twin (.ofRange doc start stop stop) Pen.Equal (.ofSpan (doc.spanOf start stop) doc)
      (.ofSpan (doc.spanOf start stop) doc) :=
    twin_ofSpan hbegins (fun _ => rfl) rfl rfl
  exact ⟨⟨_, rfl, Colouring.LawfulPass.stop_ofRange doc start stop, htwin⟩, fun _ _ => trivial⟩

theorem drives_pass {session : Session} (h : session.lexer = lexer) : (pass session.keywords).Drives session := by
  have hcolours : session.Colours (colouring session.keywords).colour := drives_colouring h
  exact @hcolours

end Highlight.Gibiane
