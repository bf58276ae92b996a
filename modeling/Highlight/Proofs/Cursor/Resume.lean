import Highlight.Proofs.Cursor.PenRelation

/-!
Going on at a line start. The document that a pass leaves shows in front of the next line what the pass
knew there: the style of the open token, which is coloured up to the line start.
-/

namespace Highlight

open LineIndex

variable {doc doc' : Document} {v : View} {c c' : Cursor}

theorem View.ofRange_congr (h : doc.SameSource doc') (start limit stop : Nat) :
    View.ofRange doc' start limit stop = View.ofRange doc start limit stop := by
  simp only [View.ofRange, Document.cursorStop, h.size, h.lineOf, h.lineCount, h.encoding, h.options]

namespace Cursor

/--
Two passes that are alike up to a line start where the second one stops, and the end of a range that begins there.
-/
structure Interrupted (v : View) (c c' : Cursor) (stop : Nat) : Prop where
  equal : c.Alike v Pen.Equal c'
  shift : v.shift = 0
  whole : v.whole = false
  pos : c.pos = v.limit
  lt_stop : v.limit < stop
  boundary : IsBoundary c.doc.text stop
  stop_eq : c.stop = c.doc.cursorStop stop

theorem Alike.interrupted {base : Document} (h : c.Alike v (Pen.Same v base) c') (hshift : v.shift = 0) (hwhole : v.whole = false)
    (hpos : c.pos = v.limit) {stop : Nat} (hlt : v.limit < stop) (hbound : IsBoundary base.text stop)
    (hstop : c.stop = base.cursorStop stop) : Interrupted v c c' stop :=
  have hbase : base.SameSource c.doc := h.pen.2.sameSource
  { equal := h.of_rel h.pen.1
    shift := hshift
    whole := hwhole
    pos := hpos
    lt_stop := hlt
    boundary := by rwa [IsBoundary, hbase.text]
    stop_eq := by rw [hstop, Document.cursorStop, Document.cursorStop, hbase.size] }

namespace Interrupted

variable {stop : Nat} (h : Interrupted v c c' stop)
include h

theorem startsLine : startsLine c.doc.text v.limit = true :=
  (h.equal.shows.startsLine_limit h.whole).2.1

theorem atLineStart : c.atLineStart = true :=
  h.equal.atLineStart_of_reach (by rw [View.reach_of_open h.whole, h.pos])

theorem pos_le_size : c.pos ≤ c.doc.size := by
  rw [h.pos]
  exact h.equal.shows.limit_le

/--
The document that the second pass leaves is that of the first one, with the open token coloured up to the line start.
-/
theorem complete_eq : c'.complete = (c.pen.colourTo v.limit c.state).doc := by
  show (c'.pen.colourTo c'.pos c'.state).doc = _
  rw [show c'.pen = c.pen from h.equal.pen, h.equal.pos, h.equal.state, h.pos, h.shift, Nat.add_zero]

theorem sameSource : c.doc.SameSource c'.complete := by
  rw [h.complete_eq]
  exact sameSource_colourTo _ _ _

theorem lineStates_complete : c'.complete.lineStates = c.doc.lineStates := by
  rw [h.complete_eq]
  exact Pen.lineStates_colourTo _ _ _

theorem levels_complete : c'.complete.levels = c.doc.levels := by
  rw [h.complete_eq]
  exact Pen.levels_colourTo _ _ _

/--
If the open token has begun in front of the line start, its style is the one in front of the next pass.
-/
theorem styleBefore_complete (hsegment : c.pen.segment < c.pos) : c'.complete.styleBefore v.limit = c.state := by
  rw [h.complete_eq]
  exact Pen.styleBefore_colourTo h.equal.settled.wellFormed (h.pos ▸ hsegment) h.equal.shows.limit_le c.state

theorem wellFormed_complete : c'.complete.WellFormed :=
  h.sameSource.wellFormed h.equal.settled.wellFormed

theorem startsLine_complete : LineIndex.startsLine c'.complete.text v.limit = true := by
  rw [h.sameSource.text]
  exact h.startsLine

theorem boundary_complete : IsBoundary c'.complete.text stop := by
  rw [IsBoundary, h.sameSource.text]
  exact h.boundary

theorem pos_start : (Cursor.start c'.complete (c'.complete.spanOf v.limit stop)).pos = v.limit :=
  Cursor.pos_start h.wellFormed_complete h.startsLine_complete h.lt_stop h.boundary_complete

theorem atLineStart_start : (Cursor.start c'.complete (c'.complete.spanOf v.limit stop)).atLineStart = true :=
  Cursor.atLineStart_start h.wellFormed_complete h.startsLine_complete h.lt_stop h.boundary_complete

theorem state_start :
    (Cursor.start c'.complete (c'.complete.spanOf v.limit stop)).state = c'.complete.styleBefore v.limit :=
  Cursor.state_start h.wellFormed_complete h.startsLine_complete h.lt_stop h.boundary_complete

/--
The next pass sees the byte in front of the line start as the first pass does if a byte is all it has in front of a line.
-/
theorem prev_start (hpositive : 0 < v.limit) (hprev : c.prev = (c.doc.byteAt (c.pos - 1) 0).toNat) :
    (Cursor.start c'.complete (c'.complete.spanOf v.limit stop)).prev = c.prev := by
  rw [Cursor.prev_start h.wellFormed_complete h.startsLine_complete h.lt_stop h.boundary_complete, if_pos hpositive, hprev, h.pos,
    Document.byteAt, Document.byteAt, h.sameSource.text]

/--
A cursor that comes by a line start, and the one of a pass that begins there, with the same style, in the
document that is left if the pass stops there.
-/
theorem resume_changeState (loose : Style → Bool) (hloose : loose c.state = true) :
    Alike (.ofRange c'.complete v.limit stop stop) (Pen.Late loose v.limit c.state) c
      ((Cursor.start c'.complete (c'.complete.spanOf v.limit stop)).changeState c.state) := by
  have hpos := h.pos
  have hsame := h.sameSource
  have hsegment := h.equal.settled.segment_le
  have hshow := View.Shows.ofRange h.equal.settled.wellFormed hsame h.lt_stop h.boundary (Nat.le_refl stop) h.boundary.le_size
  rw [← View.ofRange_congr hsame] at hshow
  have hsettled := (settled_start c'.complete hshow.wellFormed' (c'.complete.spanOf v.limit stop)).changeState c.state
  rw [start_spanOf hshow.wellFormed' h.startsLine_complete h.lt_stop h.boundary_complete] at hsettled ⊢
  have hlt := h.lt_stop
  have hreach := (View.ofRange c'.complete v.limit stop stop).limit_le_reach
  exact
    { shows := hshow
      settled := h.equal.settled
      settled' := hsettled
      pos := hpos.symm
      state := rfl
      pen := by
        refine .inr ⟨hloose, rfl, by omega, ?_⟩
        show Pen.mk c'.complete v.limit = c.pen.colourTo v.limit c.state
        have hsegment' : (c.pen.colourTo v.limit c.state).segment = v.limit := by
          have := h.equal.shows.limit_le
          rw [Cursor.doc] at this
          rw [Pen.segment_colourTo]
          omega
        rw [h.complete_eq]
        exact congrArg (Pen.mk _) hsegment'.symm
      start_le := Nat.le_of_eq hpos.symm
      le_reach := by
        have : (View.ofRange c'.complete v.limit stop stop).limit = stop := rfl
        omega
      stop := by
        rw [h.stop_eq, View.ofRange_congr hsame]
        rfl
      stop' := rfl }

theorem resume (loose : Style → Bool) (hsegment : c.pen.segment < c.pos) (hloose : loose c.state = true) :
    Alike (.ofRange c'.complete v.limit stop stop) (Pen.Late loose v.limit c.state) c
      (Cursor.start c'.complete (c'.complete.spanOf v.limit stop)) := by
  have hresume := h.resume_changeState loose hloose
  have hstate := h.state_start.trans (h.styleBefore_complete hsegment)
  rw [← hstate, show ∀ c : Cursor, c.changeState c.state = c from fun _ => rfl, hstate] at hresume
  exact hresume

end Interrupted

section Ended

/--
Ending the open token where it ends anyway changes nothing.
-/
theorem complete_setState (c : Cursor) (style : Style) : (c.setState style).complete = c.complete := by
  show ((c.pen.colourTo c.pos c.state).colourTo c.pos style).doc = (c.pen.colourTo c.pos c.state).doc
  have hsize := (sameSource_colourTo c.pen c.pos c.state).size
  have hsegment := Pen.segment_colourTo c.pen c.pos c.state
  generalize c.pen.colourTo c.pos c.state = pen at *
  unfold Pen.colourTo
  rw [if_neg (by omega)]

theorem forward_of_end (h : c.more = false) :
    c.forward.pen = c.pen ∧ c.forward.pos = c.pos ∧ c.forward.state = c.state ∧ c.forward.more = false
      ∧ c.forward.atLineEnd = true := by
  have hforward : c.forward =
      { c with atLineStart := false, atLineEnd := true, prev := Code.blank, cur := Code.blank, next := Code.blank } := by
    rw [forward, h]
    rfl
  rw [hforward]
  exact ⟨rfl, rfl, rfl, h, rfl⟩

theorem complete_forward (h : c.more = false) : c.forward.complete = c.complete := by
  obtain ⟨hpen, hpos, hstate, _, _⟩ := forward_of_end h
  show (c.forward.pen.colourTo c.forward.pos c.forward.state).doc = _
  rw [hpen, hpos, hstate]
  rfl

end Ended

end Cursor

end Highlight
