import Highlight.Proofs.Cursor.View

/-!
Cursors in two texts that share a part. As long as both stand in the part they see the same
characters, so whatever is decided by these is decided alike, and their pens stay related.
-/

namespace Highlight

open LineIndex

/--
A relation of two pens that colouring inside of the part keeps. It can depend on the style of the open
token as long as the style is `loose`, which are the styles that a token can carry over a line start.
-/
structure View.Closed (v : View) (loose : Style → Bool) (rel : Style → Pen → Pen → Prop) : Prop where
  colourTo : ∀ {style pen pen'} (style' : Style) {pos : Nat}, v.Shows pen.doc pen'.doc → v.start ≤ pos → pos ≤ v.reach →
    rel style pen pen' → rel style' (pen.colourTo pos style) (pen'.colourTo (pos + v.shift) style)
  restyle : ∀ {style pen pen'} (style' : Style), loose style = false → rel style pen pen' → rel style' pen pen'
  segment : ∀ {style pen pen'}, loose style = false → rel style pen pen' → pen'.segment = pen.segment + v.shift
  setLineState : ∀ {style pen pen'} {line : Nat} (state : LineState), v.Shows pen.doc pen'.doc → v.first ≤ line → line < v.last →
    rel style pen pen' → rel style (pen.setLineState line state) (pen'.setLineState (line + v.shift) state)
  setLevel : ∀ {style pen pen'} {line : Nat} (level : Level), v.Shows pen.doc pen'.doc → v.first ≤ line → line < v.last →
    rel style pen pen' → rel style (pen.setLevel line level) (pen'.setLevel (line + v.shift) level)

/--
The fewer styles are loose, the less a relation can depend on the open token.
-/
theorem View.Closed.mono {v : View} {loose loose' : Style → Bool} {rel : Style → Pen → Pen → Prop} (h : v.Closed loose rel)
    (hloose : ∀ style, loose style = true → loose' style = true) : v.Closed loose' rel where
  colourTo := h.colourTo
  restyle := fun style' hstyle => h.restyle style' (Bool.eq_false_iff.mpr fun hloose' => Bool.eq_false_iff.mp hstyle (hloose _ hloose'))
  segment := fun hstyle => h.segment (Bool.eq_false_iff.mpr fun hloose' => Bool.eq_false_iff.mp hstyle (hloose _ hloose'))
  setLineState := h.setLineState
  setLevel := h.setLevel

namespace Cursor

/--
Two cursors at the same place of the part that a view shows.
-/
structure Alike (v : View) (rel : Style → Pen → Pen → Prop) (c c' : Cursor) : Prop where
  shows : v.Shows c.doc c'.doc
  settled : c.Settled
  settled' : c'.Settled
  pos : c'.pos = c.pos + v.shift
  state : c'.state = c.state
  pen : rel c.state c.pen c'.pen
  start_le : v.start ≤ c.pos
  le_reach : c.pos ≤ v.reach
  stop : c.stop = v.stop
  stop' : c'.stop = v.stop'

variable {v : View} {loose : Style → Bool} {rel : Style → Pen → Pen → Prop} {c c' : Cursor}

theorem pos_forward (h : c.more = true) : c.forward.pos = c.pos + c.width := by
  rw [forward_of_more h]
  rfl

theorem pen_forward (h : c.more = true) : c.forward.pen = c.pen := by
  rw [forward_of_more h]
  rfl

theorem state_forward (h : c.more = true) : c.forward.state = c.state := by
  rw [forward_of_more h]
  rfl

theorem cur_forward (h : c.more = true) : c.forward.cur = c.next := by
  rw [forward_of_more h]
  rfl

theorem prev_forward (h : c.more = true) : c.forward.prev = c.cur := by
  rw [forward_of_more h]
  rfl

theorem atLineStart_forward (h : c.more = true) : c.forward.atLineStart = c.atLineEnd := by
  rw [forward_of_more h]
  rfl

theorem line_forward (h : c.more = true) : c.forward.line = if c.atLineEnd then c.line + 1 else c.line := by
  rw [forward_of_more h]
  rfl

theorem forward_pen (c : Cursor) : c.forward.pen = c.pen := by
  unfold forward
  split <;> rfl

theorem doc_forward (c : Cursor) : c.forward.doc = c.doc := by
  unfold forward
  split <;> rfl

theorem stop_forward (c : Cursor) : c.forward.stop = c.stop := by
  unfold forward
  split <;> rfl

theorem remaining_lt (hmore : c.pos < c.stop) (hstop : c'.stop = c.stop) (hpos : c.pos < c'.pos) : c'.remaining < c.remaining := by
  rw [remaining, remaining, hstop]
  omega

namespace Alike

theorem more (h : Alike v rel c c') (hin : c.pos < v.reach) : c.more = true := by
  have := h.shows.reach_le
  have := h.stop
  simp only [Cursor.more, decide_eq_true_eq]
  omega

theorem more' (h : Alike v rel c c') (hin : c.pos < v.reach) : c'.more = true := by
  have := h.shows.reach_le'
  have := h.stop'
  have := h.pos
  simp only [Cursor.more, decide_eq_true_eq]
  omega

theorem decodeAt (h : Alike v rel c c') (hin : c.pos < v.reach) :
    c'.doc.decodeAt c'.pos = c.doc.decodeAt c.pos := by
  rw [h.pos]
  exact h.shows.decodeAt (View.lt_limit_or_whole hin)

theorem cur (h : Alike v rel c c') (hin : c.pos < v.reach) : c'.cur = c.cur := by
  rw [h.settled.cur_eq, h.settled'.cur_eq, h.decodeAt hin]

theorem width (h : Alike v rel c c') (hin : c.pos < v.reach) : c'.width = c.width := by
  rw [h.settled.width_eq, h.settled'.width_eq, h.decodeAt hin]

/--
No character goes on behind the part.
-/
theorem pos_add_width_le (h : Alike v rel c c') (hin : c.pos < v.reach) : c.pos + c.width ≤ v.reach := by
  cases hwhole : v.whole with
  | true =>
    have hsize := (h.shows.size_eq hwhole).1
    rw [View.reach_of_whole hwhole] at hin ⊢
    have := h.settled.pos_add_width_le (by omega)
    omega
  | false =>
    rw [View.reach_of_open hwhole] at hin ⊢
    rw [h.settled.width_eq]
    exact Encoding.decodeAt_le_of_startsLine c.doc.encoding (h.shows.startsLine_limit hwhole).2.1 hin

theorem size_le_iff (h : Alike v rel c c') (hin : c.pos < v.reach) : c'.doc.size ≤ c'.pos ↔ c.doc.size ≤ c.pos := by
  have hpos := h.pos
  cases hwhole : v.whole with
  | true =>
    obtain ⟨hsize, hsize'⟩ := h.shows.size_eq hwhole
    omega
  | false =>
    have := h.shows.limit_le
    have := h.shows.limit_le'
    rw [View.reach_of_open hwhole] at hin
    omega

theorem atLineEnd (h : Alike v rel c c') (hin : c.pos < v.reach) : c'.atLineEnd = c.atLineEnd := by
  have hwidth := h.settled.width_pos
  rw [h.settled.atLineEnd, h.settled'.atLineEnd, h.width hin]
  simp only [h.size_le_iff hin]
  by_cases hsize : c.doc.size ≤ c.pos
  . simp [hsize]
  . have hreach := h.pos_add_width_le hin
    have : c.pos + c.width - 1 < v.limit := by
      unfold View.reach at hreach
      split at hreach
      . next hwhole =>
        have := h.settled.pos_add_width_le_size (by omega)
        have := (h.shows.size_eq hwhole).1
        omega
      . omega
    rw [h.pos, show c.pos + v.shift + c.width - 1 = c.pos + c.width - 1 + v.shift by omega, h.shows.endsLine this]

theorem atLineStart (h : Alike v rel c c') (hin : c.pos < v.reach) : c'.atLineStart = c.atLineStart := by
  have hpos := View.le_limit_of_lt_reach hin
  have := h.shows.limit_le
  have := h.shows.limit_le'
  have h1 : ¬ c.doc.size < c.pos := by omega
  have h2 : ¬ c'.doc.size < c'.pos := by
    rw [h.pos]
    omega
  rw [h.settled.atLineStart, h.settled'.atLineStart, h.pos, h.shows.startsLine hpos]
  rw [h.pos] at h2
  simp only [h1, h2]

/--
Behind the last step too, both stand on the same line.
-/
theorem line (h : Alike v rel c c') : c'.line = c.line + v.shift := by
  have hpos := h.pos
  have hreach := h.le_reach
  have hlimit := h.shows.limit_le
  have hlimit' := h.shows.limit_le'
  rw [h.settled.line, h.settled'.line, hpos]
  by_cases hin : c.pos ≤ v.limit
  . rw [h.shows.lineOf hin, if_neg (by omega), if_neg (by omega)]
    omega
  . have hwhole : v.whole = true := by
      unfold View.reach at hreach
      split at hreach
      . next hwhole => exact hwhole
      . omega
    obtain ⟨hsize, hsize'⟩ := h.shows.size_eq hwhole
    have hlast : c.doc.lineOf c.pos = c.doc.lineOf v.limit := by
      rw [h.shows.wellFormed.lineOf_eq, h.shows.wellFormed.lineOf_eq]
      apply breaksBefore_eq_of_no_start (by omega)
      intro p hp _
      rw [Bool.eq_false_iff]
      intro hstart
      have := le_size_of_startsLine hstart
      rw [Document.size] at hsize
      omega
    have hlast' : c'.doc.lineOf (c.pos + v.shift) = c'.doc.lineOf (v.limit + v.shift) := by
      rw [h.shows.wellFormed'.lineOf_eq, h.shows.wellFormed'.lineOf_eq]
      apply breaksBefore_eq_of_no_start (by omega)
      intro p hp _
      rw [Bool.eq_false_iff]
      intro hstart
      have := le_size_of_startsLine hstart
      rw [Document.size] at hsize'
      omega
    rw [hlast, hlast', h.shows.lineOf (Nat.le_refl _), if_pos (by omega), if_pos (by omega)]
    omega

theorem first_le (h : Alike v rel c c') : v.first ≤ c.line := by
  have := h.shows.first_le h.start_le
  rw [h.settled.line]
  omega

theorem line_lt_last (h : Alike v rel c c') (hin : c.pos < v.reach) : c.line < v.last := by
  have := View.le_limit_of_lt_reach hin
  have := h.shows.limit_le
  rw [h.settled.line, if_neg (by omega)]
  exact h.shows.lineOf_lt_last hin

/--
In front of the last character of a line, the next step stays in the part.
-/
theorem pos_add_width_lt (h : Alike v rel c c') (hin : c.pos < v.reach) (hinner : c.atLineEnd = false) :
    c.pos + c.width < v.reach := by
  have hreach := h.pos_add_width_le hin
  have hwidth := h.settled.width_pos
  have hend := h.settled.atLineEnd
  rw [hinner] at hend
  have hend := Bool.or_eq_false_iff.mp hend.symm
  have hsize : c.pos < c.doc.size := by simpa using hend.2
  cases hwhole : v.whole with
  | true =>
    have := (h.shows.size_eq hwhole).1
    have := h.settled.pos_add_width_le_size hsize
    rw [View.reach_of_whole hwhole]
    omega
  | false =>
    rw [View.reach_of_open hwhole] at hreach ⊢
    apply Nat.lt_of_le_of_ne hreach
    intro heq
    have hstart := (h.shows.startsLine_limit hwhole).2.1
    rw [← heq, show c.pos + c.width = c.pos + c.width - 1 + 1 by omega, startsLine_succ, hend.1] at hstart
    cases hstart

theorem next (h : Alike v rel c c') (hin : c.pos < v.reach) (hinner : c.atLineEnd = false) : c'.next = c.next := by
  have hlt := h.pos_add_width_lt hin hinner
  rw [h.settled.next_eq, h.settled'.next_eq, h.width hin, h.pos,
    show c.pos + v.shift + c.width = c.pos + c.width + v.shift by omega, h.shows.decodeAt (View.lt_limit_or_whole hlt)]

theorem forward (h : Alike v rel c c') (hin : c.pos < v.reach) : Alike v rel c.forward c'.forward := by
  have hmore := h.more hin
  have hmore' := h.more' hin
  have hpos := h.pos
  have hstart := h.start_le
  have hwidth := h.pos_add_width_le hin
  refine
    { shows := ?_
      settled := h.settled.forward hmore
      settled' := h.settled'.forward hmore'
      pos := ?_
      state := ?_
      pen := ?_
      start_le := ?_
      le_reach := ?_
      stop := ?_
      stop' := ?_ }
  all_goals simp only [forward_of_more hmore, forward_of_more hmore']
  . exact h.shows
  . show c'.pos + c'.width = c.pos + c.width + v.shift
    rw [h.width hin]
    omega
  . exact h.state
  . exact h.pen
  . show v.start ≤ c.pos + c.width
    omega
  . exact hwidth
  . exact h.stop
  . exact h.stop'

theorem prev_forward (h : Alike v rel c c') (hin : c.pos < v.reach) : c'.forward.prev = c.forward.prev := by
  rw [Cursor.prev_forward (h.more hin), Cursor.prev_forward (h.more' hin), h.cur hin]

theorem of_pen (h : Alike v rel c c') {pen pen' : Pen} {state state' : Style} (hstate : state' = state)
    (hdoc : c.doc.SameSource pen.doc) (hdoc' : c'.doc.SameSource pen'.doc) (hsegment : pen.segment ≤ c.pos)
    (hsegment' : pen'.segment ≤ c'.pos) (hrel : rel state pen pen') :
    Alike v rel { c with pen, state } { c' with pen := pen', state := state' } where
  shows := h.shows.of_sameSource hdoc hdoc'
  settled := h.settled.of_pen _ hdoc hsegment state
  settled' := h.settled'.of_pen _ hdoc' hsegment' state'
  pos := h.pos
  state := hstate
  pen := hrel
  start_le := h.start_le
  le_reach := h.le_reach
  stop := h.stop
  stop' := h.stop'

theorem setState (hrel : v.Closed loose rel) (h : Alike v rel c c') (state : Style) :
    Alike v rel (c.setState state) (c'.setState state) := by
  refine h.of_pen rfl (sameSource_colourTo _ _ _) (sameSource_colourTo _ _ _)
    h.settled.segment_colourTo_le h.settled'.segment_colourTo_le ?_
  show rel state (c.pen.colourTo c.pos c.state) (c'.pen.colourTo c'.pos c'.state)
  rw [h.state, h.pos]
  exact hrel.colourTo state h.shows h.start_le h.le_reach h.pen

theorem commit (hrel : v.Closed loose rel) (h : Alike v rel c c') : Alike v rel c.commit c'.commit := by
  refine h.of_pen h.state (sameSource_colourTo _ _ _) (sameSource_colourTo _ _ _)
    h.settled.segment_colourTo_le h.settled'.segment_colourTo_le ?_
  rw [h.state, h.pos]
  exact hrel.colourTo c.state h.shows h.start_le h.le_reach h.pen

theorem changeState (hrel : v.Closed loose rel) (h : Alike v rel c c') (hstate : loose c.state = false)
    (state : Style) : Alike v rel (c.changeState state) (c'.changeState state) :=
  h.of_pen rfl (Document.SameSource.refl _) (Document.SameSource.refl _) h.settled.segment_le h.settled'.segment_le
    (hrel.restyle state hstate h.pen)

theorem setLineState (hrel : v.Closed loose rel) (h : Alike v rel c c') {line : Nat} (hfirst : v.first ≤ line)
    (hlast : line < v.last) (state : LineState) :
    Alike v rel (c.setLineState line state) (c'.setLineState (line + v.shift) state) :=
  h.of_pen h.state (Document.sameSource_setLineState _ _ _) (Document.sameSource_setLineState _ _ _)
    h.settled.segment_le h.settled'.segment_le (hrel.setLineState state h.shows hfirst hlast h.pen)

theorem setLevel (hrel : v.Closed loose rel) (h : Alike v rel c c') {line : Nat} (hfirst : v.first ≤ line)
    (hlast : line < v.last) (level : Level) :
    Alike v rel (c.setLevel line level) (c'.setLevel (line + v.shift) level) :=
  h.of_pen h.state (Document.sameSource_setLevel _ _ _) (Document.sameSource_setLevel _ _ _)
    h.settled.segment_le h.settled'.segment_le (hrel.setLevel level h.shows hfirst hlast h.pen)

/--
The second pass is over at the end of the part if it is confined to it.
-/
theorem more'_iff (h : Alike v rel c c') (hstop : v.stop' = v.reach + v.shift) : c'.more = true ↔ c.pos < v.reach := by
  have := h.pos
  have := h.stop'
  simp only [Cursor.more, decide_eq_true_eq]
  omega

theorem pos_eq_reach (h : Alike v rel c c') (hstop : v.stop' = v.reach + v.shift) (hmore : c'.more = false) :
    c.pos = v.reach := by
  have := h.more'_iff hstop
  have := h.le_reach
  rw [hmore] at *
  simp only [Bool.false_eq_true, false_iff] at *
  omega

/--
The steps that are left in the part are among those that are left to each pass.
-/
theorem reach_sub_le_remaining (h : Alike v rel c c') :
    v.reach - c.pos ≤ c.remaining ∧ v.reach - c.pos ≤ c'.remaining := by
  have := h.shows.reach_le
  have := h.shows.reach_le'
  have := h.stop
  have := h.stop'
  have := h.pos
  rw [remaining, remaining]
  omega

/--
Where a pass ends, a line starts, if only the one behind the text.
-/
theorem atLineStart_of_reach (h : Alike v rel c c') (hpos : c.pos = v.reach) : c.atLineStart = true := by
  rw [h.settled.atLineStart, Bool.or_eq_true, decide_eq_true_eq, hpos]
  cases hwhole : v.whole with
  | true =>
    right
    rw [View.reach_of_whole hwhole, (h.shows.size_eq hwhole).1]
    exact Nat.lt_succ_self _
  | false =>
    left
    rw [View.reach_of_open hwhole]
    exact (h.shows.startsLine_limit hwhole).2.1

theorem line_of_reach (h : Alike v rel c c') (hpos : c.pos = v.reach) : c.line = v.last := by
  rw [h.settled.line, h.shows.last, hpos]
  cases hwhole : v.whole with
  | true =>
    have hsize := (h.shows.size_eq hwhole).1
    have hcount : c.doc.lineCount = c.doc.lineOf (v.limit + 1) + 1 := by
      rw [h.shows.wellFormed.lineOf_eq, ← hsize, Document.lineCount, h.shows.wellFormed.lines, count_ofText]
      refine congrArg (· + 1) (breaksBefore_eq_of_no_start (Nat.le_succ _) ?_).symm
      intro p hp _
      rw [Bool.eq_false_iff]
      intro hstart
      exact absurd (le_size_of_startsLine hstart) (Nat.not_le_of_lt hp)
    rw [View.reach_of_whole hwhole, hsize, if_pos (Nat.lt_succ_self _), if_pos rfl, hcount]
  | false =>
    have := h.shows.limit_le
    rw [View.reach_of_open hwhole, if_neg (by omega), if_neg (by decide)]
    rfl

theorem line_le_last (h : Alike v rel c c') : c.line ≤ v.last := by
  by_cases hin : c.pos < v.reach
  . exact Nat.le_of_lt (h.line_lt_last hin)
  . exact Nat.le_of_eq (h.line_of_reach (Nat.le_antisymm h.le_reach (Nat.le_of_not_lt hin)))

end Alike

/--
The cursor that a pass over whole lines starts with.
-/
theorem start_spanOf {doc : Document} (hdoc : doc.WellFormed) {start stop : Nat} (hstart : startsLine doc.text start = true)
    (hlt : start < stop) (hstop : IsBoundary doc.text stop) :
    Cursor.start doc (doc.spanOf start stop) = readNext
      { pen := ⟨doc, start⟩
        stop := doc.cursorStop stop
        pos := start
        line := doc.lineOf start
        width := (doc.decodeAt start).2
        nextWidth := 1
        atLineStart := true
        atLineEnd := false
        state := doc.styleBefore start
        prev := if 0 < start then (doc.byteAt (start - 1) 0).toNat else 0
        cur := (doc.decodeAt start).1
        next := 0 } := by
  have hspan : (doc.spanOf start stop).stop = stop := by
    show start + (stop - start) = stop
    omega
  have hline : doc.lineStart (doc.lineOf start) = start := by
    rw [hdoc.lineStart_lineOf, lineFloor_of_startsLine hstart]
  rw [Cursor.start, hdoc.wholeLines_spanOf hstart hlt hstop]
  simp only [hspan]
  rw [Document.spanOf]
  simp only [hline, beq_self_eq_true]
  rfl

/--
Passes over the same whole lines start with the same cursor.
-/
theorem start_congr {doc : Document} {span span' : Span} (h : doc.wholeLines span = doc.wholeLines span') :
    Cursor.start doc span = Cursor.start doc span' := by
  rw [Cursor.start, Cursor.start, h]

section Start

variable {doc doc' : Document} {start stop stop' : Nat}

theorem pos_start (hdoc : doc.WellFormed) (hstart : startsLine doc.text start = true) (hlt : start < stop)
    (hstop : IsBoundary doc.text stop) : (Cursor.start doc (doc.spanOf start stop)).pos = start := by
  rw [start_spanOf hdoc hstart hlt hstop]
  rfl

theorem line_start (hdoc : doc.WellFormed) (hstart : startsLine doc.text start = true) (hlt : start < stop)
    (hstop : IsBoundary doc.text stop) : (Cursor.start doc (doc.spanOf start stop)).line = doc.lineOf start := by
  rw [start_spanOf hdoc hstart hlt hstop]
  rfl

theorem state_start (hdoc : doc.WellFormed) (hstart : startsLine doc.text start = true) (hlt : start < stop)
    (hstop : IsBoundary doc.text stop) : (Cursor.start doc (doc.spanOf start stop)).state = doc.styleBefore start := by
  rw [start_spanOf hdoc hstart hlt hstop]
  rfl

theorem pen_start (hdoc : doc.WellFormed) (hstart : startsLine doc.text start = true) (hlt : start < stop)
    (hstop : IsBoundary doc.text stop) : (Cursor.start doc (doc.spanOf start stop)).pen = ⟨doc, start⟩ := by
  rw [start_spanOf hdoc hstart hlt hstop]
  rfl

theorem atLineStart_start (hdoc : doc.WellFormed) (hstart : startsLine doc.text start = true) (hlt : start < stop)
    (hstop : IsBoundary doc.text stop) : (Cursor.start doc (doc.spanOf start stop)).atLineStart = true := by
  rw [start_spanOf hdoc hstart hlt hstop]
  rfl

theorem more_start (hdoc : doc.WellFormed) (hstart : startsLine doc.text start = true) (hlt : start < stop)
    (hstop : IsBoundary doc.text stop) : (Cursor.start doc (doc.spanOf start stop)).more = true := by
  rw [start_spanOf hdoc hstart hlt hstop, more, decide_eq_true_eq]
  exact Nat.lt_of_lt_of_le hlt (doc.le_cursorStop stop)

theorem prev_start (hdoc : doc.WellFormed) (hstart : startsLine doc.text start = true) (hlt : start < stop)
    (hstop : IsBoundary doc.text stop) : (Cursor.start doc (doc.spanOf start stop)).prev
      = if 0 < start then (doc.byteAt (start - 1) 0).toNat else 0 := by
  rw [start_spanOf hdoc hstart hlt hstop]
  rfl

end Start

end Cursor

/--
Two passes that begin where the part of a view does, and go on up to `stop` and `stop'`.
-/
structure View.Begins (v : View) (doc doc' : Document) (stop stop' : Nat) : Prop where
  shows : v.Shows doc doc'
  startsLine : startsLine doc.text v.start = true
  lt_limit : v.start < v.limit
  limit_le : v.limit ≤ stop
  limit_le' : v.limit + v.shift ≤ stop'
  boundary : IsBoundary doc.text stop
  boundary' : IsBoundary doc'.text stop'
  stop : doc.cursorStop stop = v.stop
  stop' : doc'.cursorStop stop' = v.stop'

namespace View.Begins

variable {v : View} {doc doc' : Document} {stop stop' : Nat}

theorem startsLine' (h : v.Begins doc doc' stop stop') :
    LineIndex.startsLine doc'.text (v.start + v.shift) = true := by
  rw [h.shows.startsLine (Nat.le_of_lt h.lt_limit), h.startsLine]

theorem lt_stop (h : v.Begins doc doc' stop stop') : v.start < stop :=
  Nat.lt_of_lt_of_le h.lt_limit h.limit_le

theorem lt_stop' (h : v.Begins doc doc' stop stop') : v.start + v.shift < stop' :=
  Nat.lt_of_lt_of_le (Nat.add_lt_add_right h.lt_limit v.shift) h.limit_le'

theorem ofText {limit : Nat} (hdoc : doc.WellFormed) (hdoc' : doc'.WellFormed) (htext : doc'.text = doc.text)
    (hencoding : doc'.encoding = doc.encoding) (hoptions : doc'.options = doc.options) {start : Nat}
    (hstart : LineIndex.startsLine doc.text start = true) (hlt : start < limit) (hlimit : IsBoundary doc.text limit)
    (hle : limit ≤ stop) (hstop : IsBoundary doc.text stop) :
    (View.ofRange doc start limit stop).Begins doc doc' stop limit where
  shows := .ofText hdoc hdoc' htext hencoding hoptions hlt hlimit hle hstop.le_size
  startsLine := hstart
  lt_limit := hlt
  limit_le := hle
  limit_le' := Nat.le_refl _
  boundary := hstop
  boundary' := by rwa [IsBoundary, htext]
  stop := rfl
  stop' := by
    rw [Document.cursorStop, Document.size, htext]
    rfl

theorem ofRange {limit : Nat} (hdoc : doc.WellFormed) (hsame : doc.SameSource doc') {start : Nat}
    (hstart : LineIndex.startsLine doc.text start = true) (hlt : start < limit) (hlimit : IsBoundary doc.text limit)
    (hle : limit ≤ stop) (hstop : IsBoundary doc.text stop) :
    (View.ofRange doc start limit stop).Begins doc doc' stop limit :=
  .ofText hdoc (hsame.wellFormed hdoc) hsame.text hsame.encoding hsame.options hstart hlt hlimit hle hstop

theorem ofFront (hdoc : doc.WellFormed) (hdoc' : doc'.WellFormed) (hencoding : doc'.encoding = doc.encoding)
    (hoptions : doc'.options = doc.options) {front : Nat} (hpos : 0 < front)
    (htext : ∀ i : Nat, i < front → doc'.text[i]? = doc.text[i]?) (hstart : LineIndex.startsLine doc.text front = true)
    (hstart' : LineIndex.startsLine doc'.text front = true) (hle : front ≤ stop) (hle' : front ≤ stop')
    (hstop : IsBoundary doc.text stop) (hstop' : IsBoundary doc'.text stop') :
    (View.ofFront doc doc' front stop stop').Begins doc doc' stop stop' where
  shows :=
    { wellFormed := hdoc
      wellFormed' := hdoc'
      encoding := rfl
      encoding' := hencoding
      options := rfl
      options' := hoptions
      lead := fun i hi => absurd hi (Nat.not_lt_zero i)
      text := htext
      ends := ⟨hpos, hstart, hstart'⟩
      start_le := Nat.zero_le front
      first := hdoc.lineOf_zero.symm
      last := rfl
      reach_le := Nat.le_trans hle (doc.le_cursorStop stop)
      reach_le' := Nat.le_trans hle' (doc'.le_cursorStop stop') }
  startsLine := startsLine_zero
  lt_limit := hpos
  limit_le := hle
  limit_le' := hle'
  boundary := hstop
  boundary' := hstop'
  stop := rfl
  stop' := rfl

/--
The cursors that the two passes start with.
-/
theorem alike_start {rel : Style → Pen → Pen → Prop} (h : v.Begins doc doc' stop stop')
    (hstyle : doc'.styleBefore (v.start + v.shift) = doc.styleBefore v.start)
    (hrel : rel (doc.styleBefore v.start) ⟨doc, v.start⟩ ⟨doc', v.start + v.shift⟩) :
    Cursor.Alike v rel (Cursor.start doc (doc.spanOf v.start stop))
      (Cursor.start doc' (doc'.spanOf (v.start + v.shift) stop')) := by
  have hsettled := Cursor.settled_start doc h.shows.wellFormed (doc.spanOf v.start stop)
  have hsettled' := Cursor.settled_start doc' h.shows.wellFormed' (doc'.spanOf (v.start + v.shift) stop')
  have hlt := h.lt_limit
  have hreach := v.limit_le_reach
  rw [Cursor.start_spanOf h.shows.wellFormed h.startsLine h.lt_stop h.boundary] at hsettled ⊢
  rw [Cursor.start_spanOf h.shows.wellFormed' h.startsLine' h.lt_stop' h.boundary'] at hsettled' ⊢
  exact
    { shows := h.shows
      settled := hsettled
      settled' := hsettled'
      pos := rfl
      state := hstyle
      pen := hrel
      start_le := Nat.le_refl _
      le_reach := by
        show v.start ≤ v.reach
        omega
      stop := h.stop
      stop' := h.stop' }

end View.Begins

end Highlight
