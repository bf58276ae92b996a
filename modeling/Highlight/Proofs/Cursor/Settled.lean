import Highlight.Cursor
import Highlight.Proofs.Document.Span

/-!
What a cursor shows is decided by its document and its position: going forward keeps the characters,
the line and the flags in step with the text.
-/

namespace Highlight

open LineIndex

namespace Cursor

/--
A cursor that shows what stands at its position. It is on the text or one position past it, and there
it counts as standing on one line more.
-/
structure Settled (c : Cursor) : Prop where
  wellFormed : c.doc.WellFormed
  cur : (c.cur, c.width) = c.doc.decodeAt c.pos
  next : (c.next, c.nextWidth) = c.doc.decodeAt (c.pos + c.width)
  line : c.line = c.doc.lineOf c.pos + if c.doc.size < c.pos then 1 else 0
  atLineStart : c.atLineStart = (startsLine c.doc.text c.pos || decide (c.doc.size < c.pos))
  atLineEnd : c.atLineEnd = (endsLine c.doc.text (c.pos + c.width - 1) || decide (c.doc.size ≤ c.pos))
  stop_le : c.stop ≤ c.doc.size + 1
  segment_le : c.pen.segment ≤ c.pos

variable {c : Cursor}

theorem Settled.width_eq (h : c.Settled) : c.width = (c.doc.decodeAt c.pos).2 := by
  rw [← h.cur]

theorem Settled.cur_eq (h : c.Settled) : c.cur = (c.doc.decodeAt c.pos).1 := by
  rw [← h.cur]

theorem Settled.next_eq (h : c.Settled) : c.next = (c.doc.decodeAt (c.pos + c.width)).1 := by
  rw [← h.next]

theorem Settled.width_pos (h : c.Settled) : 0 < c.width := by
  rw [h.width_eq]
  exact Encoding.decodeAt_width_pos _ _ _

theorem closesLine_of_le (hdoc : c.doc.WellFormed) (hwidth : c.width = (c.doc.decodeAt c.pos).2)
    (hline : c.line = c.doc.lineOf c.pos) (hpos : c.pos ≤ c.doc.size) :
    c.closesLine = (endsLine c.doc.text (c.pos + c.width - 1) || decide (c.doc.size ≤ c.pos)) := by
  have hwidthPos : 0 < c.width := by
    rw [hwidth]
    exact Encoding.decodeAt_width_pos _ _ _
  have hstart : startsLine c.doc.text (c.pos + c.width) = endsLine c.doc.text (c.pos + c.width - 1) := by
    rw [← startsLine_succ, Nat.sub_add_cancel (by omega)]
  rw [closesLine, hline, hdoc.lineOf_eq, ← hstart, Document.lineCount, Document.lineStart, hdoc.lines]
  rcases next_lineStart_cases c.pos (show c.pos ≤ c.doc.text.size from hpos) with
    ⟨next, hlt, hnext, hno, hcount, hline'⟩ | ⟨hno, hcount, hline'⟩
  . have hle : c.pos + c.width ≤ next := by
      rw [hwidth]
      exact Encoding.decodeAt_le_of_startsLine _ hnext hlt
    have hsize := le_size_of_startsLine hnext
    have hin : ¬ c.doc.size ≤ c.pos := by
      rw [Document.size]
      omega
    rw [if_pos hcount, hline']
    by_cases hreach : next ≤ c.pos + c.width
    . rw [show c.pos + c.width = next by omega, hnext]
      simp
    . rw [hno _ (by omega) (by omega)]
      simp [hreach, hin]
  . rw [if_neg (by omega), hline', hno _ (by omega), Bool.false_or]
    by_cases hin : c.doc.size ≤ c.pos
    . have : c.doc.text.size < c.pos + c.width := by
        rw [Document.size] at hin
        omega
      simp [hin, this]
    . have hle : c.pos + c.width ≤ c.doc.text.size := by
        rw [hwidth]
        rw [Document.size] at hin
        exact Encoding.decodeAt_le_size _ (by omega)
      have : ¬ c.doc.text.size < c.pos + c.width := by omega
      simp [hin, this]

/--
The test for the last character of a line, read off the text.
-/
theorem closesLine_eq (hdoc : c.doc.WellFormed) (hwidth : c.width = (c.doc.decodeAt c.pos).2)
    (hline : c.line = c.doc.lineOf c.pos + if c.doc.size < c.pos then 1 else 0) :
    c.closesLine = (endsLine c.doc.text (c.pos + c.width - 1) || decide (c.doc.size ≤ c.pos)) := by
  by_cases hpos : c.doc.size < c.pos
  . rw [if_pos hpos] at hline
    have hcount : c.doc.lineCount ≤ c.doc.lineOf c.pos + 1 := by
      rw [hdoc.lineOf_eq, Document.lineCount, hdoc.lines, count_ofText]
      rw [Document.size] at hpos
      have : breaksBefore c.doc.text c.doc.text.size ≤ breaksBefore c.doc.text c.pos :=
        breaksBefore_mono (Nat.le_of_lt hpos)
      omega
    have hlast : c.doc.lineStart (c.line + 1) = c.doc.size := by
      rw [Document.lineStart, hdoc.lines, lineStart_of_count_le]
      . rfl
      . rw [Document.lineCount, hdoc.lines] at hcount
        omega
    have hge : c.doc.size ≤ c.pos := by omega
    have hlt : c.doc.size < c.pos + c.width := by omega
    rw [closesLine, if_neg (by omega), hlast]
    simp [hge, hlt]
  . rw [if_neg hpos, Nat.add_zero] at hline
    exact closesLine_of_le hdoc hwidth hline (by omega)

/--
A cursor has read all it shows if it has done so up to its current character.
-/
theorem settled_readNext (hdoc : c.doc.WellFormed) (hcur : (c.cur, c.width) = c.doc.decodeAt c.pos)
    (hline : c.line = c.doc.lineOf c.pos + if c.doc.size < c.pos then 1 else 0)
    (hstart : c.atLineStart = (startsLine c.doc.text c.pos || decide (c.doc.size < c.pos)))
    (hstop : c.stop ≤ c.doc.size + 1) (hsegment : c.pen.segment ≤ c.pos) : c.readNext.Settled where
  wellFormed := hdoc
  cur := hcur
  next := rfl
  line := hline
  atLineStart := hstart
  atLineEnd := closesLine_eq hdoc (congrArg Prod.snd hcur) hline
  stop_le := hstop
  segment_le := hsegment

theorem Settled.of_pen (h : c.Settled) (pen : Pen) (hpen : c.doc.SameSource pen.doc)
    (hsegment : pen.segment ≤ c.pos) (state : Style) : Settled { c with pen, state } where
  wellFormed := hpen.wellFormed h.wellFormed
  cur := by
    have := h.cur
    rwa [Document.decodeAt, ← hpen.text, ← hpen.encoding] at this
  next := by
    have := h.next
    rwa [Document.decodeAt, ← hpen.text, ← hpen.encoding] at this
  line := by
    have := h.line
    rwa [← hpen.lineOf, ← hpen.size] at this
  atLineStart := by
    have := h.atLineStart
    rwa [← hpen.text, ← hpen.size] at this
  atLineEnd := by
    have := h.atLineEnd
    rwa [← hpen.text, ← hpen.size] at this
  stop_le := by
    have := h.stop_le
    rwa [← hpen.size] at this
  segment_le := hsegment

theorem sameSource_colourTo (pen : Pen) (stop : Nat) (style : Style) :
    pen.doc.SameSource (pen.colourTo stop style).doc := by
  rw [Pen.colourTo_eq]
  exact Document.sameSource_setStyles _ _ _ _

theorem Settled.segment_colourTo_le (h : c.Settled) : (c.pen.colourTo c.pos c.state).segment ≤ c.pos := by
  have := h.segment_le
  rw [Pen.colourTo_eq]
  show max c.pen.segment (min c.pos c.pen.doc.size) ≤ c.pos
  omega

theorem Settled.setState (h : c.Settled) (state : Style) : (c.setState state).Settled :=
  h.of_pen _ (sameSource_colourTo _ _ _) h.segment_colourTo_le state

theorem Settled.changeState (h : c.Settled) (state : Style) : (c.changeState state).Settled :=
  h.of_pen _ (Document.SameSource.refl _) h.segment_le state

theorem Settled.setLineState (h : c.Settled) (line : Nat) (state : LineState) : (c.setLineState line state).Settled :=
  h.of_pen (c.pen.setLineState line state) (Document.sameSource_setLineState _ _ _) h.segment_le c.state

theorem Settled.setLevel (h : c.Settled) (line : Nat) (level : Level) : (c.setLevel line level).Settled :=
  h.of_pen (c.pen.setLevel line level) (Document.sameSource_setLevel _ _ _) h.segment_le c.state

theorem forward_of_more (h : c.more = true) :
    c.forward = readNext { c with
      atLineStart := c.atLineEnd
      line := if c.atLineEnd then c.line + 1 else c.line
      prev := c.cur
      pos := c.pos + c.width
      cur := c.next
      width := c.nextWidth } := by
  rw [forward, if_pos h]

theorem Settled.pos_le (h : c.Settled) (hmore : c.more = true) : c.pos ≤ c.doc.size := by
  have := h.stop_le
  simp only [more, decide_eq_true_eq] at hmore
  omega

/--
A character of the text ends inside of the text.
-/
theorem Settled.pos_add_width_le (h : c.Settled) (_hpos : c.pos ≤ c.doc.size) :
    c.pos + c.width ≤ c.doc.size + 1 := by
  rw [h.width_eq]
  by_cases hlt : c.pos < c.doc.size
  . have := Encoding.decodeAt_le_size c.doc.encoding (show c.pos < c.doc.text.size from hlt)
    simp only [Document.decodeAt, Document.size] at *
    omega
  . rw [Document.decodeAt, Encoding.decodeAt_of_size_le]
    . dsimp
      omega
    . rw [Document.size] at hlt
      omega

/--
The next position is on the text, unless this one is the end of it.
-/
theorem Settled.pos_add_width_le_size (h : c.Settled) (hlt : c.pos < c.doc.size) : c.pos + c.width ≤ c.doc.size := by
  rw [h.width_eq]
  exact Encoding.decodeAt_le_size c.doc.encoding hlt

theorem Settled.width_of_pos_eq (h : c.Settled) (hpos : c.doc.size ≤ c.pos) : c.width = 1 := by
  rw [h.width_eq, Document.decodeAt, Encoding.decodeAt_of_size_le]
  exact hpos

theorem Settled.breaksBefore_forward (h : c.Settled) (_hpos : c.pos < c.doc.size) :
    breaksBefore c.doc.text (c.pos + c.width)
      = breaksBefore c.doc.text c.pos + if endsLine c.doc.text (c.pos + c.width - 1) then 1 else 0 := by
  have hwidth := h.width_pos
  obtain ⟨m, hm⟩ : ∃ m, c.pos + c.width = m + 1 := ⟨c.pos + c.width - 1, by omega⟩
  rw [hm, breaksBefore_succ, startsLine_succ, Nat.add_sub_cancel,
    breaksBefore_eq_of_no_start (show c.pos ≤ m by omega)]
  intro p hp hp'
  rw [Bool.eq_false_iff]
  intro hstart
  have := Encoding.decodeAt_le_of_startsLine c.doc.encoding hstart hp
  have := h.width_eq
  rw [Document.decodeAt] at this
  omega

theorem Settled.forward (h : c.Settled) (hmore : c.more = true) : c.forward.Settled := by
  have hpos := h.pos_le hmore
  have hreach := h.pos_add_width_le hpos
  have hwidth := h.width_pos
  have hend : startsLine c.doc.text (c.pos + c.width) = endsLine c.doc.text (c.pos + c.width - 1) := by
    rw [← startsLine_succ, Nat.sub_add_cancel (by omega)]
  have hline : (if c.atLineEnd then c.line + 1 else c.line)
      = c.doc.lineOf (c.pos + c.width) + if c.doc.size < c.pos + c.width then 1 else 0 := by
    rw [h.line, h.atLineEnd, h.wellFormed.lineOf_eq, h.wellFormed.lineOf_eq,
      if_neg (show ¬ c.doc.size < c.pos by omega), Nat.add_zero]
    by_cases hlt : c.pos < c.doc.size
    . have := h.pos_add_width_le_size hlt
      have hin : ¬ c.doc.size ≤ c.pos := by omega
      rw [h.breaksBefore_forward hlt, if_neg (show ¬ c.doc.size < c.pos + c.width by omega)]
      simp only [hin, decide_false, Bool.or_false, Nat.add_zero]
      split <;> rfl
    . have hsize : c.doc.size ≤ c.pos := by omega
      rw [h.width_of_pos_eq hsize, if_pos (show c.doc.size < c.pos + 1 by omega), breaksBefore_succ]
      have : startsLine c.doc.text (c.pos + 1) = false := by
        rw [Bool.eq_false_iff]
        intro hstart
        have := le_size_of_startsLine hstart
        rw [Document.size] at hsize
        omega
      simp [this, hsize]
  rw [forward_of_more hmore]
  refine settled_readNext h.wellFormed h.next hline ?_ h.stop_le (Nat.le_trans h.segment_le (Nat.le_add_right _ _))
  . show c.atLineEnd = (startsLine c.doc.text (c.pos + c.width) || decide (c.doc.size < c.pos + c.width))
    rw [h.atLineEnd, hend]
    by_cases hlt : c.pos < c.doc.size
    . have := h.pos_add_width_le_size hlt
      have h1 : ¬ c.doc.size ≤ c.pos := by omega
      have h2 : ¬ c.doc.size < c.pos + c.width := by omega
      simp [h1, h2]
    . have h1 : c.doc.size ≤ c.pos := by omega
      have h2 : c.doc.size < c.pos + c.width := by omega
      simp [h1, h2]

/--
A pass starts at the start of a line.
-/
theorem settled_start (doc : Document) (hdoc : doc.WellFormed) (span : Span) : (start doc span).Settled := by
  have hle := hdoc.wholeLines_start_le span
  have hstarts := hdoc.startsLine_wholeLines_start span
  have hstop := hdoc.wholeLines_stop_le span
  refine settled_readNext hdoc rfl ?_ ?_ ?_ (Nat.le_refl _)
  . show doc.lineOf (doc.wholeLines span).start
      = doc.lineOf (doc.wholeLines span).start + if doc.size < (doc.wholeLines span).start then 1 else 0
    rw [if_neg (by omega), Nat.add_zero]
  . show (doc.lineStart (doc.lineOf (doc.wholeLines span).start) == (doc.wholeLines span).start)
      = (startsLine doc.text (doc.wholeLines span).start || decide (doc.size < (doc.wholeLines span).start))
    rw [hdoc.lineStart_lineOf, lineFloor_of_startsLine hstarts, hstarts]
    simp
  . show (if (doc.wholeLines span).stop == doc.size then (doc.wholeLines span).stop + 1
      else (doc.wholeLines span).stop) ≤ doc.size + 1
    split
    . exact Nat.succ_le_succ hstop
    . exact Nat.le_succ_of_le hstop

end Cursor

end Highlight
