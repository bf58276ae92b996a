import Highlight.Proofs.Cursor.Moves
import Highlight.Proofs.Document.Seam
import Highlight.Proofs.Document.Stores
import Highlight.Proofs.Fold.Folding

/-!
Cursors within a line, the bytes they go over, and the character that ends the line.
-/

namespace Highlight

open LineIndex

/--
The characters that show nothing.
-/
def Code.spaces : List Code :=
  [0x09, 0x0A, 0x0B, 0x0C, 0x0D, 0x20]

theorem Code.mem_spaces {x : Code} (h : x.isSpace = true) : x ∈ Code.spaces := by
  unfold isSpace at h
  rw [Bool.or_eq_true, beq_iff_eq, Bool.and_eq_true, decide_eq_true_eq, decide_eq_true_eq] at h
  rcases h with rfl | ⟨hlow, hhigh⟩
  . decide
  . have : ∀ x : Nat, x < 0x0E → 0x09 ≤ x → x ∈ Code.spaces := by decide
    exact this x (Nat.lt_succ_of_le hhigh) hlow

namespace Cursor

variable {doc marks : Document} {line i : Nat} {c : Cursor}

/--
A cursor of a pass over all of the text of `doc` that stands on a line and has left the states and levels of `marks` as they are.
-/
structure OnLine (doc marks : Document) (line : Nat) (c : Cursor) : Prop where
  onText : c.OnText doc
  pos_le : c.pos ≤ doc.size
  line : c.line = line
  lineStates : c.doc.lineStates = marks.lineStates
  levels : c.doc.levels = marks.levels

theorem OnText.onLine (h : c.OnText doc) (hpos : c.pos ≤ doc.size) : c.OnLine doc c.doc c.line :=
  ⟨h, hpos, rfl, rfl, rfl⟩

theorem OnText.setLevel (h : c.OnText doc) (line : Nat) (level : Level) : (c.setLevel line level).OnText doc where
  source := h.source.trans (Document.sameSource_setLevel _ _ _)
  settled := h.settled.setLevel line level
  stop := h.stop
  pos_le := h.pos_le

namespace OnLine

theorem setState (h : c.OnLine doc marks line) (style : Style) : (c.setState style).OnLine doc marks line where
  onText := h.onText.setState style
  pos_le := h.pos_le
  line := h.line
  lineStates := (Pen.lineStates_colourTo _ _ _).trans h.lineStates
  levels := (Pen.levels_colourTo _ _ _).trans h.levels

theorem changeState (h : c.OnLine doc marks line) (style : Style) : (c.changeState style).OnLine doc marks line where
  onText := h.onText.changeState style
  pos_le := h.pos_le
  line := h.line
  lineStates := h.lineStates
  levels := h.levels

theorem more (h : c.OnLine doc marks line) : c.more = true :=
  h.onText.more_iff.mpr h.pos_le

theorem forward (h : c.OnLine doc marks line) (hend : c.atLineEnd = false) : c.forward.OnLine doc marks line where
  onText := h.onText.forward h.pos_le
  pos_le := by
    rw [h.onText.settled.atLineEnd, Bool.or_eq_false_iff, decide_eq_false_iff_not, h.onText.size_eq] at hend
    have hle := h.onText.settled.pos_add_width_le_size (by rw [h.onText.size_eq]; omega)
    rw [h.onText.size_eq] at hle
    rw [pos_forward h.more]
    exact hle
  line := by
    rw [line_forward h.more, hend]
    exact h.line
  lineStates := by
    rw [doc_forward]
    exact h.lineStates
  levels := by
    rw [doc_forward]
    exact h.levels

theorem atLineStart_forward (h : c.OnLine doc marks line) (hend : c.atLineEnd = false) : c.forward.atLineStart = false :=
  (Cursor.atLineStart_forward h.more).trans hend

/--
At the start of the line, nothing of it has been passed.
-/
theorem pos_eq_lineStart (h : c.OnLine doc marks line) (hstart : c.atLineStart = true) : c.pos = doc.lineStart line := by
  have hpos := (h.onText.settled.follows (by rw [h.onText.size_eq]; exact h.pos_le)).atLineStart.mp hstart
  rwa [h.line, Document.lineStart, h.onText.source.lines] at hpos

theorem lineStart_le_pos (h : c.OnLine doc marks line) : doc.lineStart line ≤ c.pos := by
  have hsettled := h.onText.settled
  have hfloor := hsettled.wellFormed.lineStart_lineOf c.pos
  have hline := hsettled.line
  rw [h.onText.size_eq, if_neg (Nat.not_lt_of_le h.pos_le), Nat.add_zero, h.line] at hline
  rw [← hline, Document.lineStart, h.onText.source.lines] at hfloor
  exact Nat.le_trans (Nat.le_of_eq hfloor) (lineFloor_le _ _)

/--
The character that ends the line reaches its end.
-/
theorem lineStart_le (h : c.OnLine doc marks line) (hend : c.atLineEnd = true) : doc.lineStart (line + 1) ≤ c.pos + c.width := by
  have hsettled := h.onText.settled
  have hfollows := hsettled.follows (by rw [h.onText.size_eq]; exact h.pos_le)
  have hcloses : c.closesLine = true := by
    rw [closesLine_eq hsettled.wellFormed hsettled.width_eq hsettled.line, ← hsettled.atLineEnd, hend]
  unfold closesLine at hcloses
  rw [h.line, Document.lineStart, h.onText.source.lines] at hcloses
  show doc.lines.lineStart (line + 1) ≤ _
  split at hcloses
  . exact of_decide_eq_true hcloses
  . exact Nat.le_of_lt (of_decide_eq_true hcloses)

/--
The bytes of that character are spaces, unless it is one of several bytes that takes the terminator in.
-/
theorem isSpace_of_atLineEnd (h : c.OnLine doc marks line) (hend : c.atLineEnd = true) (hle : c.pos ≤ i)
    (hlt : i < doc.lineStart (line + 1)) : Code.isSpace (doc.byteAt i 0x20).toNat = true
      ∨ i + 1 < c.pos + (doc.decodeAt c.pos).2 ∧ endsLine doc.text (c.pos + (doc.decodeAt c.pos).2 - 1) = true := by
  have hsettled := h.onText.settled
  have hstart : c.doc.lineStart (line + 1) = doc.lineStart (line + 1) := by
    rw [Document.lineStart, h.onText.source.lines]
    rfl
  have hsize := hsettled.wellFormed.lineStart_le_size (line + 1)
  rw [hstart, h.onText.size_eq] at hsize
  have hreach := h.lineStart_le hend
  have hends := hsettled.atLineEnd
  rw [hend, h.onText.source.text, h.onText.size_eq, decide_eq_false (by omega), Bool.or_false] at hends
  rw [← h.onText.decodeAt_eq, ← hsettled.width_eq]
  rcases Nat.lt_or_ge (i + 1) (c.pos + c.width) with hbefore | hlast
  . exact .inr ⟨hbefore, hends.symm⟩
  . obtain rfl : i = c.pos + c.width - 1 := by omega
    exact .inl (isSpace_of_endsLine hends.symm _)

/--
The bytes of a blank are spaces.
-/
theorem isSpace_of_cur (h : c.OnLine doc marks line) (hspace : c.cur.isSpace = true) (hle : c.pos ≤ i) (hlt : i < c.pos + c.width) :
    Code.isSpace (doc.byteAt i 0x20).toNat = true := by
  rw [h.onText.settled.cur_eq, h.onText.decodeAt_eq, Document.decodeAt] at hspace
  rw [h.onText.settled.width_eq, h.onText.decodeAt_eq, Document.decodeAt] at hlt
  have hbounds : ∀ x ∈ Code.spaces, x < 0x80 ∧ x ≠ 0 := by decide
  obtain ⟨hascii, hzero⟩ := hbounds _ (Code.mem_spaces hspace)
  obtain ⟨b, hb, hread⟩ := doc.encoding.ascii_of_decodeAt hascii hzero
  rw [hread] at hspace hlt
  obtain rfl : i = c.pos := by
    have hlt : i < c.pos + 1 := hlt
    omega
  rw [Document.byteAt, hb]
  exact hspace

end OnLine

end Cursor

end Highlight
