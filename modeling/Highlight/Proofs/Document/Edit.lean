import Highlight.Proofs.Document.Span
import Highlight.Proofs.Document.Stores

/-!
Edits of a text without carriage returns. In front of the line of the edit everything stays as it was, and
there is one style for each byte and one state and one level for each line again.
-/

namespace Highlight

section Splice

variable {α : Type} {entries new : Array α} {start stop : Nat}

theorem getElem?_splice_of_lt {i : Nat} (hi : i < start) (hstart : start ≤ entries.size) :
    (splice entries start stop new)[i]? = entries[i]? := by
  rw [← Array.getElem?_toList, toList_splice, List.append_assoc, List.getElem?_append_left, List.getElem?_take_of_lt hi,
    Array.getElem?_toList]
  rw [List.length_take, Array.length_toList]
  omega

theorem not_mem_splice {x : α} (hentries : x ∉ entries) (hnew : x ∉ new) : x ∉ splice entries start stop new := by
  rw [← Array.mem_toList_iff] at hentries hnew ⊢
  rw [toList_splice, List.mem_append, List.mem_append]
  rintro ((h | h) | h)
  . exact hentries (List.mem_of_mem_take h)
  . exact hnew h
  . exact hentries (List.mem_of_mem_drop h)

end Splice

namespace LineIndex

variable {text text' : Array UInt8} {limit pos : Nat}

theorem endsLine_of_not_mem (h : 0x0D ∉ text) (pos : Nat) : endsLine text pos = (text[pos]? == some 0x0A) := by
  unfold endsLine
  split
  . next heq => rw [heq]; rfl
  . next heq => exact absurd (Array.mem_of_getElem? heq) h
  . next hfeed _ =>
    symm
    rw [beq_eq_false_iff_ne]
    exact hfeed

section Front

variable (h : 0x0D ∉ text) (h' : 0x0D ∉ text') (hfront : ∀ i : Nat, i < limit → text'[i]? = text[i]?)
include h h' hfront

theorem startsLine_congr (hpos : pos ≤ limit) : startsLine text' pos = startsLine text pos := by
  cases pos with
  | zero => rw [startsLine_zero, startsLine_zero]
  | succ pos => rw [startsLine_succ, startsLine_succ, endsLine_of_not_mem h, endsLine_of_not_mem h', hfront pos hpos]

theorem breaksBefore_congr (hpos : pos ≤ limit) : breaksBefore text' pos = breaksBefore text pos := by
  induction pos with
  | zero => rw [breaksBefore_zero, breaksBefore_zero]
  | succ pos ih => rw [breaksBefore_succ, breaksBefore_succ, ih (by omega), startsLine_congr h h' hfront hpos]

end Front

end LineIndex

namespace Document

open LineIndex

variable {doc : Document} {bytes : Array UInt8}

/--
What comes of `doc` by an edit behind the line start `front`.
-/
structure Edited (doc doc' : Document) (front : Nat) : Prop where
  wellFormed : doc'.WellFormed
  not_mem : 0x0D ∉ doc'.text
  encoding : doc'.encoding = doc.encoding
  options : doc'.options = doc.options
  startsLine : startsLine doc.text front = true
  text : ∀ i : Nat, i < front → doc'.text[i]? = doc.text[i]?
  styles : ∀ i : Nat, i < front → doc'.styles[i]? = doc.styles[i]?
  lineStates : ∀ l : Nat, l < doc.lineOf front → doc'.lineStates[l]? = doc.lineStates[l]?
  levels : ∀ l : Nat, l ≤ doc.lineOf front → doc'.levels[l]? = doc.levels[l]?
  endStyled : doc'.endStyled = min doc.endStyled front

/--
The front of an edited line begins where it did.
-/
theorem lineStart_of_front (hdoc : doc.WellFormed) {text : Array UInt8} (h : 0x0D ∉ doc.text) (h' : 0x0D ∉ text) {pos : Nat}
    (hfront : ∀ i : Nat, i < pos → text[i]? = doc.text[i]?) :
    (LineIndex.ofText text).lineStart (doc.lineOf pos) = lineFloor doc.text pos
      ∧ doc.lineOf (lineFloor doc.text pos) = doc.lineOf pos := by
  obtain ⟨hle, hstart, hno⟩ := lineFloor_spec doc.text pos
  have hline : breaksBefore doc.text pos = breaksBefore doc.text (lineFloor doc.text pos) :=
    breaksBefore_eq_of_no_start hle hno
  rw [hdoc.lineOf_eq, hdoc.lineOf_eq, hline]
  refine ⟨?_, rfl⟩
  rw [← breaksBefore_congr h h' hfront hle]
  exact lineStart_of_startsLine (by rw [startsLine_congr h h' hfront hle, hstart])

theorem edited_insert (hdoc : doc.WellFormed) (h : 0x0D ∉ doc.text) (hbytes : 0x0D ∉ bytes) (pos : Nat) :
    ∃ front, doc.Edited (doc.insert pos bytes) front := by
  have hpos : min pos doc.size ≤ doc.text.size := Nat.min_le_right _ _
  have hwell := wellFormed_insert hdoc pos bytes
  unfold insert at hwell ⊢
  dsimp only at hwell ⊢
  generalize min pos doc.size = pos at *
  have htext : 0x0D ∉ splice doc.text pos pos bytes := not_mem_splice h hbytes
  have hfront : ∀ i : Nat, i < pos → (splice doc.text pos pos bytes)[i]? = doc.text[i]? :=
    fun i hi => getElem?_splice_of_lt hi hpos
  obtain ⟨hlineStart, hline⟩ := lineStart_of_front hdoc h htext hfront
  have hle := lineFloor_le doc.text pos
  have hlt := hdoc.lineOf_lt pos
  have hstates := hdoc.lineStates
  have hlevels := hdoc.levels
  refine ⟨lineFloor doc.text pos, hwell, htext, rfl, rfl, startsLine_lineFloor _ _, ?_, ?_, ?_, ?_, ?_⟩
  . exact fun i hi => hfront i (by omega)
  . exact fun i hi => getElem?_splice_of_lt (by omega) (by rw [hdoc.styles]; exact hpos)
  . exact fun l hl => getElem?_splice_of_lt (by omega) (Nat.min_le_right _ _)
  . exact fun l hl => getElem?_splice_of_lt (by omega) (by omega)
  . exact congrArg (min doc.endStyled) hlineStart

theorem edited_delete (hdoc : doc.WellFormed) (h : 0x0D ∉ doc.text) (start stop : Nat) :
    doc.delete start stop = doc ∨ ∃ front, doc.Edited (doc.delete start stop) front := by
  have hstop : min stop doc.size ≤ doc.text.size := Nat.min_le_right _ _
  have hwell := wellFormed_delete hdoc start stop
  unfold delete at hwell ⊢
  dsimp only at hwell ⊢
  generalize min stop doc.size = stop at *
  have hstart : min start stop ≤ stop := Nat.min_le_right _ _
  generalize min start stop = start at *
  split at hwell
  . next heq => exact .inl (if_pos heq)
  . next hne =>
    rw [if_neg hne]
    right
    have htext : 0x0D ∉ splice doc.text start stop #[] := not_mem_splice h (Array.not_mem_empty _)
    have hfront : ∀ i : Nat, i < start → (splice doc.text start stop #[])[i]? = doc.text[i]? :=
      fun i hi => getElem?_splice_of_lt hi (by omega)
    obtain ⟨hlineStart, hline⟩ := lineStart_of_front hdoc h htext hfront
    have hle := lineFloor_le doc.text start
    have hlt := hdoc.lineOf_lt start
    have hstates := hdoc.lineStates
    have hlevels := hdoc.levels
    refine ⟨lineFloor doc.text start, hwell, htext, rfl, rfl, startsLine_lineFloor _ _, ?_, ?_, ?_, ?_, ?_⟩
    . exact fun i hi => hfront i (by omega)
    . exact fun i hi => getElem?_splice_of_lt (by omega) (by rw [hdoc.styles, Document.size]; omega)
    . exact fun l hl => getElem?_splice_of_lt (by omega) (Nat.min_le_right _ _)
    . exact fun l hl => getElem?_splice_of_lt (by omega) (by omega)
    . exact congrArg (min doc.endStyled) hlineStart

end Document

end Highlight
