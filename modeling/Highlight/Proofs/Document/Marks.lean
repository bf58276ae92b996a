import Highlight.Pen
import Highlight.Proofs.Text.Encoding

/-!
The marks of a document are its styles, line states and levels. A pass reads the source, which is all
the rest, and writes marks.
-/

namespace Highlight

namespace Document

/--
There is one style for each byte, and one state and one level for each line of the text.
-/
structure WellFormed (doc : Document) : Prop where
  lines : doc.lines = LineIndex.ofText doc.text
  styles : doc.styles.size = doc.size
  lineStates : doc.lineStates.size = doc.lineCount
  levels : doc.levels.size = doc.lineCount

/--
Two documents that differ in the values of their marks at most.
-/
structure SameSource (doc doc' : Document) : Prop where
  text : doc'.text = doc.text
  lines : doc'.lines = doc.lines
  options : doc'.options = doc.options
  encoding : doc'.encoding = doc.encoding
  endStyled : doc'.endStyled = doc.endStyled
  styles : doc'.styles.size = doc.styles.size
  lineStates : doc'.lineStates.size = doc.lineStates.size
  levels : doc'.levels.size = doc.levels.size

variable {doc doc' doc'' : Document}

theorem SameSource.refl (doc : Document) : SameSource doc doc :=
  ⟨rfl, rfl, rfl, rfl, rfl, rfl, rfl, rfl⟩

theorem SameSource.symm (h : SameSource doc doc') : SameSource doc' doc where
  text := h.text.symm
  lines := h.lines.symm
  options := h.options.symm
  encoding := h.encoding.symm
  endStyled := h.endStyled.symm
  styles := h.styles.symm
  lineStates := h.lineStates.symm
  levels := h.levels.symm

theorem SameSource.trans (h : SameSource doc doc') (h' : SameSource doc' doc'') : SameSource doc doc'' where
  text := h'.text.trans h.text
  lines := h'.lines.trans h.lines
  options := h'.options.trans h.options
  encoding := h'.encoding.trans h.encoding
  endStyled := h'.endStyled.trans h.endStyled
  styles := h'.styles.trans h.styles
  lineStates := h'.lineStates.trans h.lineStates
  levels := h'.levels.trans h.levels

theorem SameSource.size (h : SameSource doc doc') : doc'.size = doc.size := by
  rw [Document.size, Document.size, h.text]

theorem SameSource.lineCount (h : SameSource doc doc') : doc'.lineCount = doc.lineCount := by
  rw [Document.lineCount, Document.lineCount, h.lines]

theorem SameSource.lineOf (h : SameSource doc doc') (pos : Nat) : doc'.lineOf pos = doc.lineOf pos := by
  rw [Document.lineOf, Document.lineOf, h.lines]

theorem SameSource.wellFormed (h : SameSource doc doc') (hdoc : doc.WellFormed) : doc'.WellFormed where
  lines := by rw [h.lines, h.text, hdoc.lines]
  styles := by rw [h.styles, h.size, hdoc.styles]
  lineStates := by rw [h.lineStates, h.lineCount, hdoc.lineStates]
  levels := by rw [h.levels, h.lineCount, hdoc.levels]

theorem wellFormed_ofText (text : Array UInt8) : (ofText text).WellFormed where
  lines := rfl
  styles := Array.size_replicate
  lineStates := Array.size_replicate
  levels := Array.size_replicate

/--
A text that nothing is known about yet, in an encoding and with options.
-/
def fresh (text : Array UInt8) (encoding : Encoding) (options : Options) : Document :=
  { ofText text with encoding, options }

theorem wellFormed_fresh (text : Array UInt8) (encoding : Encoding) (options : Options) :
    (fresh text encoding options).WellFormed :=
  ⟨rfl, (wellFormed_ofText text).styles, (wellFormed_ofText text).lineStates, (wellFormed_ofText text).levels⟩

/--
Documents with the same source and the same marks are the same.
-/
theorem SameSource.eq (h : SameSource doc doc') (hstyles : ∀ i : Nat, doc'.styles[i]? = doc.styles[i]?)
    (hstates : ∀ l : Nat, doc'.lineStates[l]? = doc.lineStates[l]?) (hlevels : ∀ l : Nat, doc'.levels[l]? = doc.levels[l]?) :
    doc' = doc := by
  cases doc
  cases doc'
  simp only [Document.mk.injEq]
  exact ⟨h.text, Array.ext_getElem? hstyles, h.lines, Array.ext_getElem? hstates, Array.ext_getElem? hlevels,
    h.options, h.encoding, h.endStyled⟩

namespace WellFormed

theorem lineOf_eq (h : doc.WellFormed) (pos : Nat) : doc.lineOf pos = LineIndex.breaksBefore doc.text pos := by
  rw [Document.lineOf, h.lines, LineIndex.lineOf_ofText]

theorem lineOf_zero (h : doc.WellFormed) : doc.lineOf 0 = 0 := by
  rw [h.lineOf_eq, LineIndex.breaksBefore_zero]

theorem lineStart_eq (h : doc.WellFormed) (line : Nat) : doc.lineStart line = (LineIndex.ofText doc.text).lineStart line := by
  rw [Document.lineStart, h.lines]

theorem lineStart_lineOf (h : doc.WellFormed) (pos : Nat) :
    doc.lineStart (doc.lineOf pos) = LineIndex.lineFloor doc.text pos := by
  rw [Document.lineStart, Document.lineOf, h.lines]
  rfl

theorem lineOf_lt (h : doc.WellFormed) (pos : Nat) : doc.lineOf pos < doc.lineCount := by
  rw [Document.lineOf, Document.lineCount, h.lines]
  exact LineIndex.lineOf_lt_count doc.text pos

end WellFormed

theorem size_paint (styles : Array Style) (pos : Nat) (style : Style) (count : Nat) :
    (paint styles pos style count).size = styles.size := by
  induction count generalizing styles pos with
  | zero => rfl
  | succ count ih =>
    rw [paint, ih]
    exact Array.size_setIfInBounds

theorem getElem?_paint (styles : Array Style) (pos : Nat) (style : Style) (count i : Nat) :
    (paint styles pos style count)[i]?
      = if pos ≤ i ∧ i < pos + count then styles[i]?.map (fun _ => style) else styles[i]? := by
  induction count generalizing styles pos with
  | zero =>
    rw [paint, if_neg]
    omega
  | succ count ih =>
    rw [paint, ih]
    by_cases hi : pos = i
    . subst hi
      rw [if_neg (by omega), if_pos (by omega), Array.getElem?_setIfInBounds_self]
      split
      . next hlt =>
        rw [Array.getElem?_eq_getElem hlt]
        rfl
      . next hge =>
        rw [Array.getElem?_eq_none (by omega)]
        rfl
    . rw [Array.getElem?_setIfInBounds_ne hi]
      by_cases hin : pos + 1 ≤ i ∧ i < pos + 1 + count
      . rw [if_pos hin, if_pos (by omega)]
      . rw [if_neg hin, if_neg (by omega)]

theorem getElem?_setStyles (doc : Document) (start stop : Nat) (style : Style) (i : Nat) :
    (doc.setStyles start stop style).styles[i]?
      = if start ≤ i ∧ i < stop then doc.styles[i]?.map (fun _ => style) else doc.styles[i]? := by
  rw [setStyles, getElem?_paint]
  by_cases hi : i < doc.styles.size
  . by_cases hin : start ≤ i ∧ i < stop
    . rw [if_pos hin, if_pos (by omega)]
    . rw [if_neg hin, if_neg (by omega)]
  . rw [Array.getElem?_eq_none (by omega)]
    split <;> split <;> rfl

theorem sameSource_setStyles (doc : Document) (start stop : Nat) (style : Style) :
    SameSource doc (doc.setStyles start stop style) :=
  ⟨rfl, rfl, rfl, rfl, rfl, size_paint _ _ _ _, rfl, rfl⟩

theorem sameSource_setLineState (doc : Document) (line : Nat) (state : LineState) :
    SameSource doc (doc.setLineState line state) :=
  ⟨rfl, rfl, rfl, rfl, rfl, rfl, Array.size_setIfInBounds, rfl⟩

theorem sameSource_setLevel (doc : Document) (line : Nat) (level : Level) :
    SameSource doc (doc.setLevel line level) :=
  ⟨rfl, rfl, rfl, rfl, rfl, rfl, rfl, Array.size_setIfInBounds⟩

theorem getElem?_setLineState (doc : Document) (line : Nat) (state : LineState) (l : Nat) :
    (doc.setLineState line state).lineStates[l]?
      = if line = l then doc.lineStates[l]?.map (fun _ => state) else doc.lineStates[l]? := by
  rw [setLineState, Array.getElem?_setIfInBounds]
  split
  . next h =>
    subst h
    split
    . next hlt =>
      rw [Array.getElem?_eq_getElem hlt]
      rfl
    . next hge =>
      rw [Array.getElem?_eq_none (by omega)]
      rfl
  . rfl

theorem getElem?_setLevel (doc : Document) (line : Nat) (level : Level) (l : Nat) :
    (doc.setLevel line level).levels[l]?
      = if line = l then doc.levels[l]?.map (fun _ => level) else doc.levels[l]? := by
  rw [setLevel, Array.getElem?_setIfInBounds]
  split
  . next h =>
    subst h
    split
    . next hlt =>
      rw [Array.getElem?_eq_getElem hlt]
      rfl
    . next hge =>
      rw [Array.getElem?_eq_none (by omega)]
      rfl
  . rfl

theorem lineState_setLineState (hdoc : doc.WellFormed) {line : Nat} (hline : line < doc.lineCount)
    (state : LineState) : (doc.setLineState line state).lineState line = state := by
  rw [lineState, getElem?_setLineState, if_pos rfl, Array.getElem?_eq_getElem (by rw [hdoc.lineStates]; exact hline)]
  rfl

theorem level_setLevel (hdoc : doc.WellFormed) {line : Nat} (hline : line < doc.lineCount)
    (level : Level) : (doc.setLevel line level).level line = level := by
  rw [Document.level, getElem?_setLevel, if_pos rfl, Array.getElem?_eq_getElem (by rw [hdoc.levels]; exact hline)]
  rfl

end Document

namespace Pen

/--
Colouring as one write: an empty segment paints nothing, and the pen never goes back.
-/
theorem colourTo_eq (pen : Pen) (stop : Nat) (style : Style) :
    pen.colourTo stop style
      = ⟨pen.doc.setStyles pen.segment (min stop pen.doc.size) style, max pen.segment (min stop pen.doc.size)⟩ := by
  unfold colourTo
  dsimp
  split
  . next h =>
    rw [Nat.max_eq_right (Nat.le_of_lt h)]
  . next h =>
    rw [Nat.max_eq_left (by omega), Document.setStyles,
      show min (min stop pen.doc.size) pen.doc.styles.size - pen.segment = 0 by omega]
    rfl

end Pen

end Highlight
