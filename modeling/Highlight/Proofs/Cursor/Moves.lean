import Highlight.Proofs.Cursor.Sight
import Highlight.Proofs.Cursor.Walk

/-!
Passes over all of a text, seen from their cursors. Within a step, the cursor goes over characters inside of its line,
ends tokens, and gives the open token another style. So it stays on its line, and what kind of style a byte gets is decided
when the cursor goes over it.
-/

namespace Highlight

open LineIndex

namespace Document

variable {doc : Document}

theorem toNat_toUInt8 {x : Char} (hx : Code.isInner x.toNat = true) : x.toUInt8.toNat = x.toNat := by
  have hlt : x.toNat < 0x80 := (Code.isInner_iff.mp hx).1
  show x.val.toNat % 256 = x.val.toNat
  exact Nat.mod_eq_of_lt (Nat.lt_trans hlt (by decide))

/--
A character inside of a line is read where it stands as a byte, and nowhere else.
-/
theorem decodeAt_is_iff (doc : Document) {x : Char} (hx : Code.isInner x.toNat = true) (pos : Nat) :
    (doc.decodeAt pos).1.is x = true ↔ doc.byteAt? pos = some x.toUInt8 := by
  have hinner := Code.isInner_iff.mp hx
  have hbyte := toNat_toUInt8 hx
  rw [Code.is, beq_iff_eq, decodeAt, byteAt?]
  constructor
  . intro heq
    obtain ⟨b, hb, hread⟩ := doc.encoding.ascii_of_decodeAt (by rw [heq]; exact hinner.1) (by rw [heq]; exact hinner.2.1)
    rw [hread] at heq
    have heq : b.toNat = x.toNat := heq
    rw [hb, Option.some.injEq, ← UInt8.toNat_inj, heq, hbyte]
  . intro hb
    rw [doc.encoding.decodeAt_of_ascii hb (by rw [hbyte]; exact hinner.1)]
    exact hbyte

/--
The span of all lines.
-/
theorem WellFormed.linesSpan?_whole (hdoc : doc.WellFormed) (hsize : 0 < doc.size) :
    doc.linesSpan? 0 doc.size = some ⟨0, doc.size, 0⟩ := by
  have hstart : doc.lineStart (doc.lineOf 0) = 0 := by
    rw [hdoc.lineStart_lineOf, lineFloor_of_startsLine startsLine_zero]
  rw [linesSpan?]
  simp only [Nat.min_self, hsize, hstart, if_true, Nat.sub_zero, beq_self_eq_true]

/--
Where a pass over all of a text stands when it has gone over a line.
-/
def behindLine (doc : Document) (line : Nat) : Nat :=
  if line + 1 < doc.lineCount then doc.lineStart (line + 1) else doc.size + 1

theorem WellFormed.startsLine_behindLine (hdoc : doc.WellFormed) (line : Nat) :
    startsLine doc.text (doc.behindLine line) = true ∨ doc.behindLine line = doc.size + 1 := by
  unfold behindLine
  split
  . next hline =>
    rw [lineCount, hdoc.lines] at hline
    obtain ⟨q, hstart, _, heq⟩ := exists_startsLine hline
    rw [lineStart, hdoc.lines, heq]
    exact .inl hstart
  . exact .inr rfl

theorem WellFormed.behindLine_pos (hdoc : doc.WellFormed) (line : Nat) : 0 < doc.behindLine line := by
  unfold behindLine
  split
  . next hline =>
    rw [lineCount, hdoc.lines] at hline
    obtain ⟨q, _, hbreaks, heq⟩ := exists_startsLine hline
    rw [lineStart, hdoc.lines, heq]
    rcases Nat.eq_zero_or_pos q with rfl | hpos
    . rw [breaksBefore_zero] at hbreaks
      omega
    . exact hpos
  . exact Nat.succ_pos _

theorem holdsAt_pair (doc : Document) (pos : Nat) (x y : UInt8) :
    doc.holdsAt pos [x, y] = true ↔ doc.byteAt? pos = some x ∧ doc.byteAt? (pos + 1) = some y := by
  simp only [holdsAt, Bool.and_true, Bool.and_eq_true, beq_iff_eq]

end Document

namespace Cursor

/--
A cursor of a pass over all of the text of `doc`.
-/
structure OnText (doc : Document) (c : Cursor) : Prop where
  source : doc.SameSource c.doc
  settled : c.Settled
  stop : c.stop = doc.size + 1
  pos_le : c.pos ≤ doc.size + 1

/--
Where a cursor can come to within a step: it goes over characters inside of its line, it ends tokens, it gives the open
token another style of the same kind, and, if it `stores`, it gives its line a state.
-/
inductive Moves (kind : Style → Bool) (stores : Prop) (c : Cursor) : Cursor → Prop where
  | refl : Moves kind stores c c
  | forward {c' : Cursor} : Moves kind stores c c' → c'.cur.isInner = true → Moves kind stores c c'.forward
  | setState {c' : Cursor} : Moves kind stores c c' → (style : Style) → Moves kind stores c (c'.setState style)
  | changeState {c' : Cursor} : Moves kind stores c c' → (style : Style) → kind style = kind c'.state
    → Moves kind stores c (c'.changeState style)
  | setLineState {c' : Cursor} : Moves kind stores c c' → stores → (state : LineState)
    → Moves kind stores c (c'.setLineState c'.line state)

/--
Behind the byte `i`, it is known whether its style is of a kind: the byte is painted, or it lies in the open token.
-/
inductive Covers (kind : Style → Bool) (known : Bool) (i : Nat) (c : Cursor) : Prop where
  | painted : i < c.pen.segment → kind (c.doc.styleAt i) = known → Covers kind known i c
  | opened : c.pen.segment ≤ i → i < c.pos → kind c.state = known → Covers kind known i c

variable {doc : Document} {kind : Style → Bool} {stores : Prop} {known : Bool} {c c' : Cursor} {i q : Nat}

namespace OnText

theorem more_iff (h : c.OnText doc) : c.more = true ↔ c.pos ≤ doc.size := by
  rw [more, decide_eq_true_eq, h.stop, Nat.lt_succ_iff]

theorem size_eq (h : c.OnText doc) : c.doc.size = doc.size :=
  h.source.size

theorem decodeAt_eq (h : c.OnText doc) (pos : Nat) : c.doc.decodeAt pos = doc.decodeAt pos := by
  rw [Document.decodeAt, Document.decodeAt, h.source.text, h.source.encoding]

theorem forward (h : c.OnText doc) (hpos : c.pos ≤ doc.size) : c.forward.OnText doc where
  source := by
    rw [doc_forward]
    exact h.source
  settled := h.settled.forward (h.more_iff.mpr hpos)
  stop := by
    rw [stop_forward]
    exact h.stop
  pos_le := by
    have hle := h.settled.pos_add_width_le (h.size_eq ▸ hpos)
    rw [h.size_eq] at hle
    rw [pos_forward (h.more_iff.mpr hpos)]
    exact hle

theorem setState (h : c.OnText doc) (style : Style) : (c.setState style).OnText doc where
  source := h.source.trans (sameSource_colourTo _ _ _)
  settled := h.settled.setState style
  stop := h.stop
  pos_le := h.pos_le

theorem changeState (h : c.OnText doc) (style : Style) : (c.changeState style).OnText doc where
  source := h.source
  settled := h.settled.changeState style
  stop := h.stop
  pos_le := h.pos_le

theorem setLineState (h : c.OnText doc) (line : Nat) (state : LineState) : (c.setLineState line state).OnText doc where
  source := h.source.trans (Document.sameSource_setLineState _ _ _)
  settled := h.settled.setLineState line state
  stop := h.stop
  pos_le := h.pos_le

/--
A pass over all of a text begins at its front.
-/
theorem start (hdoc : doc.WellFormed) (style : Style) : (Cursor.start doc ⟨0, doc.size, style⟩).OnText doc
    ∧ (Cursor.start doc ⟨0, doc.size, style⟩).pos = 0 ∧ (Cursor.start doc ⟨0, doc.size, style⟩).line = 0
    ∧ (Cursor.start doc ⟨0, doc.size, style⟩).state = style := by
  have hfloor : doc.lineStart (doc.lineOf 0) = 0 := by
    rw [hdoc.lineStart_lineOf, lineFloor_of_startsLine startsLine_zero]
  have hstop : (doc.wholeLines ⟨0, doc.size, style⟩).stop = doc.size := by
    rw [hdoc.wholeLines_stop]
    simp only [Nat.zero_min, Nat.zero_add, Nat.min_self]
    exact lineCeil_of_isBoundary (.inr rfl)
  have hstart : (doc.wholeLines ⟨0, doc.size, style⟩).start = 0 := by
    rw [hdoc.wholeLines_start]
    exact lineFloor_of_startsLine startsLine_zero
  have hstyle : (doc.wholeLines ⟨0, doc.size, style⟩).style = style := by
    simp only [Document.wholeLines, Nat.zero_min, hfloor, beq_self_eq_true, if_true]
  refine ⟨?_, hstart, ?_, hstyle⟩
  . exact
      { source := .refl doc
        settled := settled_start doc hdoc _
        stop := by
          rw [stop_start, walkEnd, if_pos hstop]
        pos_le := by
          rw [show (Cursor.start doc ⟨0, doc.size, style⟩).pos = 0 from hstart]
          exact Nat.zero_le _ }
  . show doc.lineOf (doc.wholeLines ⟨0, doc.size, style⟩).start = 0
    rw [hstart, hdoc.lineOf_zero]

/--
Behind a line starts the next one.
-/
theorem line_of_behindLine (h : c.OnText doc) (hdoc : doc.WellFormed) {line : Nat} (hline : line < doc.lineCount)
    (hpos : c.pos = doc.behindLine line) : c.line = line + 1 ∧ c.atLineStart = true ∧ 0 < c.pos := by
  have hat := h.settled.line
  have hstarts := h.settled.atLineStart
  rw [h.source.lineOf, h.size_eq] at hat
  rw [h.source.text, h.size_eq] at hstarts
  have hof (pos : Nat) : doc.lineOf pos = breaksBefore doc.text pos := by
    rw [Document.lineOf, hdoc.lines, lineOf_ofText]
  have hcount : doc.lineCount = breaksBefore doc.text doc.text.size + 1 := by
    rw [Document.lineCount, hdoc.lines, count_ofText]
  by_cases hnext : line + 1 < doc.lineCount
  . rw [Document.behindLine, if_pos hnext] at hpos
    have hnext' := hnext
    rw [Document.lineCount, hdoc.lines] at hnext'
    obtain ⟨q, hstart, hbreaks, heq⟩ := exists_startsLine hnext'
    rw [Document.lineStart, hdoc.lines, heq] at hpos
    have hsize := le_size_of_startsLine hstart
    rw [← Document.size] at hsize
    have hzero : q ≠ 0 := by
      rintro rfl
      rw [breaksBefore_zero] at hbreaks
      omega
    rw [hpos, hof, hbreaks, if_neg (by omega)] at hat
    rw [hpos, hstart] at hstarts
    exact ⟨hat, hstarts, by omega⟩
  . rw [Document.behindLine, if_neg hnext] at hpos
    have hlast : doc.lineOf c.pos = line := by
      have hle := breaksBefore_size_le doc.text c.pos
      have hge : breaksBefore doc.text doc.text.size ≤ breaksBefore doc.text c.pos :=
        breaksBefore_mono (by rw [← Document.size]; omega)
      rw [hof]
      omega
    rw [hlast, if_pos (by omega)] at hat
    rw [decide_eq_true (by omega), Bool.or_true] at hstarts
    exact ⟨hat, hstarts, by omega⟩

section Sight

variable {x y : Char} (hx : Code.isInner x.toNat = true)
include hx

theorem sees_iff (h : c.OnText doc) : c.cur.is x = true ↔ doc.byteAt? c.pos = some x.toUInt8 := by
  rw [h.settled.cur_eq, h.decodeAt_eq, doc.decodeAt_is_iff hx]

theorem seesPair_iff (h : c.OnText doc) (hy : Code.isInner y.toNat = true) :
    c.seesPair x y = true ↔ doc.byteAt? c.pos = some x.toUInt8 ∧ doc.byteAt? (c.pos + 1) = some y.toUInt8 := by
  rw [seesPair, Bool.and_eq_true]
  constructor
  . rintro ⟨hcur, hnext⟩
    have hwidth := (h.settled.byte_of_isInner (Code.isInner_of_is hx hcur)).2
    rw [h.settled.next_eq, hwidth, h.decodeAt_eq, doc.decodeAt_is_iff hy] at hnext
    exact ⟨(h.sees_iff hx).mp hcur, hnext⟩
  . rintro ⟨hcur, hnext⟩
    have hcur := (h.sees_iff hx).mpr hcur
    have hwidth := (h.settled.byte_of_isInner (Code.isInner_of_is hx hcur)).2
    rw [h.settled.next_eq, hwidth, h.decodeAt_eq, doc.decodeAt_is_iff hy]
    exact ⟨hcur, hnext⟩

end Sight

/--
A character inside of a line is a byte of the text.
-/
theorem pos_forward_of_isInner (h : c.OnText doc) (hcur : c.cur.isInner = true) :
    c.pos < doc.size ∧ c.forward.pos = c.pos + 1 := by
  have hend := h.settled.atLineEnd_of_isInner hcur
  rw [h.settled.atLineEnd, Bool.or_eq_false_iff, decide_eq_false_iff_not, h.size_eq] at hend
  have hlt : c.pos < doc.size := by omega
  refine ⟨hlt, ?_⟩
  rw [pos_forward (h.more_iff.mpr (by omega)), (h.settled.byte_of_isInner hcur).2]

/--
Two characters that stand one behind the other on a line are two bytes.
-/
theorem pos_forward_of_seesPair (h : c.OnText doc) (hpos : c.pos ≤ doc.size) {x y : Char} (hx : Code.isInner x.toNat = true)
    (hy : Code.isInner y.toNat = true) (hpair : c.seesPair x y = true) :
    c.forward.OnText doc ∧ c.forward.pos = c.pos + 1 ∧ c.forward.pos < doc.size ∧ c.forward.forward.pos = c.pos + 2 := by
  obtain ⟨_, hfirst⟩ := h.pos_forward_of_isInner (isInner_of_seesPair hx hpair)
  have hforward := h.forward hpos
  have hcur : c.forward.cur.isInner = true := by
    rw [cur_forward (h.more_iff.mpr hpos)]
    exact Code.isInner_of_is hy (next_of_seesPair hpair)
  obtain ⟨hlt, hsecond⟩ := hforward.pos_forward_of_isInner hcur
  exact ⟨hforward, hfirst, by omega, by omega⟩

/--
The second of them ends no line.
-/
theorem atLineStart_forward_of_seesPair (h : c.OnText doc) (hpos : c.pos ≤ doc.size) {x y : Char} (hx : Code.isInner x.toNat = true)
    (hy : Code.isInner y.toNat = true) (hpair : c.seesPair x y = true) : c.forward.forward.atLineStart = false := by
  obtain ⟨hforward, _, hpos', _⟩ := h.pos_forward_of_seesPair hpos hx hy hpair
  rw [atLineStart_forward (hforward.more_iff.mpr (Nat.le_of_lt hpos'))]
  apply hforward.settled.atLineEnd_of_isInner
  rw [cur_forward (h.more_iff.mpr hpos)]
  exact Code.isInner_of_is hy (next_of_seesPair hpair)

end OnText

namespace Moves

theorem trans {c'' : Cursor} (h : Moves kind stores c c') (h' : Moves kind stores c' c'') : Moves kind stores c c'' := by
  induction h' with
  | refl => exact h
  | forward _ hcur ih => exact .forward ih hcur
  | setState _ style ih => exact .setState ih style
  | changeState _ style hkind ih => exact .changeState ih style hkind
  | setLineState _ hstores state ih => exact .setLineState ih hstores state

theorem of_not (h : Moves kind False c c') : Moves kind stores c c' := by
  induction h with
  | refl => exact .refl
  | forward _ hcur ih => exact .forward ih hcur
  | setState _ style ih => exact .setState ih style
  | changeState _ style hkind ih => exact .changeState ih style hkind
  | setLineState _ hstores _ _ => exact hstores.elim

/--
A cursor on the text stays on it, and on its line.
-/
theorem onText (h : Moves kind stores c c') (hc : c.OnText doc) (hpos : c.pos ≤ doc.size) :
    c'.OnText doc ∧ c.pos ≤ c'.pos ∧ c'.pos ≤ doc.size ∧ c'.line = c.line := by
  induction h with
  | refl => exact ⟨hc, Nat.le_refl _, hpos, rfl⟩
  | forward _ hcur ih =>
    obtain ⟨hc', hle, hpos', hline⟩ := ih
    obtain ⟨hlt, hforward⟩ := hc'.pos_forward_of_isInner hcur
    refine ⟨hc'.forward hpos', by omega, by omega, ?_⟩
    rw [line_forward (hc'.more_iff.mpr hpos'), hc'.settled.atLineEnd_of_isInner hcur, if_neg Bool.false_ne_true]
    exact hline
  | setState _ style ih =>
    obtain ⟨hc', hrest⟩ := ih
    exact ⟨hc'.setState style, hrest⟩
  | changeState _ style _ ih =>
    obtain ⟨hc', hrest⟩ := ih
    exact ⟨hc'.changeState style, hrest⟩
  | setLineState _ _ state ih =>
    obtain ⟨hc', hrest⟩ := ih
    exact ⟨hc'.setLineState _ state, hrest⟩

theorem lineStates (h : Moves kind False c c') : c'.doc.lineStates = c.doc.lineStates := by
  induction h with
  | refl => rfl
  | forward _ _ ih =>
    rw [doc_forward]
    exact ih
  | setState _ style ih => exact (Pen.lineStates_colourTo _ _ _).trans ih
  | changeState _ _ _ ih => exact ih
  | setLineState _ hstores _ _ => exact hstores.elim

/--
What is painted stays as it is.
-/
theorem painted (h : Moves kind stores c c') (hlt : i < c.pen.segment) :
    i < c'.pen.segment ∧ c'.doc.styleAt i = c.doc.styleAt i := by
  induction h with
  | refl => exact ⟨hlt, rfl⟩
  | @forward c' _ _ ih =>
    rw [doc_forward, forward_pen]
    exact ih
  | @setState c' _ _ ih =>
    refine ⟨?_, (Pen.styleAt_colourTo_of_lt ih.1 _ _).trans ih.2⟩
    show i < (c'.pen.colourTo c'.pos c'.state).segment
    rw [Pen.segment_colourTo]
    exact Nat.lt_of_lt_of_le ih.1 (Nat.le_max_left _ _)
  | changeState _ _ _ ih => exact ih
  | setLineState _ _ _ ih => exact ih

/--
The other lines keep their states.
-/
theorem lineState_of_ne (h : Moves kind stores c c') (hc : c.OnText doc) (hpos : c.pos ≤ doc.size) {line : Nat} (hne : line ≠ c.line) :
    c'.doc.lineState line = c.doc.lineState line := by
  induction h with
  | refl => rfl
  | forward _ _ ih =>
    rw [doc_forward]
    exact ih
  | setState _ style ih =>
    rw [← ih, Document.lineState, Document.lineState]
    exact congrArg (fun states : Array LineState => (states[line]?).getD 0) (Pen.lineStates_colourTo _ _ _)
  | changeState _ _ _ ih => exact ih
  | @setLineState c' hmoves _ state ih =>
    obtain ⟨_, _, _, hline⟩ := hmoves.onText hc hpos
    rw [← ih, Document.lineState, Document.lineState]
    show ((c'.doc.setLineState c'.line state).lineStates[line]?).getD 0 = _
    rw [Document.getElem?_setLineState, if_neg (by omega)]

/--
It stays in front of the next line start.
-/
theorem pos_lt (h : Moves kind stores c c') (hc : c.OnText doc) (hpos : c.pos ≤ doc.size) (hq : startsLine doc.text q = true)
    (hlt : c.pos < q) : c'.pos < q := by
  induction h with
  | refl => exact hlt
  | @forward c' hmoves hcur ih =>
    obtain ⟨hc', _, hpos', _⟩ := hmoves.onText hc hpos
    obtain ⟨_, hforward⟩ := hc'.pos_forward_of_isInner hcur
    apply Nat.lt_of_le_of_ne (by omega)
    intro heq
    have hend : endsLine c'.doc.text (c'.pos + c'.width - 1) = true := by
      rw [hc'.source.text, (hc'.settled.byte_of_isInner hcur).2, ← hforward, heq]
      exact endsLine_of_startsLine hq (by omega)
    have hnone := hc'.settled.atLineEnd_of_isInner hcur
    rw [hc'.settled.atLineEnd, hend] at hnone
    cases hnone
  | setState _ _ ih => exact ih
  | changeState _ _ _ ih => exact ih
  | setLineState _ _ _ ih => exact ih

end Moves

namespace Covers

theorem setState (h : Covers kind known i c) (hc : c.OnText doc) (hi : i < doc.size) (style : Style) :
    Covers kind known i (c.setState style) := by
  have hsize := hc.size_eq
  have hsegment := Pen.segment_colourTo c.pen c.pos c.state
  cases h with
  | painted hlt hstyle =>
    refine .painted ?_ ?_
    . show i < (c.pen.colourTo c.pos c.state).segment
      omega
    . show kind ((c.pen.colourTo c.pos c.state).doc.styleAt i) = known
      rw [Pen.styleAt_colourTo_of_lt hlt]
      exact hstyle
  | opened hle hlt hstate =>
    have hin : i < c.pen.doc.size := Nat.lt_of_lt_of_eq hi hsize.symm
    refine .painted ?_ ?_
    . show i < (c.pen.colourTo c.pos c.state).segment
      omega
    . show kind ((c.pen.colourTo c.pos c.state).doc.styleAt i) = known
      rw [Pen.styleAt_colourTo hc.settled.wellFormed hle hlt hin]
      exact hstate

theorem forward (h : Covers kind known i c) (hmore : c.more = true) : Covers kind known i c.forward := by
  have hpen := pen_forward hmore
  cases h with
  | painted hlt hstyle =>
    refine .painted ?_ ?_
    . rwa [hpen]
    . rwa [doc_forward]
  | opened hle hlt hstate =>
    refine .opened ?_ ?_ ?_
    . rwa [hpen]
    . rw [pos_forward hmore]
      exact Nat.lt_add_right _ hlt
    . rwa [state_forward hmore]

theorem changeState (h : Covers kind known i c) {style : Style} (hkind : kind style = kind c.state) :
    Covers kind known i (c.changeState style) := by
  cases h with
  | painted hlt hstyle => exact .painted hlt hstyle
  | opened hle hlt hstate => exact .opened hle hlt (hkind.trans hstate)

theorem setLineState (h : Covers kind known i c) (line : Nat) (state : LineState) :
    Covers kind known i (c.setLineState line state) := by
  cases h with
  | painted hlt hstyle => exact .painted hlt hstyle
  | opened hle hlt hstate => exact .opened hle hlt hstate

theorem moves (h : Covers kind known i c) (hc : c.OnText doc) (hpos : c.pos ≤ doc.size) (hi : i < doc.size)
    (hmoves : Moves kind stores c c') : Covers kind known i c' := by
  induction hmoves with
  | refl => exact h
  | forward hmoves _ ih =>
    obtain ⟨hc', _, hpos', _⟩ := hmoves.onText hc hpos
    exact ih.forward (hc'.more_iff.mpr hpos')
  | setState hmoves style ih => exact ih.setState (hmoves.onText hc hpos).1 hi style
  | changeState _ style hkind ih => exact ih.changeState hkind
  | setLineState _ _ state ih => exact ih.setLineState _ state

/--
Going over a character decides what its bytes get.
-/
theorem of_forward (kind : Style → Bool) (hc : c.OnText doc) (hpos : c.pos ≤ doc.size) (hle : c.pos ≤ i) (hlt : i < c.forward.pos) :
    Covers kind (kind c.state) i c.forward := by
  have hmore := hc.more_iff.mpr hpos
  refine .opened ?_ hlt ?_
  . rw [pen_forward hmore]
    exact Nat.le_trans hc.settled.segment_le hle
  . rw [state_forward hmore]

theorem of_seesPair (kind : Style → Bool) (hc : c.OnText doc) (hpos : c.pos ≤ doc.size) {x y : Char}
    (hx : Code.isInner x.toNat = true) (hy : Code.isInner y.toNat = true) (hpair : c.seesPair x y = true) (hle : c.pos ≤ i)
    (hlt : i < c.pos + 2) : Covers kind (kind c.state) i c.forward.forward := by
  obtain ⟨hforward, hfirst, hpos', hsecond⟩ := hc.pos_forward_of_seesPair hpos hx hy hpair
  rcases Nat.lt_or_ge i c.forward.pos with hone | htwo
  . exact (of_forward kind hc hpos hle hone).forward (hforward.more_iff.mpr (Nat.le_of_lt hpos'))
  . rw [← state_forward (hc.more_iff.mpr hpos)]
    exact of_forward kind hforward (Nat.le_of_lt hpos') htwo (by omega)

/--
At the end of a pass, the bytes have the styles that have been decided.
-/
theorem complete (h : Covers kind known i c) (hc : c.OnText doc) (hi : i < doc.size) :
    kind (c.complete.styleAt i) = known := by
  have hset := h.setState hc hi c.state
  have hsettled := (hc.setState c.state).settled.segment_le
  cases hset with
  | painted _ hstyle => exact hstyle
  | opened hle hlt _ =>
    -- Ending the open token leaves no byte open.
    have hsegment := Pen.segment_colourTo c.pen c.pos c.state
    have hsize : c.pen.doc.size = doc.size := hc.size_eq
    have hle : (c.pen.colourTo c.pos c.state).segment ≤ i := hle
    have hlt : i < c.pos := hlt
    omega

end Covers

end Cursor

end Highlight
