import Highlight.Proofs.Cursor.Alike

/-!
What two pens can have in common all through a pass: they are the same, one of them has coloured the
open token up to a line start already, or both have written the same over two different documents.
-/

namespace Highlight

open LineIndex

namespace Pen

theorem segment_colourTo (pen : Pen) (pos : Nat) (style : Style) :
    (pen.colourTo pos style).segment = max pen.segment (min pos pen.doc.size) := by
  rw [colourTo_eq]

theorem le_segment_colourTo (pen : Pen) (pos : Nat) (style : Style) :
    min pos pen.doc.size ≤ (pen.colourTo pos style).segment := by
  rw [segment_colourTo]
  exact Nat.le_max_right _ _

theorem getElem?_styles_colourTo (pen : Pen) (pos : Nat) (style : Style) (i : Nat) :
    (pen.colourTo pos style).doc.styles[i]?
      = if pen.segment ≤ i ∧ i < min pos pen.doc.size then pen.doc.styles[i]?.map (fun _ => style)
        else pen.doc.styles[i]? := by
  rw [colourTo_eq]
  exact Document.getElem?_setStyles _ _ _ _ _

theorem styleAt_colourTo_of_lt {pen : Pen} {i : Nat} (hi : i < pen.segment) (stop : Nat) (style : Style) :
    (pen.colourTo stop style).doc.styleAt i = pen.doc.styleAt i := by
  rw [Document.styleAt, Document.styleAt, getElem?_styles_colourTo, if_neg (by omega)]

theorem styleAt_colourTo {pen : Pen} {i stop : Nat} (hdoc : pen.doc.WellFormed) (hsegment : pen.segment ≤ i) (hstop : i < stop)
    (hsize : i < pen.doc.size) (style : Style) : (pen.colourTo stop style).doc.styleAt i = style := by
  have hlt : i < pen.doc.styles.size := by
    rw [hdoc.styles]
    exact hsize
  rw [Document.styleAt, getElem?_styles_colourTo, if_pos (by omega), Array.getElem?_eq_getElem hlt]
  rfl

theorem lineStates_colourTo (pen : Pen) (pos : Nat) (style : Style) :
    (pen.colourTo pos style).doc.lineStates = pen.doc.lineStates := by
  rw [colourTo_eq]
  rfl

theorem levels_colourTo (pen : Pen) (pos : Nat) (style : Style) :
    (pen.colourTo pos style).doc.levels = pen.doc.levels := by
  rw [colourTo_eq]
  rfl

theorem setLineState_colourTo (pen : Pen) (pos : Nat) (style : Style) (line : Nat) (state : LineState) :
    (pen.colourTo pos style).setLineState line state = (pen.setLineState line state).colourTo pos style := by
  rw [colourTo_eq, colourTo_eq]
  rfl

theorem setLevel_colourTo (pen : Pen) (pos : Nat) (style : Style) (line : Nat) (level : Level) :
    (pen.colourTo pos style).setLevel line level = (pen.setLevel line level).colourTo pos style := by
  rw [colourTo_eq, colourTo_eq]
  rfl

/--
A segment can be coloured in two parts.
-/
theorem colourTo_colourTo (pen : Pen) {mid stop : Nat} (hmid : pen.segment ≤ mid) (hstop : mid ≤ stop)
    (style : Style) : (pen.colourTo mid style).colourTo stop style = pen.colourTo stop style := by
  have hsize := (Cursor.sameSource_colourTo pen mid style).size
  have hdoc : ((pen.colourTo mid style).colourTo stop style).doc = (pen.colourTo stop style).doc := by
    refine @Document.SameSource.eq (pen.colourTo stop style).doc _ ?_ ?_ ?_ ?_
    . exact (Cursor.sameSource_colourTo pen stop style).symm.trans
        ((Cursor.sameSource_colourTo pen mid style).trans
          (Cursor.sameSource_colourTo (pen.colourTo mid style) stop style))
    . intro i
      simp only [getElem?_styles_colourTo, segment_colourTo, hsize]
      by_cases hin : pen.segment ≤ i ∧ i < min mid pen.doc.size
      . rw [if_neg (by omega), if_pos hin, if_pos (by omega)]
      . rw [if_neg hin]
        by_cases hin' : pen.segment ≤ i ∧ i < min stop pen.doc.size
        . rw [if_pos (by omega), if_pos hin']
        . rw [if_neg (by omega), if_neg hin']
    . intro l
      rw [lineStates_colourTo, lineStates_colourTo, lineStates_colourTo]
    . intro l
      rw [levels_colourTo, levels_colourTo, levels_colourTo]
  have hsegment : ((pen.colourTo mid style).colourTo stop style).segment = (pen.colourTo stop style).segment := by
    simp only [segment_colourTo, hsize]
    omega
  cases h : (pen.colourTo mid style).colourTo stop style
  cases h' : pen.colourTo stop style
  rw [h, h'] at hdoc hsegment
  cases hdoc
  cases hsegment
  rfl

/--
The style in front of a position that an open token was coloured up to.
-/
theorem styleBefore_colourTo {pen : Pen} {pos : Nat} (hdoc : pen.doc.WellFormed) (hpos : pen.segment < pos)
    (hsize : pos ≤ pen.doc.size) (style : Style) : (pen.colourTo pos style).doc.styleBefore pos = style := by
  have hlt : pos - 1 < pen.doc.styles.size := by
    rw [hdoc.styles]
    omega
  rw [Document.styleBefore, if_neg (by simp; omega), Document.styleAt, getElem?_styles_colourTo, if_pos (by omega),
    Array.getElem?_eq_getElem hlt]
  rfl

/--
A pen that has written into the part of a view only.
-/
structure Framed (v : View) (base : Document) (pen : Pen) : Prop where
  sameSource : base.SameSource pen.doc
  start_le : v.start ≤ pen.segment
  styles : ∀ i : Nat, i < v.start ∨ v.limit ≤ i → pen.doc.styles[i]? = base.styles[i]?
  lineStates : ∀ l : Nat, l < v.first ∨ v.last ≤ l → pen.doc.lineStates[l]? = base.lineStates[l]?
  levels : ∀ l : Nat, l < v.first ∨ v.last ≤ l → pen.doc.levels[l]? = base.levels[l]?

/--
The same pen, which has written into the part of a view only.
-/
def Same (v : View) (base : Document) (_ : Style) (pen pen' : Pen) : Prop :=
  pen' = pen ∧ Framed v base pen

/--
The same pen.
-/
def Equal (_ : Style) (pen pen' : Pen) : Prop :=
  pen' = pen

/--
Related pens whose relation does not depend on the style of the open token.
-/
def Tight (rel : Style → Pen → Pen → Prop) (_ : Style) (pen pen' : Pen) : Prop :=
  ∀ style, rel style pen pen'

/--
The second pen can have coloured the token that is open at `start` up to there already.
-/
def Late (loose : Style → Bool) (start : Nat) (opened : Style) (style : Style) (pen pen' : Pen) : Prop :=
  pen' = pen
    ∨ (loose opened = true ∧ style = opened ∧ pen.segment ≤ start ∧ pen' = pen.colourTo start opened)

/--
Pens that have written the same over two documents: each mark is the same or untouched by both.
-/
structure Overlaid (shift : Nat) (base base' : Document) (_ : Style) (pen pen' : Pen) : Prop where
  segment : pen'.segment = pen.segment + shift
  styles : ∀ i : Nat, pen'.doc.styles[i + shift]? = pen.doc.styles[i]?
    ∨ (pen.doc.styles[i]? = base.styles[i]? ∧ pen'.doc.styles[i + shift]? = base'.styles[i + shift]?)
  lineStates : ∀ l : Nat, pen'.doc.lineStates[l + shift]? = pen.doc.lineStates[l]?
    ∨ (pen.doc.lineStates[l]? = base.lineStates[l]? ∧ pen'.doc.lineStates[l + shift]? = base'.lineStates[l + shift]?)
  levels : ∀ l : Nat, pen'.doc.levels[l + shift]? = pen.doc.levels[l]?
    ∨ (pen.doc.levels[l]? = base.levels[l]? ∧ pen'.doc.levels[l + shift]? = base'.levels[l + shift]?)

/--
The pens with which passes over a range begin.
-/
theorem same_start (doc : Document) (start limit stop : Nat) (style : Style) :
    Same (.ofRange doc start limit stop) doc style ⟨doc, start⟩ ⟨doc, start⟩ :=
  ⟨rfl, .refl doc, Nat.le_refl start, fun _ _ => rfl, fun _ _ => rfl, fun _ _ => rfl⟩

theorem overlaid_start (doc doc' : Document) (start : Nat) (style : Style) :
    Overlaid 0 doc doc' style ⟨doc, start⟩ ⟨doc', start⟩ :=
  ⟨rfl, fun _ => .inr ⟨rfl, rfl⟩, fun _ => .inr ⟨rfl, rfl⟩, fun _ => .inr ⟨rfl, rfl⟩⟩

end Pen

namespace View

variable {v : View} {loose : Style → Bool} {doc doc' base base' : Document}

/--
The end of the text comes into play only if both texts end with the part.
-/
theorem Shows.min_size (h : v.Shows doc doc') {pos : Nat} (hpos : pos ≤ v.reach) :
    min (pos + v.shift) doc'.size = min pos doc.size + v.shift := by
  cases hwhole : v.whole with
  | true =>
    obtain ⟨hsize, hsize'⟩ := h.size_eq hwhole
    omega
  | false =>
    rw [reach_of_open hwhole] at hpos
    have := h.limit_le
    have := h.limit_le'
    omega

theorem Shows.min_size_le (h : v.Shows doc doc') {pos : Nat} (hpos : pos ≤ v.reach) :
    min pos doc.size ≤ v.limit := by
  cases hwhole : v.whole with
  | true =>
    have := (h.size_eq hwhole).1
    omega
  | false =>
    rw [reach_of_open hwhole] at hpos
    omega

theorem Shows.last_le (h : v.Shows doc doc') : v.last ≤ doc.lineCount := by
  rw [h.last]
  split
  . exact Nat.le_refl _
  . exact Nat.le_of_lt (h.wellFormed.lineOf_lt _)

theorem Shows.last' (h : v.Shows doc doc') :
    v.last + v.shift = if v.whole then doc'.lineCount else doc'.lineOf (v.limit + v.shift) := by
  have hlimit := h.lineOf (Nat.le_refl v.limit)
  have hlast := h.last
  cases hwhole : v.whole with
  | true =>
    obtain ⟨hsize, hsize'⟩ := h.size_eq hwhole
    have hcount : doc.lineCount = doc.lineOf v.limit + 1 := by
      rw [h.wellFormed.lineOf_eq, ← hsize, Document.lineCount, h.wellFormed.lines, count_ofText]
      rfl
    have hcount' : doc'.lineCount = doc'.lineOf (v.limit + v.shift) + 1 := by
      rw [h.wellFormed'.lineOf_eq, ← hsize', Document.lineCount, h.wellFormed'.lines, count_ofText]
      rfl
    rw [hwhole, if_pos rfl] at hlast
    rw [if_pos rfl]
    omega
  | false =>
    rw [hwhole] at hlast
    simp only [Bool.false_eq_true, ↓reduceIte] at hlast ⊢
    omega

theorem Shows.last_le' (h : v.Shows doc doc') : v.last + v.shift ≤ doc'.lineCount := by
  rw [h.last']
  split
  . exact Nat.le_refl _
  . exact Nat.le_of_lt (h.wellFormed'.lineOf_lt _)

theorem closed_equal (hshift : v.shift = 0) : v.Closed loose Pen.Equal where
  colourTo := by
    rintro style _ pen style' pos _ _ _ rfl
    rw [hshift]
    rfl
  restyle := fun _ _ h => h
  segment := by
    rintro style _ pen _ rfl
    rw [hshift]
    rfl
  setLineState := by
    rintro style _ pen line state _ _ _ rfl
    rw [hshift]
    rfl
  setLevel := by
    rintro style _ pen line level _ _ _ rfl
    rw [hshift]
    rfl

/--
A relation that does not depend on the open token is kept whatever happens to the token.
-/
theorem Closed.tight {rel : Style → Pen → Pen → Prop} (h : v.Closed loose rel) {style : Style}
    (hstyle : loose style = false) : v.Closed (fun _ => false) (Pen.Tight rel) where
  colourTo := fun _ _ hshow hstart hreach hrel style' => h.colourTo style' hshow hstart hreach (hrel _)
  restyle := fun _ _ hrel => hrel
  segment := fun _ hrel => h.segment hstyle (hrel style)
  setLineState := fun state hshow hfirst hlast hrel style => h.setLineState state hshow hfirst hlast (hrel style)
  setLevel := fun level hshow hfirst hlast hrel style => h.setLevel level hshow hfirst hlast (hrel style)

theorem closed_same (hshift : v.shift = 0) : v.Closed loose (Pen.Same v base) where
  colourTo := by
    rintro style _ pen style' pos hshow hstart hreach ⟨rfl, hframe⟩
    rw [hshift, Nat.add_zero]
    refine ⟨rfl, hframe.sameSource.trans (Cursor.sameSource_colourTo _ _ _), ?_, ?_, ?_, ?_⟩
    . have := hframe.start_le
      rw [Pen.segment_colourTo]
      omega
    . intro i hi
      have := hframe.start_le
      have := hshow.min_size_le hreach
      rw [Pen.getElem?_styles_colourTo, if_neg (by omega)]
      exact hframe.styles i hi
    . intro l hl
      rw [Pen.lineStates_colourTo]
      exact hframe.lineStates l hl
    . intro l hl
      rw [Pen.levels_colourTo]
      exact hframe.levels l hl
  restyle := fun _ _ h => h
  segment := by
    rintro style _ pen _ ⟨rfl, _⟩
    rw [hshift, Nat.add_zero]
  setLineState := by
    rintro style _ pen line state hshow hfirst hlast ⟨rfl, hframe⟩
    rw [hshift, Nat.add_zero]
    refine ⟨rfl, hframe.sameSource.trans (Document.sameSource_setLineState _ _ _), hframe.start_le, hframe.styles, ?_,
      hframe.levels⟩
    intro l hl
    show (pen.doc.setLineState line state).lineStates[l]? = base.lineStates[l]?
    rw [Document.getElem?_setLineState, if_neg (by omega)]
    exact hframe.lineStates l hl
  setLevel := by
    rintro style _ pen line level hshow hfirst hlast ⟨rfl, hframe⟩
    rw [hshift, Nat.add_zero]
    refine ⟨rfl, hframe.sameSource.trans (Document.sameSource_setLevel _ _ _), hframe.start_le, hframe.styles,
      hframe.lineStates, ?_⟩
    intro l hl
    show (pen.doc.setLevel line level).levels[l]? = base.levels[l]?
    rw [Document.getElem?_setLevel, if_neg (by omega)]
    exact hframe.levels l hl

theorem closed_late (hshift : v.shift = 0) (opened : Style) : v.Closed loose (Pen.Late loose v.start opened) where
  colourTo := by
    rintro style pen pen' style' pos hshow hstart hreach (rfl | ⟨_, rfl, hsegment, rfl⟩)
    . rw [hshift, Nat.add_zero]
      exact .inl rfl
    . rw [hshift, Nat.add_zero]
      exact .inl (pen.colourTo_colourTo hsegment hstart style)
  restyle := by
    rintro style pen pen' style' hloose (rfl | ⟨hopened, rfl, _, _⟩)
    . exact .inl rfl
    . rw [hloose] at hopened
      cases hopened
  segment := by
    rintro style pen pen' hloose (rfl | ⟨hopened, rfl, _, _⟩)
    . rw [hshift, Nat.add_zero]
    . rw [hloose] at hopened
      cases hopened
  setLineState := by
    rintro style pen pen' line state hshow hfirst hlast (rfl | ⟨hopened, rfl, hsegment, rfl⟩)
    . rw [hshift, Nat.add_zero]
      exact .inl rfl
    . rw [hshift, Nat.add_zero]
      exact .inr ⟨hopened, rfl, hsegment, Pen.setLineState_colourTo _ _ _ _ _⟩
  setLevel := by
    rintro style pen pen' line level hshow hfirst hlast (rfl | ⟨hopened, rfl, hsegment, rfl⟩)
    . rw [hshift, Nat.add_zero]
      exact .inl rfl
    . rw [hshift, Nat.add_zero]
      exact .inr ⟨hopened, rfl, hsegment, Pen.setLevel_colourTo _ _ _ _ _⟩

/--
Two entries that are both written get the same value, and two that are not are as they were.
-/
theorem overlaid_write {α : Type} {entries entries' : Array α} {i i' : Nat} {left left' : Option α} {written : Prop}
    [Decidable written] (value : α) (hi : written → i < entries.size) (hi' : written → i' < entries'.size)
    (h : entries'[i']? = entries[i]? ∨ (entries[i]? = left ∧ entries'[i']? = left')) :
    (if written then entries'[i']?.map (fun _ => value) else entries'[i']?)
        = (if written then entries[i]?.map (fun _ => value) else entries[i]?)
      ∨ ((if written then entries[i]?.map (fun _ => value) else entries[i]?) = left
        ∧ (if written then entries'[i']?.map (fun _ => value) else entries'[i']?) = left') := by
  split
  . next hwritten =>
    rw [Array.getElem?_eq_getElem (hi hwritten), Array.getElem?_eq_getElem (hi' hwritten)]
    exact .inl rfl
  . exact h

theorem closed_overlaid : v.Closed loose (Pen.Overlaid v.shift base base') where
  colourTo := by
    intro style pen pen' style' pos hshow hstart hreach h
    have hmin := hshow.min_size hreach
    refine ⟨?_, ?_, ?_, ?_⟩
    . rw [Pen.segment_colourTo, Pen.segment_colourTo, h.segment, hmin]
      omega
    . intro i
      rw [Pen.getElem?_styles_colourTo, Pen.getElem?_styles_colourTo, h.segment, hmin]
      simp only [Nat.add_le_add_iff_right, Nat.add_lt_add_iff_right]
      refine overlaid_write _ (fun hin => ?_) (fun hin => ?_) (h.styles i)
      . rw [hshow.wellFormed.styles]
        omega
      . rw [hshow.wellFormed'.styles]
        omega
    . rw [Pen.lineStates_colourTo, Pen.lineStates_colourTo]
      exact h.lineStates
    . rw [Pen.levels_colourTo, Pen.levels_colourTo]
      exact h.levels
  restyle := fun _ _ h => ⟨h.segment, h.styles, h.lineStates, h.levels⟩
  segment := fun _ h => h.segment
  setLineState := by
    intro style pen pen' line state hshow hfirst hlast h
    have hle := hshow.last_le
    have hle' := hshow.last_le'
    refine ⟨h.segment, h.styles, ?_, h.levels⟩
    intro l
    show (pen'.doc.setLineState (line + v.shift) state).lineStates[l + v.shift]?
        = (pen.doc.setLineState line state).lineStates[l]?
      ∨ ((pen.doc.setLineState line state).lineStates[l]? = _
        ∧ (pen'.doc.setLineState (line + v.shift) state).lineStates[l + v.shift]? = _)
    rw [Document.getElem?_setLineState, Document.getElem?_setLineState]
    simp only [Nat.add_right_cancel_iff]
    refine overlaid_write _ (fun hl => ?_) (fun hl => ?_) (h.lineStates l)
    . rw [hshow.wellFormed.lineStates]
      omega
    . rw [hshow.wellFormed'.lineStates]
      omega
  setLevel := by
    intro style pen pen' line level hshow hfirst hlast h
    have hle := hshow.last_le
    have hle' := hshow.last_le'
    refine ⟨h.segment, h.styles, h.lineStates, ?_⟩
    intro l
    show (pen'.doc.setLevel (line + v.shift) level).levels[l + v.shift]?
        = (pen.doc.setLevel line level).levels[l]?
      ∨ ((pen.doc.setLevel line level).levels[l]? = _
        ∧ (pen'.doc.setLevel (line + v.shift) level).levels[l + v.shift]? = _)
    rw [Document.getElem?_setLevel, Document.getElem?_setLevel]
    simp only [Nat.add_right_cancel_iff]
    refine overlaid_write _ (fun hl => ?_) (fun hl => ?_) (h.levels l)
    . rw [hshow.wellFormed.levels]
      omega
    . rw [hshow.wellFormed'.levels]
      omega

/--
What the second of two passes sees of its own text.
-/
def second (v : View) : View :=
  { shift := 0
    start := v.start + v.shift
    limit := v.limit + v.shift
    whole := v.whole
    first := v.first + v.shift
    last := v.last + v.shift
    stop := v.stop'
    stop' := v.stop'
    encoding := v.encoding
    options := v.options }

/--
What a pass sees of its own text from `pos` on.
-/
def behind (v : View) (doc : Document) (pos : Nat) : View :=
  { v with start := pos, first := doc.lineOf pos }

theorem reach_second (v : View) : v.second.reach = v.reach + v.shift := by
  unfold reach second
  dsimp
  split <;> omega

theorem Shows.second (h : v.Shows doc doc') : v.second.Shows doc' doc' where
  wellFormed := h.wellFormed'
  wellFormed' := h.wellFormed'
  encoding := h.encoding'
  encoding' := h.encoding'
  options := h.options'
  options' := h.options'
  lead := fun _ hi => absurd hi (Nat.not_lt_zero _)
  text := fun _ _ => rfl
  ends := by
    show if v.whole then doc'.size = v.limit + v.shift ∧ doc'.size = v.limit + v.shift
      else 0 < v.limit + v.shift ∧ LineIndex.startsLine doc'.text (v.limit + v.shift) = true
        ∧ LineIndex.startsLine doc'.text (v.limit + v.shift) = true
    split
    . next hwhole => exact ⟨(h.size_eq hwhole).2, (h.size_eq hwhole).2⟩
    . next hwhole =>
      obtain ⟨hpos, _, hstart⟩ := h.startsLine_limit (Bool.eq_false_iff.mpr hwhole)
      exact ⟨Nat.lt_of_lt_of_le hpos (Nat.le_add_right _ _), hstart, hstart⟩
  start_le := Nat.add_le_add_right h.start_le _
  first := by
    show v.first + v.shift = doc'.lineOf (v.start + v.shift)
    rw [h.lineOf h.start_le, h.first]
  last := h.last'
  reach_le := by
    rw [reach_second]
    exact h.reach_le'
  reach_le' := by
    rw [reach_second]
    exact h.reach_le'

end View

namespace Cursor

theorem levels_commit (c : Cursor) : c.commit.doc.levels = c.doc.levels :=
  Pen.levels_colourTo _ _ _

theorem levels_setState (c : Cursor) (state : Style) : (c.setState state).doc.levels = c.doc.levels :=
  levels_commit c

theorem levels_forwardSetState (c : Cursor) (state : Style) : (c.forwardSetState state).doc.levels = c.doc.levels :=
  (levels_setState c.forward state).trans (congrArg Document.levels (doc_forward c))

theorem lineStates_complete (c : Cursor) : c.complete.lineStates = c.doc.lineStates :=
  Pen.lineStates_colourTo _ _ _

theorem lineStates_setState (c : Cursor) (state : Style) : (c.setState state).doc.lineStates = c.doc.lineStates :=
  Pen.lineStates_colourTo _ _ _

theorem lineStates_forwardSetState (c : Cursor) (state : Style) : (c.forwardSetState state).doc.lineStates = c.doc.lineStates :=
  (lineStates_setState c.forward state).trans (congrArg Document.lineStates (doc_forward c))

namespace Alike

variable {v : View} {loose : Style → Bool} {rel : Style → Pen → Pen → Prop} {c c' : Cursor}

theorem second (h : Alike v rel c c') : Alike v.second Pen.Equal c' c' where
  shows := h.shows.second
  settled := h.settled'
  settled' := h.settled'
  pos := rfl
  state := rfl
  pen := rfl
  start_le := by
    have := h.start_le
    have := h.pos
    show v.start + v.shift ≤ c'.pos
    omega
  le_reach := by
    have := h.le_reach
    have := h.pos
    rw [View.reach_second]
    omega
  stop := h.stop'
  stop' := h.stop'

/--
The relation of the pens can be any that holds of them.
-/
theorem of_rel (h : Alike v rel c c') {rel' : Style → Pen → Pen → Prop} (hrel : rel' c.state c.pen c'.pen) :
    Alike v rel' c c' where
  shows := h.shows
  settled := h.settled
  settled' := h.settled'
  pos := h.pos
  state := h.state
  pen := hrel
  start_le := h.start_le
  le_reach := h.le_reach
  stop := h.stop
  stop' := h.stop'

/--
What lies behind a pass is of no matter to the rest of it.
-/
theorem fromPos (h : Alike v rel c c') (hin : c.pos < v.reach) : Alike (v.behind c.doc c.pos) rel c c' where
  shows :=
    { wellFormed := h.shows.wellFormed
      wellFormed' := h.shows.wellFormed'
      encoding := h.shows.encoding
      encoding' := h.shows.encoding'
      options := h.shows.options
      options' := h.shows.options'
      lead := h.shows.lead
      text := h.shows.text
      ends := h.shows.ends
      start_le := View.le_limit_of_lt_reach hin
      first := rfl
      last := h.shows.last
      reach_le := h.shows.reach_le
      reach_le' := h.shows.reach_le' }
  settled := h.settled
  settled' := h.settled'
  pos := h.pos
  state := h.state
  pen := h.pen
  start_le := Nat.le_refl _
  le_reach := h.le_reach
  stop := h.stop
  stop' := h.stop'

theorem commit_tight (hrel : v.Closed loose rel) (h : Alike v rel c c') : Alike v (Pen.Tight rel) c.commit c'.commit := by
  refine (h.commit hrel).of_rel ?_
  intro style
  have := (h.setState hrel style).pen
  exact this

theorem tight (hpen : ∀ style, rel style c.pen c'.pen) (h : Alike v rel c c') : Alike v (Pen.Tight rel) c c' :=
  h.of_rel hpen

theorem loosen (h : Alike v (Pen.Tight rel) c c') : Alike v rel c c' :=
  h.of_rel (h.pen c.state)

end Alike

end Cursor

end Highlight
