import Highlight.Proofs.Colouring

/-!
A text, and the same text one line lower, behind an empty line. A pass over the second one has coloured no byte of the
text when it comes to it, and from there on it does what a pass over the first one does.
-/

namespace Highlight

open LineIndex

/--
The text of the first document stands behind a line feed in the second one. It has the same styles there.
-/
structure Document.Lowered (doc doc' : Document) : Prop where
  wellFormed : doc.WellFormed
  wellFormed' : doc'.WellFormed
  pos : 0 < doc.size
  text : doc'.text = #[0x0A] ++ doc.text
  encoding : doc'.encoding = doc.encoding
  options : doc'.options = doc.options
  styles : ∀ i : Nat, doc'.styles[i + 1]? = doc.styles[i]?

/--
The whole text of a document, seen by a pass over it and by one over a document in which it stands one line lower.
-/
def View.lowered (doc : Document) : View :=
  { shift := 1
    start := 0
    limit := doc.size
    whole := true
    first := 0
    last := doc.lineCount
    stop := doc.size + 1
    stop' := doc.size + 2
    encoding := doc.encoding
    options := doc.options }

namespace Document

theorem lowered_fresh {text : Array UInt8} (hpos : 0 < text.size) (encoding : Encoding) (options : Options) :
    (fresh text encoding options).Lowered (fresh (#[0x0A] ++ text) encoding options) where
  wellFormed := wellFormed_fresh _ _ _
  wellFormed' := wellFormed_fresh _ _ _
  pos := hpos
  text := rfl
  encoding := rfl
  options := rfl
  styles := by
    intro i
    show (Array.replicate (#[0x0A] ++ text).size (0 : Style))[i + 1]? = (Array.replicate text.size 0)[i]?
    rw [Array.getElem?_replicate, Array.getElem?_replicate, Array.size_append]
    have : (#[0x0A] : Array UInt8).size = 1 := rfl
    by_cases hi : i < text.size
    . rw [if_pos (by omega), if_pos hi]
    . rw [if_neg (by omega), if_neg hi]

namespace Lowered

variable {doc doc' : Document} (h : doc.Lowered doc')
include h

theorem size : doc'.size = doc.size + 1 := by
  rw [Document.size, h.text, Array.size_append]
  exact Nat.add_comm 1 _

theorem lineFeed : doc'.text[0]? = some 0x0A := by
  rw [h.text, Array.getElem?_append_left (by decide)]
  rfl

theorem byte? (i : Nat) : doc'.text[i + 1]? = doc.text[i]? := by
  rw [h.text, Array.getElem?_append_right (Nat.le_add_left 1 i)]
  rfl

theorem endsLine : endsLine doc'.text 0 = true := by
  rw [LineIndex.endsLine, h.lineFeed]
  rfl

theorem decodeAt : doc'.decodeAt 0 = (Code.lineFeed, 1) :=
  Encoding.decodeAt_of_ascii _ h.lineFeed (by decide)

theorem shows : (View.lowered doc).Shows doc doc' where
  wellFormed := h.wellFormed
  wellFormed' := h.wellFormed'
  encoding := rfl
  encoding' := h.encoding
  options := rfl
  options' := h.options
  lead := by
    intro i hi
    obtain rfl : i = 0 := Nat.lt_one_iff.mp hi
    exact h.lineFeed
  text := fun i _ => h.byte? i
  ends := ⟨rfl, h.size⟩
  start_le := Nat.zero_le _
  first := h.wellFormed.lineOf_zero.symm
  last := rfl
  reach_le := Nat.le_refl _
  reach_le' := Nat.le_refl _

end Lowered

end Document

namespace Pen

/--
Pens that have painted the same, `shift` bytes further behind in the second document.
-/
structure Shifted (shift : Nat) (_ : Style) (pen pen' : Pen) : Prop where
  segment : pen'.segment = pen.segment + shift
  styles : ∀ i : Nat, pen'.doc.styles[i + shift]? = pen.doc.styles[i]?

/--
The second pen can still have to colour what is open in front of the part, in the style of the token that goes on
there.
-/
def ShiftedLate (v : View) (loose : Style → Bool) (opened style : Style) (pen pen' : Pen) : Prop :=
  ∃ mid, Late loose (v.start + v.shift) opened style pen' mid ∧ Shifted v.shift style pen mid

theorem Late.sameSource {loose : Style → Bool} {start : Nat} {opened style : Style} {pen pen' : Pen}
    (h : Late loose start opened style pen pen') : pen.doc.SameSource pen'.doc := by
  rcases h with rfl | ⟨_, _, _, rfl⟩
  . exact .refl _
  . exact Cursor.sameSource_colourTo _ _ _

theorem ShiftedLate.segment {v : View} {loose : Style → Bool} {opened style : Style} {pen pen' : Pen}
    (h : ShiftedLate v loose opened style pen pen') (hstyle : style ≠ opened) : pen'.segment = pen.segment + v.shift := by
  obtain ⟨mid, rfl | ⟨_, heq, _⟩, hshifted⟩ := h
  . exact hshifted.segment
  . exact absurd heq hstyle

/--
Behind the last token, nothing is left to colour.
-/
theorem ShiftedLate.styles {v : View} {loose : Style → Bool} {opened : Style} {pen pen' : Pen}
    (h : ∀ style, ShiftedLate v loose opened style pen pen') (i : Nat) : pen'.doc.styles[i + v.shift]? = pen.doc.styles[i]? := by
  obtain ⟨mid, rfl | ⟨_, heq, _⟩, hshifted⟩ := h (opened + 1)
  . exact hshifted.styles i
  . simp at heq

/--
In front of the first byte, there is nothing to colour.
-/
theorem colourTo_zero (pen : Pen) (style : Style) : pen.colourTo 0 style = pen := by
  rw [colourTo, Nat.zero_min]
  exact if_neg (Nat.not_lt_zero _)

/--
A pen at the start of a document in which it has painted nothing yet.
-/
structure Begun (doc : Document) (pen : Pen) : Prop where
  sameSource : doc.SameSource pen.doc
  segment : pen.segment = 0
  styles : pen.doc.styles = doc.styles

namespace Begun

variable {doc : Document} {pen : Pen}

theorem start (doc : Document) : Begun doc ⟨doc, 0⟩ :=
  ⟨.refl doc, rfl, rfl⟩

theorem setLineState (h : Begun doc pen) (line : Nat) (state : LineState) : Begun doc (pen.setLineState line state) :=
  ⟨h.sameSource.trans (Document.sameSource_setLineState _ _ _), h.segment, h.styles⟩

theorem setLevel (h : Begun doc pen) (line : Nat) (level : Level) : Begun doc (pen.setLevel line level) :=
  ⟨h.sameSource.trans (Document.sameSource_setLevel _ _ _), h.segment, h.styles⟩

end Begun

end Pen

namespace View

variable {v : View} {loose : Style → Bool}

theorem closed_shifted : v.Closed loose (Pen.Shifted v.shift) where
  colourTo := by
    intro style pen pen' style' pos hshow hstart hreach h
    have hmin := hshow.min_size hreach
    constructor
    . rw [Pen.segment_colourTo, Pen.segment_colourTo, h.segment, hmin]
      omega
    . intro i
      rw [Pen.getElem?_styles_colourTo, Pen.getElem?_styles_colourTo, h.segment, hmin, h.styles]
      simp only [Nat.add_le_add_iff_right, Nat.add_lt_add_iff_right]
  restyle := fun _ _ h => ⟨h.segment, h.styles⟩
  segment := fun _ h => h.segment
  setLineState := fun _ _ _ _ h => ⟨h.segment, h.styles⟩
  setLevel := fun _ _ _ _ h => ⟨h.segment, h.styles⟩

/--
The second pen goes on as if it had coloured what is open in front of the part, as soon as it has.
-/
theorem closed_shiftedLate (opened : Style) : v.Closed loose (Pen.ShiftedLate v loose opened) := by
  have hlater : v.second.Closed loose (Pen.Late loose v.second.start opened) := closed_late rfl opened
  have hclosed : v.Closed loose (Pen.Shifted v.shift) := closed_shifted
  exact
    { colourTo := by
        rintro style pen pen' style' pos hshow hstart hreach ⟨mid, hlate, hshifted⟩
        have hreach' : pos + v.shift ≤ v.second.reach := by
          rw [reach_second]
          exact Nat.add_le_add_right hreach _
        refine ⟨_, hlater.colourTo style' ?_ (Nat.add_le_add_right hstart _) hreach' hlate, ?_⟩
        . exact hshow.second.of_sameSource (.refl _) hlate.sameSource
        . exact hclosed.colourTo style' (hshow.of_sameSource (.refl _) hlate.sameSource) hstart hreach hshifted
      restyle := by
        rintro style pen pen' style' hloose ⟨mid, hlate, hshifted⟩
        exact ⟨mid, hlater.restyle style' hloose hlate, hclosed.restyle style' hloose hshifted⟩
      segment := by
        rintro style pen pen' hloose ⟨mid, hlate, hshifted⟩
        have hsegment : mid.segment = pen'.segment := hlater.segment hloose hlate
        rw [← hsegment, hshifted.segment]
      setLineState := by
        rintro style pen pen' line state hshow hfirst hlast ⟨mid, hlate, hshifted⟩
        refine ⟨_, hlater.setLineState state ?_ (Nat.add_le_add_right hfirst _) (Nat.add_lt_add_right hlast _) hlate, ?_⟩
        . exact hshow.second.of_sameSource (.refl _) hlate.sameSource
        . exact ⟨hshifted.segment, hshifted.styles⟩
      setLevel := by
        rintro style pen pen' line level hshow hfirst hlast ⟨mid, hlate, hshifted⟩
        refine ⟨_, hlater.setLevel level ?_ (Nat.add_le_add_right hfirst _) (Nat.add_lt_add_right hlast _) hlate, ?_⟩
        . exact hshow.second.of_sameSource (.refl _) hlate.sameSource
        . exact ⟨hshifted.segment, hshifted.styles⟩ }

end View

/--
What comes to the same in both branches does so behind them.
-/
theorem apply_ite_congr {α β : Type} {f : α → β} {p : Prop} [Decidable p] {a a' b b' : α} (ha : f a' = f a) (hb : f b' = f b) :
    f (if p then a' else b') = f (if p then a else b) := by
  split
  . exact ha
  . exact hb

namespace Cursor

/--
The cursor that a pass over all of a document begins with, holding any pen.
-/
def begin (doc : Document) (pen : Pen) : Cursor :=
  { start doc (doc.spanOf 0 doc.size) with pen }

theorem commit_of_zero {c : Cursor} (h : c.pos = 0) : c.commit = c := by
  have hpen : c.pen.colourTo c.pos c.state = c.pen := by rw [h, Pen.colourTo_zero]
  rw [commit, hpen]

theorem setState_of_zero {c : Cursor} (h : c.pos = 0) : c.setState c.state = c := by
  rw [setState, commit_of_zero h]
  rfl

theorem forward_setLineState (c : Cursor) (line : Nat) (state : LineState) :
    (c.setLineState line state).forward = c.forward.setLineState line state := by
  unfold forward
  show (if c.more then _ else _) = (if c.more then _ else _ : Cursor).setLineState line state
  split <;> rfl

/--
The cursor as if it had come over a line end.
-/
def behindLineEnd (c : Cursor) : Cursor :=
  { c with prev := Code.lineFeed }

theorem Settled.behindLineEnd {c : Cursor} (h : c.Settled) : c.behindLineEnd.Settled :=
  ⟨h.wellFormed, h.cur, h.next, h.line, h.atLineStart, h.atLineEnd, h.stop_le, h.segment_le⟩

theorem Alike.behindLineEnd {v : View} {rel : Style → Pen → Pen → Prop} {c c' : Cursor} (h : Alike v rel c c') :
    Alike v rel c.behindLineEnd c' :=
  ⟨h.shows, h.settled.behindLineEnd, h.settled', h.pos, h.state, h.pen, h.start_le, h.le_reach, h.stop, h.stop'⟩

section Begin

variable {doc : Document} {pen : Pen} (hdoc : doc.WellFormed) (hpos : 0 < doc.size)
include hdoc hpos

theorem begun_start : (Cursor.start doc (doc.spanOf 0 doc.size)).pen.Begun doc := by
  rw [pen_start hdoc startsLine_zero hpos (.inr rfl)]
  exact .start doc

theorem pos_begin : (Cursor.begin doc pen).pos = 0 :=
  pos_start hdoc startsLine_zero hpos (.inr rfl)

theorem line_begin : (Cursor.begin doc pen).line = 0 :=
  (line_start hdoc startsLine_zero hpos (.inr rfl)).trans hdoc.lineOf_zero

theorem state_begin : (Cursor.begin doc pen).state = 0 :=
  state_start hdoc startsLine_zero hpos (.inr rfl)

theorem prev_begin : (Cursor.begin doc pen).prev = 0 :=
  prev_start hdoc startsLine_zero hpos (.inr rfl)

theorem atLineStart_begin : (Cursor.begin doc pen).atLineStart = true :=
  atLineStart_start hdoc startsLine_zero hpos (.inr rfl)

theorem more_begin : (Cursor.begin doc pen).more = true :=
  more_start hdoc startsLine_zero hpos (.inr rfl)

theorem pos_lt_reach_begin : (Cursor.begin doc pen).pos < (View.lowered doc).reach := by
  rw [pos_begin hdoc hpos]
  exact Nat.succ_pos _

theorem stop_begin : (Cursor.begin doc pen).stop = doc.size + 1 := by
  rw [begin, start_spanOf hdoc startsLine_zero hpos (.inr rfl)]
  show doc.cursorStop doc.size = _
  rw [Document.cursorStop, beq_self_eq_true, if_pos rfl]

theorem settled_begin (hpen : pen.Begun doc) : (Cursor.begin doc pen).Settled := by
  refine (settled_start doc hdoc (doc.spanOf 0 doc.size)).of_pen pen ?_ ?_ _
  . rw [Cursor.doc, pen_start hdoc startsLine_zero hpos (.inr rfl)]
    exact hpen.sameSource
  . rw [hpen.segment]
    exact Nat.zero_le _

end Begin

end Cursor

namespace Document.Lowered

open Cursor

variable {doc doc' : Document} {pen pen' : Pen} (h : doc.Lowered doc')
include h

theorem pos' : 0 < doc'.size := by
  rw [h.size]
  exact Nat.succ_pos _

section Begun

variable (hpen' : pen'.Begun doc')
include hpen'

theorem decodeAt_begin : (Cursor.begin doc' pen').doc.decodeAt (Cursor.begin doc' pen').pos = (Code.lineFeed, 1) := by
  have htext : (Cursor.begin doc' pen').doc.text = doc'.text := hpen'.sameSource.text
  have hencoding : (Cursor.begin doc' pen').doc.encoding = doc'.encoding := hpen'.sameSource.encoding
  rw [pos_begin h.wellFormed' h.pos', Document.decodeAt, htext, hencoding]
  exact h.decodeAt

theorem cur_begin : (Cursor.begin doc' pen').cur = Code.lineFeed := by
  rw [(settled_begin h.wellFormed' h.pos' hpen').cur_eq, h.decodeAt_begin hpen']

theorem width_begin : (Cursor.begin doc' pen').width = 1 := by
  rw [(settled_begin h.wellFormed' h.pos' hpen').width_eq, h.decodeAt_begin hpen']

theorem atLineEnd_begin : (Cursor.begin doc' pen').atLineEnd = true := by
  have htext : (Cursor.begin doc' pen').doc.text = doc'.text := hpen'.sameSource.text
  rw [(settled_begin h.wellFormed' h.pos' hpen').atLineEnd, h.width_begin hpen', pos_begin h.wellFormed' h.pos', htext, h.endsLine]
  rfl

/--
Behind the line feed, the cursor stands at the start of the text.
-/
theorem pos_forward_begin : (Cursor.begin doc' pen').forward.pos = 1 := by
  rw [pos_forward (more_begin h.wellFormed' h.pos'), pos_begin h.wellFormed' h.pos', h.width_begin hpen']

theorem line_forward_begin : (Cursor.begin doc' pen').forward.line = 1 := by
  rw [line_forward (more_begin h.wellFormed' h.pos'), h.atLineEnd_begin hpen', if_pos rfl, line_begin h.wellFormed' h.pos']

theorem atLineStart_forward_begin : (Cursor.begin doc' pen').forward.atLineStart = true := by
  rw [atLineStart_forward (more_begin h.wellFormed' h.pos'), h.atLineEnd_begin hpen']

theorem prev_forward_begin : (Cursor.begin doc' pen').forward.prev = Code.lineFeed := by
  rw [prev_forward (more_begin h.wellFormed' h.pos'), h.cur_begin hpen']

omit hpen' in
theorem state_forward_begin : (Cursor.begin doc' pen').forward.state = 0 := by
  rw [state_forward (more_begin h.wellFormed' h.pos'), state_begin h.wellFormed' h.pos']

end Begun

variable (hpen : pen.Begun doc) (hpen' : pen'.Begun doc')
include hpen hpen'

theorem shifted (opened style : Style) : Pen.Shifted 1 style pen (pen'.colourTo 1 opened) where
  segment := by
    have hsize : pen'.doc.size = doc.size + 1 := hpen'.sameSource.size.trans h.size
    rw [Pen.segment_colourTo, hpen.segment, hpen'.segment]
    omega
  styles := by
    intro i
    have hbehind : ¬ (pen'.segment ≤ i + 1 ∧ i + 1 < min 1 pen'.doc.size) := by omega
    rw [Pen.getElem?_styles_colourTo, if_neg hbehind, hpen.styles, hpen'.styles, h.styles]

/--
Only the line feed in front of the text is open.
-/
theorem shiftedLate {loose : Style → Bool} {opened : Style} (hloose : loose opened = true) :
    Pen.ShiftedLate (.lowered doc) loose opened opened pen pen' := by
  refine ⟨pen'.colourTo 1 opened, .inr ⟨hloose, rfl, ?_, rfl⟩, h.shifted hpen hpen' opened opened⟩
  rw [hpen'.segment]
  exact Nat.zero_le _

/--
The cursors of the two passes at the start of the text.
-/
theorem alike {rel : Style → Pen → Pen → Prop} (hrel : rel 0 pen pen') :
    Cursor.Alike (.lowered doc) rel (.begin doc pen) (Cursor.begin doc' pen').forward := by
  have hmore' : (Cursor.begin doc' pen').more = true := more_begin h.wellFormed' h.pos'
  have hpos : (Cursor.begin doc pen).pos = 0 := pos_begin h.wellFormed h.pos
  exact
    { shows := by
        rw [doc_forward]
        exact h.shows.of_sameSource hpen.sameSource hpen'.sameSource
      settled := settled_begin h.wellFormed h.pos hpen
      settled' := (settled_begin h.wellFormed' h.pos' hpen').forward hmore'
      pos := by rw [h.pos_forward_begin hpen', hpos]; rfl
      state := by rw [h.state_forward_begin, state_begin h.wellFormed h.pos]
      pen := by
        rw [pen_forward hmore', state_begin h.wellFormed h.pos]
        exact hrel
      start_le := Nat.zero_le _
      le_reach := by
        rw [hpos]
        exact Nat.zero_le _
      stop := stop_begin h.wellFormed h.pos
      stop' := by
        rw [stop_forward, stop_begin h.wellFormed' h.pos', h.size]
        rfl }

end Document.Lowered

namespace Colouring.LawfulPass

variable {σ : Type} {m : Colouring σ} {doc doc' : Document}

/--
Passes over all of the two documents that come by alike scans leave the same styles in the text.
-/
theorem styles_lowered (h : m.LawfulPass) (hlowered : doc.Lowered doc') (hgood : m.Good (m.start doc 0 doc.size))
    (hgood' : m.Good (m.start doc' 0 doc'.size)) {s s' : σ} (hrun : Iterates m.more m.step (m.start doc 0 doc.size) s)
    (hrun' : Iterates m.more m.step (m.start doc' 0 doc'.size) s') {opened : Style}
    (halike : m.alike (.lowered doc) (Pen.ShiftedLate (.lowered doc) m.loose opened) s s') (i : Nat) :
    (m.colour doc' 0 doc'.size).styles[i + 1]? = (m.colour doc 0 doc.size).styles[i]? := by
  have hclosed : (View.lowered doc).Closed m.loose (Pen.ShiftedLate (.lowered doc) m.loose opened) := View.closed_shiftedLate opened
  obtain ⟨t', hrest', hend'⟩ := h.ends (h.good_of_iterates hrun' hgood')
  obtain ⟨t, hrest, halike', _⟩ := h.lockstep hclosed rfl (h.good_of_iterates hrun hgood) halike hrest'
  have hend := h.more_eq_false rfl rfl halike' hend'
  obtain ⟨pen, pen', hpens, hfinish, hfinish', _⟩ := h.alike_finish hclosed halike'
  rw [h.colour_eq hlowered.wellFormed startsLine_zero hlowered.pos (.inr rfl) hgood ⟨hrun.trans hrest, hend⟩,
    h.colour_eq hlowered.wellFormed' startsLine_zero hlowered.pos' (.inr rfl) hgood' ⟨hrun'.trans hrest', hend'⟩, hfinish,
    hfinish']
  exact Pen.ShiftedLate.styles hpens i

end Colouring.LawfulPass

end Highlight
