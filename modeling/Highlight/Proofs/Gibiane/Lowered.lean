import Highlight.Proofs.Cursor.Lowered
import Highlight.Proofs.Cursor.Tiles
import Highlight.Proofs.Gibiane.Pass

/-!
At the start of a text, no character stands in front of the first one, and so a number that stands there is none to
Gibiane. This is all that its first line differs by from the same line behind an empty one.
-/

namespace Highlight

open LineIndex

namespace Cursor

/--
Behind the byte at `i`: it is painted in the style `style`, or it is a part of the open token, which has that style, if and
only if `p`.
-/
structure Decided (i : Nat) (style : Style) (p : Prop) (c : Cursor) : Prop where
  wellFormed : c.doc.WellFormed
  lt_pos : i < c.pos
  lt_size : i < c.doc.size
  painted : i < c.pen.segment → (c.doc.styles[i]? = some style ↔ p)
  opened : c.pen.segment ≤ i → (c.state = style ↔ p)

namespace Decided

variable {i : Nat} {style : Style} {p : Prop} {c : Cursor}

/--
The character that the cursor goes on from is a part of the open token.
-/
theorem onward (h : c.Settled) (hmore : c.more = true) (hsize : c.pos < c.doc.size) (hstate : c.state = style ↔ p) :
    Decided c.pos style p c.forward where
  wellFormed := by
    rw [doc_forward]
    exact h.wellFormed
  lt_pos := by
    rw [pos_forward hmore]
    exact Nat.lt_add_of_pos_right h.width_pos
  lt_size := by
    rw [doc_forward]
    exact hsize
  painted := by
    rw [pen_forward hmore]
    exact fun hlt => absurd hlt (Nat.not_lt_of_le h.segment_le)
  opened := by
    rw [state_forward hmore]
    exact fun _ => hstate

variable (h : Decided i style p c)
include h

theorem lt_segment_colourTo (style' : Style) : i < (c.pen.colourTo c.pos style').segment :=
  Nat.lt_of_lt_of_le (Nat.lt_min.mpr ⟨h.lt_pos, h.lt_size⟩) (Pen.le_segment_colourTo _ _ _)

theorem getElem?_complete : c.complete.styles[i]? = some style ↔ p := by
  have hmin : i < min c.pos c.pen.doc.size := Nat.lt_min.mpr ⟨h.lt_pos, h.lt_size⟩
  show (c.pen.colourTo c.pos c.state).doc.styles[i]? = some style ↔ p
  rw [Pen.getElem?_styles_colourTo]
  by_cases hopen : c.pen.segment ≤ i
  . have hsize : i < c.pen.doc.styles.size := Nat.lt_of_lt_of_eq h.lt_size h.wellFormed.styles.symm
    rw [if_pos ⟨hopen, hmin⟩, Array.getElem?_eq_getElem hsize, Option.map_some, Option.some_inj]
    exact h.opened hopen
  . rw [if_neg (fun hboth => hopen hboth.1)]
    exact h.painted (Nat.lt_of_not_le hopen)

theorem setState (style' : Style) : Decided i style p (c.setState style') where
  wellFormed := (sameSource_colourTo _ _ _).wellFormed h.wellFormed
  lt_pos := h.lt_pos
  lt_size := Nat.lt_of_lt_of_eq h.lt_size (sameSource_colourTo _ _ _).size.symm
  painted := fun _ => h.getElem?_complete
  opened := fun hopen => absurd (h.lt_segment_colourTo c.state) (Nat.not_lt_of_le hopen)

/--
A token that never has the style can get any other style that is not the one either.
-/
theorem changeState (hstate : c.state ≠ style) {style' : Style} (hstyle : style' ≠ style) :
    Decided i style p (c.changeState style') :=
  { h with opened := fun hopen => (iff_of_false hstyle hstate).trans (h.opened hopen) }

theorem forward : Decided i style p c.forward := by
  have hpos : c.pos ≤ c.forward.pos := c.pos_le_forwardBy 1
  have hstate : c.forward.state = c.state := c.state_forwardBy 1
  have hpen : c.forward.pen = c.pen := c.forward_pen
  exact
    { wellFormed := by
        rw [Cursor.doc, hpen]
        exact h.wellFormed
      lt_pos := Nat.lt_of_lt_of_le h.lt_pos hpos
      lt_size := by
        rw [Cursor.doc, hpen]
        exact h.lt_size
      painted := by
        rw [Cursor.doc, hpen]
        exact h.painted
      opened := by
        rw [hpen, hstate]
        exact h.opened }

end Decided

end Cursor

namespace Gibiane

open Cursor

/--
Whether the first two characters of a text are, behind a separator, those of a number.
-/
def startsWithNumber (doc : Document) : Bool :=
  let (first, width) := doc.decodeAt 0
  let (second, _) := doc.decodeAt width
  (first.isDigit || (first.is '.' && second.isDigit)) && (second.is '.' || second.isDigit || isSeparator second)

variable {keywords : Keywords} {doc doc' : Document} {pen pen' : Pen}

namespace Scan

variable {s s' t t' : Scan}

/--
The scan as if it had come over a line end.
-/
def behindBreak (s : Scan) : Scan :=
  s.withCursor s.cursor.behindLineEnd

/--
The scan, one character further.
-/
def onward (s : Scan) : Scan :=
  s.withCursor s.cursor.forward

theorem seesNumber_behindBreak (s : Scan) :
    s.behindBreak.seesNumber = ((s.cursor.cur.isDigit || (s.cursor.sees '.' && s.cursor.next.isDigit))
      && (s.cursor.next.is '.' || s.cursor.next.isDigit || isSeparator s.cursor.next)) :=
  congrArg (· && _) (Bool.and_true _)

/--
The word that ended in front of the cursor, painted.
-/
def endWord (s : Scan) : Scan :=
  s.withCursor (s.cursor.setState Style.default)

theorem cursor_onward (s : Scan) : s.onward.cursor = s.cursor.forward := rfl

theorem pos_endWord (s : Scan) : s.endWord.cursor.pos = s.cursor.pos := rfl

theorem more_endWord (s : Scan) : s.endWord.cursor.more = s.cursor.more := rfl

theorem prev_endWord (s : Scan) : s.endWord.cursor.prev = s.cursor.prev := rfl

theorem size_endWord (s : Scan) : s.endWord.cursor.doc.size = s.cursor.doc.size :=
  (sameSource_colourTo _ _ _).size

/--
In front of the first letter of a word, it does not matter which one is looked up.
-/
theorem enter_of_fresh (h : Fresh s.cursor) (token token' : String) : s.enter keywords token' = s.enter keywords token := by
  unfold Scan.enter
  simp only [setState_changeState_of_fresh h]

/--
A step behind a word that ends with its first character, or has none.
-/
theorem step_of_ended (hstate : s.cursor.state = Style.default) (hended : Ended s.cursor) :
    s.step keywords = (s.endWord.enter keywords "").onward := by
  unfold Scan.step
  dsimp only
  rw [leave_of_ended keywords hstate hended]
  exact congrArg onward (enter_of_fresh (fresh_setState s.cursor Style.default) _ _)

/--
A word that has ended can be painted in front of the step.
-/
theorem step_endWord (hstate : s.cursor.state = Style.default) (hended : Ended s.cursor)
    (hsize : s.cursor.pos ≤ s.cursor.doc.size) : s.endWord.step keywords = s.step keywords := by
  have hfresh : Fresh s.endWord.cursor := fresh_setState s.cursor Style.default
  have hended' : Ended s.endWord.cursor := by
    have hsame := size_endWord s
    have hpos := pos_endWord s
    unfold Fresh at hfresh
    intro hlt
    omega
  have hagain : s.endWord.endWord = s.endWord := by
    refine congrArg s.withCursor (?_ : s.endWord.cursor.setState Style.default = s.endWord.cursor)
    rw [Cursor.setState, Cursor.commit, colourTo_of_fresh hfresh]
    rfl
  rw [step_of_ended hstate hended, step_of_ended (s := s.endWord) rfl hended', hagain]

theorem enter_lineFeed (hstate : s.cursor.state = Style.default) (hcur : s.cursor.cur = Code.lineFeed) (hfresh : Fresh s.cursor)
    (token : String) : s.enter keywords token = { s with cursor := s.cursor.setState Style.default, inNumber := false } := by
  unfold Scan.enter seesNumber Cursor.sees
  dsimp only
  rw [hstate, hcur, setState_changeState_of_fresh hfresh]
  rfl

/--
At the start of a pass, the character in front of it matters to numbers only.
-/
theorem onward_enter (hfirst : s.cursor.pos = s.first) (hnumber : s.seesNumber = false) (hnumber' : s.behindBreak.seesNumber = false)
    (token : String) : (s.behindBreak.enter keywords token).onward = (s.enter keywords token).onward := by
  have hfirst : (s.cursor.pos == s.first) = true := beq_iff_eq.mpr hfirst
  have hfirst' : (s.behindBreak.cursor.pos == s.behindBreak.first) = true := hfirst
  unfold Scan.enter
  dsimp only
  rw [hnumber, hnumber', hfirst, hfirst', Bool.or_true, Bool.or_true]
  refine apply_ite_congr rfl (apply_ite_congr rfl (apply_ite_congr rfl ?_))
  -- What ends or starts here leaves the character in front of the cursor as it is.
  refine congrArg (fun cursor => ({ s with cursor, inNumber := false } : Scan)) (?_ : Cursor.forward _ = Cursor.forward _)
  exact apply_ite_congr rfl (apply_ite_congr rfl rfl)

theorem endWord_of_zero (hstate : s.cursor.state = Style.default) (hpos : s.cursor.pos = 0) : s.endWord = s := by
  have hsame := setState_of_zero hpos
  rw [hstate] at hsame
  exact congrArg s.withCursor hsame

/--
At the start of a text, only a number that stands there can be missed.
-/
theorem step_behindBreak (hstate : s.cursor.state = Style.default) (hpos : s.cursor.pos = 0) (hfirst : s.first = 0)
    (hnumber : s.seesNumber = false) (hnumber' : s.behindBreak.seesNumber = false) :
    s.behindBreak.step keywords = s.step keywords := by
  have hended : Ended s.cursor := fun hlt => absurd (Nat.lt_of_lt_of_eq hlt hpos) (Nat.not_lt_zero _)
  rw [step_of_ended hstate hended, step_of_ended (s := s.behindBreak) hstate hended, endWord_of_zero hstate hpos,
    endWord_of_zero (s := s.behindBreak) hstate hpos]
  exact onward_enter (hpos.trans hfirst.symm) hnumber hnumber' ""

theorem step_lineFeed (hstate : s.cursor.state = Style.default) (hcur : s.cursor.cur = Code.lineFeed) (hpos : s.cursor.pos = 0)
    (hnumber : s.inNumber = false) : s.step keywords = s.onward := by
  have hended : Ended s.cursor := fun hlt => absurd (Nat.lt_of_lt_of_eq hlt hpos) (Nat.not_lt_zero _)
  have hword : s.endWord = s := endWord_of_zero hstate hpos
  have hfresh : Fresh s.cursor := Nat.le_trans (Nat.min_le_left _ _) (hpos ▸ Nat.zero_le _)
  have henter : s.enter keywords "" = s := by
    rw [enter_lineFeed hstate hcur hfresh, ← hnumber]
    exact hword
  rw [step_of_ended hstate hended, hword, henter]

end Scan

section Decided

variable {keywords : Keywords} {i : Nat} {p : Prop}

theorem getD_wordStyle?_ne_number (word : String) {style : Highlight.Style} (hstyle : style ≠ Style.number) :
    (wordStyle? keywords word).getD style ≠ Style.number := by
  intro heq
  have hmem := getD_wordStyle?_mem keywords word style
  rw [heq, List.mem_cons] at hmem
  exact hmem.elim (fun hsame => hstyle hsame.symm) (by decide)

theorem getD_quotedStyle?_ne_number (token : String) {style : Highlight.Style} (hstyle : style ≠ Style.number) :
    (Scan.quotedStyle? keywords token).getD style ≠ Style.number := by
  intro heq
  have hmem := getD_quotedStyle?_mem keywords token style
  rw [heq, List.mem_cons] at hmem
  exact hmem.elim (fun hsame => hstyle hsame.symm) (by decide)

theorem decided_leave {c : Cursor} (h : Decided i Style.number p c) (token : String) :
    Decided i Style.number p (Scan.leave keywords token c) := by
  unfold Scan.leave
  split
  . split
    . exact h.setState _
    . exact h
  . next hstate =>
    split
    . have hstring : Style.string ≠ Style.number := by decide
      have hforward : c.forward.state = Style.string := (c.state_forwardBy 1).trans hstate
      rw [hstate]
      exact (h.forward.changeState (hforward ▸ hstring) (getD_quotedStyle?_ne_number token hstring)).setState _
    . exact h
  . exact h.setState _
  . split
    . exact h.setState _
    . exact h

theorem decided_enter {s : Scan} (h : Decided i Style.number p s.cursor) (token : String) :
    Decided i Style.number p (s.enter keywords token).cursor := by
  unfold Scan.enter
  dsimp only
  split
  . exact h
  . next hstate =>
    have hstate : s.cursor.state = Style.default := by simpa using hstate
    have hdefault : Style.default ≠ Style.number := by decide
    have htable : Style.table ≠ Style.number := by decide
    split
    . exact h.setState _
    . split
      . exact h.setState _
      . split
        . exact h.setState _
        . split
          . exact (h.changeState (hstate ▸ hdefault) (getD_wordStyle?_ne_number token hdefault)).setState _
          . split
            . exact (h.changeState (hstate ▸ hdefault) htable).setState _
            . exact h

/--
Whether a byte that a pass has come by gets the style of a number does not change any more.
-/
theorem decided_step {s : Scan} (h : Decided i Style.number p s.cursor) : Decided i Style.number p (s.step keywords).cursor :=
  (decided_enter (s := s.withCursor _) (decided_leave h _) _).forward

theorem seesNumber_of_cur {s : Scan} (hdigit : s.cursor.cur.isDigit = false) (hpoint : s.cursor.cur.is '.' = false) :
    s.seesNumber = false := by
  unfold Scan.seesNumber Cursor.sees
  dsimp only
  rw [hdigit, hpoint]
  rfl

/--
Outside of words, a character gets the style of a number only if it is seen as one.
-/
theorem decided_onward_enter {s : Scan} (h : s.cursor.Settled) (hmore : s.cursor.more = true)
    (hstate : s.cursor.state = Style.default) (hsize : s.cursor.pos < s.cursor.doc.size) (token : String) :
    Decided s.cursor.pos Style.number (s.seesNumber = true) (s.enter keywords token).onward.cursor := by
  have hset (style style' : Highlight.Style) (hstyle : style' = Style.number ↔ s.seesNumber = true) :
      Decided s.cursor.pos Style.number (s.seesNumber = true) ((s.cursor.changeState style).setState style').forward :=
    Decided.onward (c := (s.cursor.changeState style).setState style') ((h.changeState style).setState style') hmore
      (Nat.lt_of_lt_of_eq hsize (sameSource_colourTo _ _ _).size.symm) hstyle
  have hmissed (style : Highlight.Style) (hstyle : style ≠ Style.number) (hnumber : s.seesNumber = false) :
      style = Style.number ↔ s.seesNumber = true := iff_of_false hstyle (Bool.eq_false_iff.mp hnumber)
  unfold Scan.enter
  dsimp only
  rw [hstate]
  split
  . next hopen => exact absurd hopen (by decide)
  . split
    . next hstar =>
      have hcur : s.cursor.cur = '*'.toNat := beq_iff_eq.mp (Bool.and_eq_true_iff.mp hstar).1
      exact hset _ _ (hmissed _ (by decide) (seesNumber_of_cur (hcur ▸ rfl) (hcur ▸ rfl)))
    . split
      . next hquote =>
        have hcur : s.cursor.cur = Code.apostrophe := beq_iff_eq.mp hquote
        exact hset _ _ (hmissed _ (by decide) (seesNumber_of_cur (hcur ▸ rfl) (hcur ▸ rfl)))
      . split
        . next hnumber => exact hset _ _ (iff_of_true rfl hnumber)
        . next hnumber =>
          have hnumber := Bool.eq_false_iff.mpr hnumber
          split
          . exact hset _ _ (hmissed _ (by decide) hnumber)
          . split
            . exact hset _ _ (hmissed _ (by decide) hnumber)
            . exact Decided.onward h hmore hsize (by rw [hstate]; exact hmissed _ (by decide) hnumber)

end Decided

/--
What a pass over all of a document begins with.
-/
def Scan.begin (doc : Document) : Scan :=
  .ofSpan (doc.spanOf 0 doc.size) doc

theorem pos_scanBegin (hdoc : doc.WellFormed) (hpos : 0 < doc.size) : (Scan.begin doc).cursor.pos = 0 :=
  pos_begin hdoc hpos

/--
What a pass leaves of a byte that it has come by.
-/
theorem number_iff_of_decided (hdoc : doc.WellFormed) (hpos : 0 < doc.size) {s : Scan} {i : Nat} {p : Prop}
    (hrun : Iterates (pass keywords).more (pass keywords).step (Scan.begin doc) s) (hs : Decided i Style.number p s.cursor) :
    ((pass keywords).colour doc 0 doc.size).styles[i]? = some Style.number ↔ p := by
  have hlawful := lawfulPass keywords
  have hgood : (pass keywords).Good (Scan.begin doc) := good_pass keywords hdoc startsLine_zero hpos (.inr rfl)
  obtain ⟨t, hrest, hend⟩ := hlawful.ends (hlawful.good_of_iterates hrun hgood)
  have ht : Decided i Style.number p t.cursor :=
    hrest.invariant (fun s => Decided i Style.number p s.cursor) (fun _ _ => decided_step) hs
  rw [hlawful.colour_eq hdoc startsLine_zero hpos (.inr rfl) hgood ⟨hrun.trans hrest, hend⟩]
  exact ht.getElem?_complete

section Begin

variable (h : doc.Lowered doc')
include h

theorem pos_lt_reach_scanBegin : (Scan.begin doc).behindBreak.cursor.pos < (View.lowered doc).reach := by
  have hpos : (Scan.begin doc).behindBreak.cursor.pos = 0 := pos_scanBegin h.wellFormed h.pos
  rw [hpos]
  exact Nat.succ_pos _

/--
At the start of a text, the separator in front of a number is missing.
-/
theorem seesNumber_begin : (Scan.begin doc).seesNumber = false := by
  have hprev : (Scan.begin doc).cursor.prev = 0 := prev_begin h.wellFormed h.pos
  have hlead : ((Scan.begin doc).cursor.prev.is '.' || ((Scan.begin doc).cursor.prev.isDigit && (Scan.begin doc).inNumber)
      || isSeparator (Scan.begin doc).cursor.prev) = false := by
    rw [hprev]
    rfl
  unfold Scan.seesNumber
  dsimp only
  rw [hlead, Bool.and_false, Bool.false_and]

theorem seesNumber_behindBreak_begin : (Scan.begin doc).behindBreak.seesNumber = startsWithNumber doc := by
  have hpen : (Scan.begin doc).cursor.pen.Begun doc := begun_start h.wellFormed h.pos
  have hsettled : (Scan.begin doc).cursor.Settled := settled_begin h.wellFormed h.pos hpen
  have hpos := pos_scanBegin h.wellFormed h.pos
  have hdecode (i : Nat) : (Scan.begin doc).cursor.doc.decodeAt i = doc.decodeAt i := by
    have hsame : doc.SameSource (Scan.begin doc).cursor.doc := hpen.sameSource
    rw [Document.decodeAt, Document.decodeAt, hsame.text, hsame.encoding]
  have hcur : (Scan.begin doc).cursor.cur = (doc.decodeAt 0).1 := by rw [hsettled.cur_eq, hpos, hdecode]
  have hwidth : (Scan.begin doc).cursor.width = (doc.decodeAt 0).2 := by rw [hsettled.width_eq, hpos, hdecode]
  have hnext : (Scan.begin doc).cursor.next = (doc.decodeAt (doc.decodeAt 0).2).1 := by
    rw [hsettled.next_eq, hpos, hwidth, hdecode, Nat.zero_add]
  rw [Scan.seesNumber_behindBreak, Cursor.sees, hcur, hnext]
  rfl

theorem step_lineFeed_begin (keywords : Keywords) : (Scan.begin doc').step keywords = (Scan.begin doc').onward :=
  Scan.step_lineFeed (state_begin h.wellFormed' h.pos') (h.cur_begin (begun_start h.wellFormed' h.pos'))
    (pos_begin h.wellFormed' h.pos') rfl

theorem begun_begin' : (Scan.begin doc').cursor.pen.Begun doc' :=
  begun_start h.wellFormed' h.pos'

theorem pen_onward_begin : (Scan.begin doc').onward.cursor.pen = (Scan.begin doc').cursor.pen := by
  rw [Scan.cursor_onward]
  exact pen_forward (more_begin h.wellFormed' h.pos')

theorem pos_onward_begin : (Scan.begin doc').onward.cursor.pos = 1 := by
  rw [Scan.cursor_onward]
  exact h.pos_forward_begin (begun_begin' h)

theorem state_onward_begin : (Scan.begin doc').onward.cursor.state = Style.default := by
  rw [Scan.cursor_onward]
  exact h.state_forward_begin

theorem prev_onward_begin : (Scan.begin doc').onward.cursor.prev = Code.lineFeed := by
  rw [Scan.cursor_onward]
  exact h.prev_forward_begin (begun_begin' h)

theorem pos_onward_begin_lt : (Scan.begin doc').onward.cursor.pos < (Scan.begin doc').onward.cursor.doc.size := by
  rw [pos_onward_begin h, Cursor.doc, pen_onward_begin h, (begun_begin' h).sameSource.size, h.size]
  exact Nat.succ_lt_succ h.pos

/--
The line feed ends all that is open in front of the text.
-/
theorem ended_onward_begin : Ended (Scan.begin doc').onward.cursor := by
  intro _
  refine ⟨0x0A, ?_, rfl⟩
  rw [Cursor.doc, pen_onward_begin h, (begun_begin' h).segment, Document.byteAt?, (begun_begin' h).sameSource.text]
  exact h.lineFeed

/--
Only the line feed has been painted.
-/
theorem alike_begin : Cursor.Alike (.lowered doc) (Pen.ShiftedLate (.lowered doc) (fun _ => false) Style.default)
    (Scan.begin doc).cursor (Scan.begin doc').onward.endWord.cursor := by
  have hpen : (Scan.begin doc).cursor.pen.Begun doc := begun_start h.wellFormed h.pos
  have halike : Cursor.Alike (.lowered doc) (fun _ _ _ => True) (Scan.begin doc).cursor (Scan.begin doc').onward.cursor := by
    rw [Scan.cursor_onward]
    exact h.alike hpen (begun_begin' h) trivial
  have hpens : Pen.Shifted 1 (Scan.begin doc).cursor.state (Scan.begin doc).cursor.pen
      ((Scan.begin doc').onward.cursor.pen.colourTo (Scan.begin doc').onward.cursor.pos (Scan.begin doc').onward.cursor.state) := by
    rw [pos_onward_begin h, state_onward_begin h, pen_onward_begin h]
    exact h.shifted hpen (begun_begin' h) Style.default _
  have hstate : Style.default = (Scan.begin doc).cursor.state := (state_begin h.wellFormed h.pos).symm
  generalize (Scan.begin doc').onward = s' at *
  generalize (Scan.begin doc).cursor = c at *
  have hpainted : Cursor.Alike (.lowered doc) (fun _ _ _ => True) c s'.endWord.cursor :=
    halike.of_pen hstate (.refl _) (sameSource_colourTo _ _ _) halike.settled.segment_le halike.settled'.segment_colourTo_le trivial
  exact hpainted.of_rel ⟨_, .inl rfl, hpens⟩

/--
Behind the empty line, the passes go on alike, once they take what is in front of the text for a line end.
-/
theorem twin_lowered : Scan.Twin (.lowered doc) (Pen.ShiftedLate (.lowered doc) (fun _ => false) Style.default)
    (Scan.begin doc).behindBreak (Scan.begin doc').onward.endWord := by
  have halike := alike_begin h
  have hpos' : (Scan.begin doc').onward.endWord.cursor.pos = 1 := (Scan.pos_endWord _).trans (pos_onward_begin h)
  have hprev' : (Scan.begin doc').onward.endWord.cursor.prev = Code.lineFeed := (Scan.prev_endWord _).trans (prev_onward_begin h)
  have hfirst' : (Scan.begin doc').onward.endWord.first = 0 := pos_scanBegin h.wellFormed' h.pos'
  have hnumber' : (Scan.begin doc').onward.endWord.inNumber = false := rfl
  generalize (Scan.begin doc').onward.endWord = s' at *
  exact
    { cursor := halike.behindLineEnd
      prev := hprev'
      behindLineEnd := by
        rw [Scan.behindLineEnd, hprev']
        rfl
      inNumber := hnumber'
      first_le := Nat.le_refl _
      first_le' := by
        rw [hfirst', hpos']
        exact Nat.zero_le 1 }

/--
Both passes, one step into the text.
-/
theorem iterates_begin (keywords : Keywords) :
    Iterates (pass keywords).more (pass keywords).step (Scan.begin doc) ((Scan.begin doc).step keywords) :=
  .head (more_begin h.wellFormed h.pos) (.refl _)

theorem iterates_begin' (keywords : Keywords) :
    Iterates (pass keywords).more (pass keywords).step (Scan.begin doc') ((Scan.begin doc').onward.step keywords) := by
  have hmore := (twin_lowered h).cursor.more' (pos_lt_reach_scanBegin h)
  rw [Scan.more_endWord] at hmore
  have hrest : Iterates (pass keywords).more (pass keywords).step (Scan.begin doc').onward ((Scan.begin doc').onward.step keywords) :=
    .head hmore (.refl _)
  rw [← step_lineFeed_begin h keywords] at hrest ⊢
  exact .head (more_begin h.wellFormed' h.pos') hrest

theorem good_begin (keywords : Keywords) : (pass keywords).Good (Scan.begin doc) :=
  good_pass keywords h.wellFormed startsLine_zero h.pos (.inr rfl)

theorem good_begin' (keywords : Keywords) : (pass keywords).Good (Scan.begin doc') :=
  good_pass keywords h.wellFormed' startsLine_zero h.pos' (.inr rfl)

theorem styles_lowered (hnumber : startsWithNumber doc = false) (keywords : Keywords) (i : Nat) :
    ((pass keywords).colour doc' 0 doc'.size).styles[i + 1]? = ((pass keywords).colour doc 0 doc.size).styles[i]? := by
  have hnext := ((twin_lowered h).step (View.closed_shiftedLate Style.default) (pos_lt_reach_scanBegin h) keywords).1
  have hstep : (Scan.begin doc).behindBreak.step keywords = (Scan.begin doc).step keywords :=
    Scan.step_behindBreak (state_begin h.wellFormed h.pos) (pos_scanBegin h.wellFormed h.pos) (pos_scanBegin h.wellFormed h.pos)
      (seesNumber_begin h) ((seesNumber_behindBreak_begin h).trans hnumber)
  have hstep' : (Scan.begin doc').onward.endWord.step keywords = (Scan.begin doc').onward.step keywords :=
    Scan.step_endWord (state_onward_begin h) (ended_onward_begin h) (Nat.le_of_lt (pos_onward_begin_lt h))
  rw [hstep, hstep'] at hnext
  exact (lawfulPass keywords).styles_lowered h (good_begin h keywords) (good_begin' h keywords) (iterates_begin h keywords)
    (iterates_begin' h keywords) hnext i

/--
Alone, the text does not start with a number.
-/
theorem ne_number_colour (keywords : Keywords) : ((pass keywords).colour doc 0 doc.size).styles[0]? ≠ some Style.number := by
  have hpen : (Scan.begin doc).cursor.pen.Begun doc := begun_start h.wellFormed h.pos
  have hpos := pos_scanBegin h.wellFormed h.pos
  have hstate : (Scan.begin doc).cursor.state = Style.default := state_begin h.wellFormed h.pos
  have hended : Ended (Scan.begin doc).cursor := fun hlt => absurd (Nat.lt_of_lt_of_eq hlt hpos) (Nat.not_lt_zero _)
  have hfirst : Decided 0 Style.number ((Scan.begin doc).seesNumber = true) ((Scan.begin doc).step keywords).cursor := by
    rw [Scan.step_of_ended hstate hended, Scan.endWord_of_zero hstate hpos, ← hpos]
    apply decided_onward_enter (settled_begin h.wellFormed h.pos hpen) (more_begin h.wellFormed h.pos) hstate
    rw [hpos, Cursor.doc, hpen.sameSource.size]
    exact h.pos
  rw [Ne, number_iff_of_decided h.wellFormed h.pos (iterates_begin h keywords) hfirst, seesNumber_begin h]
  exact Bool.false_ne_true

/--
Behind the empty line, it can.
-/
theorem number_colour_iff (keywords : Keywords) :
    ((pass keywords).colour doc' 0 doc'.size).styles[1]? = some Style.number ↔ startsWithNumber doc = true := by
  have htwin := twin_lowered h
  have hin := pos_lt_reach_scanBegin h
  have hpos : (Scan.begin doc').onward.endWord.cursor.pos = 1 := (Scan.pos_endWord _).trans (pos_onward_begin h)
  have hsize := pos_onward_begin_lt h
  rw [← Scan.pos_endWord, ← Scan.size_endWord] at hsize
  have hnumber : (Scan.begin doc').onward.endWord.seesNumber = startsWithNumber doc :=
    (htwin.seesNumber_eq hin).trans (seesNumber_behindBreak_begin h)
  have hfirst : Decided 1 Style.number ((Scan.begin doc').onward.endWord.seesNumber = true)
      ((Scan.begin doc').onward.step keywords).cursor := by
    rw [Scan.step_of_ended (state_onward_begin h) (ended_onward_begin h), ← hpos]
    exact decided_onward_enter htwin.cursor.settled' (htwin.cursor.more' hin) rfl hsize ""
  rw [number_iff_of_decided h.wellFormed' h.pos' (iterates_begin' h keywords) hfirst, hnumber]

theorem styles_lowered_iff (keywords : Keywords) :
    (∀ i : Nat, ((pass keywords).colour doc' 0 doc'.size).styles[i + 1]? = ((pass keywords).colour doc 0 doc.size).styles[i]?)
      ↔ startsWithNumber doc = false := by
  constructor
  . intro hsame
    have hfirst := hsame 0
    rw [Bool.eq_false_iff]
    intro hnumber
    rw [(number_colour_iff h keywords).mpr hnumber] at hfirst
    exact ne_number_colour h keywords hfirst.symm
  . exact fun hnumber i => styles_lowered h hnumber keywords i

end Begin

end Gibiane

end Highlight
