import Highlight.Proofs.Cursor.Sight
import Highlight.Rust.Colour

/-!
The steps of Rust depend on nothing but what a cursor sees, the character in front of it, the depth of
nested comments and what is known of the open token. At the end of a line, only comments and strings are
open, and its state is the depth.
-/

namespace Highlight.Rust

open Cursor

variable {strict : Prop} {v : View} {rel : Style → Pen → Pen → Prop} {c c' : Cursor} {s s' : Scan}

/--
The tokens that can be open at a line start.
-/
def loose (style : Style) : Bool :=
  style == Style.default || style == Style.comment || style == Style.commentLine || style == Style.commentDoc
    || style == Style.commentNested || style == Style.string || style == Style.characterUnclosed
    || style == Style.commentLineDoc || style == Style.backtickString || style == Style.rawString

/--
The tokens of which nothing is known but their style.
-/
def isPlain (style : Style) : Bool :=
  loose style || style == Style.identifier || style == Style.character || style == Style.operator

/--
The tokens that can be open between two steps.
-/
def isToken (style : Style) : Bool :=
  isPlain style || style == Style.number || style == Style.docKeyword

theorem isPlain_of_loose {style : Style} (h : loose style = true) : isPlain style = true := by
  rw [isPlain, h]
  rfl

theorem isToken_of_isPlain {style : Style} (h : isPlain style = true) : isToken style = true := by
  rw [isToken, h]
  rfl

theorem isInner_of_isDocWord {x : Code} (h : isDocWord x = true) : x.isInner = true := by
  rw [isDocWord, Bool.or_eq_true] at h
  exact h.elim Code.isInner_of_isLower (Code.isInner_of_isOneOf (by decide))

theorem isInner_of_isStringSuffix {x : Code} (h : isStringSuffix x = true) : x.isInner = true :=
  Code.isInner_of_isOneOf (by decide) h

namespace Scan

/--
The state of the current line is the depth of nested comments.
-/
def Holds (s : Scan) : Prop :=
  s.cursor.doc.lineState s.cursor.line = Nesting.pack s.nesting

/--
Two scans inside of a step, at the same character of the part that a view shows. The lines above have the
same states from the first one of the part on. If `strict`, it is a step of a pass that can be interrupted, which comes by
some tokens and reads some encodings only.
-/
structure Near (strict : Prop) (v : View) (rel : Style → Pen → Pen → Prop) (s s' : Scan) : Prop where
  cursor : s.cursor.Alike v rel s'.cursor
  lt_reach : s.cursor.pos < v.reach
  nesting : s'.nesting = s.nesting
  prev : s'.cursor.prev = s.cursor.prev
  single : strict → ∀ page, v.encoding ≠ .doubleByte page
  lineStates : ∀ l : Nat, v.first ≤ l → l < s.cursor.line →
    s'.cursor.doc.lineStates[l + v.shift]? = s.cursor.doc.lineStates[l]?

/--
Two scans inside of a step that have stored the depth.
-/
structure Inside (strict : Prop) (v : View) (rel : Style → Pen → Pen → Prop) (s s' : Scan) : Prop extends Near strict v rel s s' where
  holds : s.Holds
  holds' : s'.Holds

/--
The same is known of the open token.
-/
structure Known (strict : Prop) (s s' : Scan) : Prop where
  token : strict → isToken s.cursor.state = true
  docComment : s.cursor.state = Style.docKeyword → s'.docComment = s.docComment ∧ loose s.docComment = true
  number : s.cursor.state = Style.number → s'.seenPoint = s.seenPoint ∧ s'.hexadecimal = s.hexadecimal

/--
Two scans in front of the end of a step. At the end of a line the open token goes over it.
-/
structure Ready (strict : Prop) (v : View) (rel : Style → Pen → Pen → Prop) (s s' : Scan) : Prop where
  inside : Inside strict v rel s s'
  known : Known strict s s'
  goesOver : strict → s.cursor.atLineEnd = true → loose s.cursor.state = true

theorem Known.of_isPlain (h : isPlain s.cursor.state = true) : Known strict s s' where
  token := fun _ => isToken_of_isPlain h
  docComment := by
    intro hstate
    rw [hstate] at h
    cases h
  number := by
    intro hstate
    rw [hstate] at h
    cases h

theorem Ready.ite {p : Prop} [Decidable p] {t t' : Scan} (hs : p → Ready strict v rel s s') (ht : ¬ p → Ready strict v rel t t') :
    Ready strict v rel (if p then s else t) (if p then s' else t') := by
  split
  . next hp => exact hs hp
  . next hp => exact ht hp

/--
Storing the depth.
-/
theorem Near.storeNesting (hrel : v.Closed loose rel) (h : Near strict v rel s s') :
    Inside strict v rel s.storeNesting s'.storeNesting := by
  have hfirst := h.cursor.first_le
  have hlast := h.cursor.line_lt_last h.lt_reach
  have hline := h.cursor.line
  have hmore := h.cursor.more h.lt_reach
  have hmore' := h.cursor.more' h.lt_reach
  have hcount : ∀ {c : Cursor}, c.Settled → c.more = true → c.line < c.doc.lineCount := by
    intro c hsettled hmore
    have := hsettled.pos_le hmore
    rw [hsettled.line, if_neg (by omega)]
    exact hsettled.wellFormed.lineOf_lt _
  have hset := h.cursor.setLineState hrel hfirst hlast (Nesting.pack s.nesting)
  rw [← hline, ← h.nesting] at hset
  refine
    { cursor := ?_
      lt_reach := h.lt_reach
      nesting := h.nesting
      prev := h.prev
      single := h.single
      lineStates := ?_
      holds := Document.lineState_setLineState h.cursor.settled.wellFormed (hcount h.cursor.settled hmore) _
      holds' := Document.lineState_setLineState h.cursor.settled'.wellFormed (hcount h.cursor.settled' hmore') _ }
  . unfold Scan.storeNesting
    rw [h.nesting] at hset ⊢
    exact hset
  . intro l hl hlt
    have hlt : l < s.cursor.line := hlt
    show (s'.cursor.doc.setLineState s'.cursor.line _).lineStates[l + v.shift]?
      = (s.cursor.doc.setLineState s.cursor.line _).lineStates[l]?
    rw [Document.getElem?_setLineState, Document.getElem?_setLineState, if_neg (by omega), if_neg (by omega)]
    exact h.lineStates l hl hlt

namespace Inside

theorem withNesting (h : Inside strict v rel s s') (nesting : Nat) :
    Near strict v rel { s with nesting } { s' with nesting } where
  cursor := h.cursor
  lt_reach := h.lt_reach
  nesting := rfl
  prev := h.prev
  single := h.single
  lineStates := h.lineStates

/--
Going on with cursors on the same line.
-/
theorem move (h : Inside strict v rel s s') (hc : c.Alike v rel c') (hlt : c.pos < v.reach) (hprev : c'.prev = c.prev)
    (hline : c.line = s.cursor.line) (hstates : c.doc.lineStates = s.cursor.doc.lineStates)
    (hstates' : c'.doc.lineStates = s'.cursor.doc.lineStates) : Inside strict v rel (s.withCursor c) (s'.withCursor c') where
  cursor := hc
  lt_reach := hlt
  nesting := h.nesting
  prev := hprev
  single := h.single
  lineStates := by
    intro l hl hlt
    have hlt : l < c.line := hlt
    show c'.doc.lineStates[l + v.shift]? = c.doc.lineStates[l]?
    rw [hstates, hstates']
    exact h.lineStates l hl (by omega)
  holds := by
    show c.doc.lineState c.line = _
    rw [hline, Document.lineState, hstates]
    exact h.holds
  holds' := by
    have hline' : c'.line = s'.cursor.line := by rw [hc.line, h.cursor.line, hline]
    show c'.doc.lineState c'.line = _
    rw [hline', Document.lineState, hstates']
    exact h.holds'

theorem setState (hrel : v.Closed loose rel) (h : Inside strict v rel (s.withCursor c) (s'.withCursor c')) (style : Style) :
    Inside strict v rel (s.withCursor (c.setState style)) (s'.withCursor (c'.setState style)) :=
  h.move (h.cursor.setState hrel style) h.lt_reach h.prev rfl (Pen.lineStates_colourTo _ _ _) (Pen.lineStates_colourTo _ _ _)

theorem changeState (hrel : v.Closed loose rel) (h : Inside strict v rel (s.withCursor c) (s'.withCursor c'))
    (hloose : loose c.state = false) (style : Style) :
    Inside strict v rel (s.withCursor (c.changeState style)) (s'.withCursor (c'.changeState style)) :=
  h.move (h.cursor.changeState hrel hloose style) h.lt_reach h.prev rfl rfl rfl

theorem forward (h : Inside strict v rel (s.withCursor c) (s'.withCursor c')) (hcur : c.cur.isInner = true) :
    Inside strict v rel (s.withCursor c.forward) (s'.withCursor c'.forward) := by
  have hc : c.Alike v rel c' := h.cursor
  have hmore := hc.more h.lt_reach
  have hmore' := hc.more' h.lt_reach
  refine h.move (hc.forward h.lt_reach) (hc.forward_inner h.lt_reach hcur) (hc.prev_forward h.lt_reach) ?_ ?_ ?_
  . rw [line_forward hmore, hc.settled.atLineEnd_of_isInner hcur]
    rfl
  . rw [Cursor.doc, pen_forward hmore]
    rfl
  . rw [Cursor.doc, pen_forward hmore']
    rfl

/--
The same data on both sides.
-/
theorem withData (h : Inside strict v rel s s') (docComment docComment' : Style) (seenPoint seenPoint' hexadecimal hexadecimal' : Bool) :
    Inside strict v rel { s with docComment, seenPoint, hexadecimal }
      { s' with docComment := docComment', seenPoint := seenPoint', hexadecimal := hexadecimal' } where
  cursor := h.cursor
  lt_reach := h.lt_reach
  nesting := h.nesting
  prev := h.prev
  single := h.single
  lineStates := h.lineStates
  holds := h.holds
  holds' := h.holds'

theorem ready_of_loose (h : Inside strict v rel s s') (hloose : loose s.cursor.state = true) : Ready strict v rel s s' :=
  ⟨h, .of_isPlain (isPlain_of_loose hloose), fun _ _ => hloose⟩

theorem ready_of_inner (h : Inside strict v rel s s') (hknown : Known strict s s')
    (hend : strict → s.cursor.atLineEnd = false) : Ready strict v rel s s' := by
  refine ⟨h, hknown, fun hstrict => ?_⟩
  rw [hend hstrict]
  exact nofun

theorem atLineEnd_of_isInner (h : Inside strict v rel s s') (hcur : s.cursor.cur.isInner = true) :
    strict → s.cursor.atLineEnd = false :=
  fun _ => h.cursor.settled.atLineEnd_of_isInner hcur

/--
No word has a character that ends a line.
-/
theorem atLineEnd_of_isWord (h : Inside strict v rel s s') (hcur : isWord s.cursor.cur = true) :
    strict → s.cursor.atLineEnd = false := by
  intro hstrict
  rw [Bool.eq_false_iff]
  intro hend
  have hsingle : ∀ page, s.cursor.doc.encoding ≠ .doubleByte page := by
    rw [h.cursor.shows.encoding]
    exact h.single hstrict
  rcases h.cursor.settled.cur_cases_of_atLineEnd hsingle hend with heq | heq | heq
  all_goals
    rw [heq] at hcur
    exact absurd hcur (by decide)

theorem isWord_of_isWordStart {x : Code} (h : isWordStart x = true) : isWord x = true := by
  simp only [isWordStart, isWord, Code.isAlphanumeric, Bool.or_eq_true] at h ⊢
  rcases h with (h | h) | h
  . exact .inl (.inl h)
  . exact .inl (.inr (.inl h))
  . exact .inr h

theorem forwardSetState (hrel : v.Closed loose rel) (h : Inside strict v rel (s.withCursor c) (s'.withCursor c'))
    (hcur : c.cur.isInner = true) :
    Ready strict v rel (s.withCursor (c.forwardSetState Style.default)) (s'.withCursor (c'.forwardSetState Style.default)) := by
  have hclose := (h.forward hcur).setState hrel Style.default
  exact hclose.ready_of_loose rfl

theorem isInner_forward (h : Inside strict v rel (s.withCursor c) (s'.withCursor c')) (hnext : c.next.isInner = true) :
    c.forward.cur.isInner = true := by
  have hmore : c.more = true := h.cursor.more h.lt_reach
  rw [cur_forward hmore]
  exact hnext

theorem state_forward (h : Inside strict v rel (s.withCursor c) (s'.withCursor c')) : c.forward.state = c.state :=
  Cursor.state_forward (h.cursor.more h.lt_reach)

theorem seesPair (h : Inside strict v rel s s') {x : Char} (hx : Code.isInner x.toNat = true) (y : Char) :
    s'.cursor.seesPair x y = s.cursor.seesPair x y :=
  h.cursor.seesPair h.lt_reach hx y

/--
Behind the two characters that end it a comment is closed.
-/
theorem closeComment (hrel : v.Closed loose rel) (h : Inside strict v rel (s.withCursor c) (s'.withCursor c')) {x y : Char}
    (hx : Code.isInner x.toNat = true) (hy : Code.isInner y.toNat = true) (hpair : c.seesPair x y = true) :
    Ready strict v rel (s.withCursor (closeComment c)) (s'.withCursor (closeComment c')) := by
  have hforward := h.forward (isInner_of_seesPair hx hpair)
  exact hforward.forwardSetState hrel (h.isInner_forward (Code.isInner_of_is hy (next_of_seesPair hpair)))

theorem closeString (hrel : v.Closed loose rel) (h : Inside strict v rel (s.withCursor c) (s'.withCursor c'))
    (hcur : c.cur.isInner = true) :
    Ready strict v rel (s.withCursor (closeString c)) (s'.withCursor (closeString c')) := by
  have hc : c.Alike v rel c' := h.cursor
  unfold Scan.closeString
  rw [hc.next_of_isInner h.lt_reach hcur]
  split
  . next hsuffix =>
    have hforward := h.forward hcur
    exact hforward.forwardSetState hrel (h.isInner_forward (isInner_of_isStringSuffix hsuffix))
  . exact h.forwardSetState hrel hcur

theorem leaveNumber (hrel : v.Closed loose rel) (h : Inside strict v rel s s') (hknown : Known strict s s')
    (hstate : s.cursor.state = Style.number) : Ready strict v rel s.leaveNumber s'.leaveNumber := by
  obtain ⟨hseen, hhexadecimal⟩ := hknown.number hstate
  have hpoint : (s.cursor.sees '.' && !s'.cursor.next.is '.') = (s.cursor.sees '.' && !s.cursor.next.is '.') :=
    h.cursor.sees_and_next h.lt_reach (by decide) (fun x => !x.is '.')
  unfold Scan.leaveNumber
  simp only [h.cursor.cur h.lt_reach, h.cursor.sees h.lt_reach, hpoint, h.prev, hseen, hhexadecimal]
  split
  . next hword =>
    refine h.ready_of_inner hknown (h.atLineEnd_of_isInner ?_)
    rw [Bool.or_eq_true] at hword
    exact hword.elim Code.isInner_of_isAlphanumeric (isInner_of_sees (by decide))
  . split
    . next hsees =>
      simp only [Bool.and_eq_true] at hsees
      refine (h.withData _ _ _ _ _ _).ready_of_inner ⟨hknown.token, hknown.docComment, fun _ => ⟨rfl, rfl⟩⟩ ?_
      exact h.atLineEnd_of_isInner (isInner_of_sees (by decide) hsees.1.1)
    . split
      . next hsign =>
        rw [Bool.and_eq_true, Bool.or_eq_true] at hsign
        refine h.ready_of_inner hknown (h.atLineEnd_of_isInner ?_)
        exact hsign.1.elim (isInner_of_sees (by decide)) (isInner_of_sees (by decide))
      . exact (h.setState hrel Style.default).ready_of_loose rfl

theorem leaveIdentifier (hrel : v.Closed loose rel) (h : Inside strict v rel s s') (hknown : Known strict s s')
    (hstate : s.cursor.state = Style.identifier) (keywords : Keywords) :
    Ready strict v rel (s.withCursor (leaveIdentifier keywords s.cursor)) (s'.withCursor (leaveIdentifier keywords s'.cursor)) := by
  have hloose : loose s.cursor.state = false := by rw [hstate]; rfl
  unfold Scan.leaveIdentifier
  rw [h.cursor.cur h.lt_reach, h.cursor.token hrel hloose]
  split
  . next hword => exact h.ready_of_inner hknown (h.atLineEnd_of_isWord hword)
  . exact ((h.changeState hrel hloose _).setState hrel Style.default).ready_of_loose rfl

theorem startsDocKeyword_eq (h : Inside strict v rel s s') (openers : String) :
    startsDocKeyword openers s'.cursor = startsDocKeyword openers s.cursor := by
  have hopens : ∀ x : Code, (x.is '@' || x == Code.backslash) = true → x.isInner = true := by
    intro x hx
    rw [Bool.or_eq_true] at hx
    exact hx.elim (Code.isInner_of_is (by decide)) (Code.isInner_of_eq (by decide))
  have hnext := h.cursor.cur_and_next (p := fun x => x.is '@' || x == Code.backslash) (q := fun x => !x.isSpace) h.lt_reach hopens
  unfold startsDocKeyword
  rw [h.prev, Bool.and_right_comm, Bool.and_right_comm (s.cursor.sees '@' || _)]
  exact congrArg (· && _) hnext

theorem startDocKeyword (hrel : v.Closed loose rel) (h : Inside strict v rel s s') {openers : String}
    (hstarts : startsDocKeyword openers s.cursor = true) {docComment : Style} (hloose : loose docComment = true) :
    Ready strict v rel { s with docComment, cursor := s.cursor.setState Style.docKeyword }
      { s' with docComment, cursor := s'.cursor.setState Style.docKeyword } := by
  have hcur : s.cursor.cur.isInner = true := by
    rw [startsDocKeyword, Bool.and_eq_true, Bool.and_eq_true, Bool.or_eq_true] at hstarts
    exact hstarts.1.1.elim (isInner_of_sees (by decide)) (Code.isInner_of_eq (by decide))
  refine ((h.setState hrel Style.docKeyword).withData docComment docComment _ _ _ _).ready_of_inner ?_ (h.atLineEnd_of_isInner hcur)
  exact ⟨fun _ => rfl, fun _ => ⟨rfl, hloose⟩, fun hnumber => absurd hnumber (show Style.docKeyword ≠ Style.number by decide)⟩

theorem leaveDocKeyword (hrel : v.Closed loose rel) (h : Inside strict v rel s s') (hknown : Known strict s s')
    (hstate : s.cursor.state = Style.docKeyword) (keywords : Keywords) :
    Ready strict v rel (s.leaveDocKeyword keywords) (s'.leaveDocKeyword keywords) := by
  obtain ⟨hcomment, hgoes⟩ := hknown.docComment hstate
  have hloose : loose s.cursor.state = false := by rw [hstate]; rfl
  have hstar : Code.isInner '*'.toNat = true := by decide
  unfold Scan.leaveDocKeyword
  simp only [hcomment, h.seesPair hstar, h.cursor.cur h.lt_reach, h.cursor.token hrel hloose]
  split
  . next hclose =>
    rw [Bool.and_eq_true] at hclose
    have hchange := h.changeState hrel hloose Style.docKeywordError
    exact hchange.closeComment hrel (show Code.isInner '*'.toNat = true by decide) (show Code.isInner '/'.toNat = true by decide) hclose.2
  . split
    . next hword => exact h.ready_of_inner hknown (h.atLineEnd_of_isInner (isInner_of_isDocWord hword))
    . split
      . exact (h.setState hrel _).ready_of_loose hgoes
      . exact ((h.changeState hrel hloose _).setState hrel _).ready_of_loose hgoes

theorem leaveNested (hrel : v.Closed loose rel) (h : Inside strict v rel s s') (hstate : s.cursor.state = Style.commentNested) :
    Ready strict v rel s.leaveNested s'.leaveNested := by
  have hplus : Code.isInner '+'.toNat = true := by decide
  have hslash : Code.isInner '/'.toNat = true := by decide
  have hloose : loose s.cursor.state = true := by rw [hstate]; rfl
  unfold Scan.leaveNested
  rw [h.seesPair hplus, h.seesPair hslash, h.nesting]
  split
  . next hpair =>
    have hstore := (h.withNesting (s.nesting - 1)).storeNesting hrel
    have hcur : s.cursor.cur.isInner = true := isInner_of_seesPair hplus hpair
    have hforward := hstore.forward hcur
    have hnext := hstore.isInner_forward (Code.isInner_of_is hslash (next_of_seesPair hpair))
    show Ready strict v rel (Scan.withCursor _ (if (s.nesting - 1 == 0) = true then _ else _))
      (Scan.withCursor _ (if (s.nesting - 1 == 0) = true then _ else _))
    split
    . exact hforward.forwardSetState hrel hnext
    . refine hforward.ready_of_loose ?_
      exact (congrArg loose hstore.state_forward).trans hloose
  . split
    . next hpair =>
      have hstore := (h.withNesting (s.nesting + 1)).storeNesting hrel
      have hcur : s.cursor.cur.isInner = true := isInner_of_seesPair hslash hpair
      refine (hstore.forward hcur).ready_of_loose ?_
      exact (congrArg loose hstore.state_forward).trans hloose
    . exact h.ready_of_loose hloose

theorem leaveString (hrel : v.Closed loose rel) (h : Inside strict v rel s s') (hloose : loose s.cursor.state = true) :
    Ready strict v rel (s.withCursor (leaveString s.cursor)) (s'.withCursor (leaveString s'.cursor)) := by
  unfold Scan.leaveString
  rw [h.cursor.cur h.lt_reach]
  split
  . next hbackslash =>
    have hcur := Code.isInner_of_eq (by decide) hbackslash
    rw [h.cursor.next_of_isInner h.lt_reach hcur]
    split
    . exact (h.forward hcur).ready_of_loose ((congrArg loose h.state_forward).trans hloose)
    . exact h.ready_of_loose hloose
  . split
    . next hquote => exact h.closeString hrel (Code.isInner_of_eq (by decide) hquote)
    . exact h.ready_of_loose hloose

theorem leaveCharacter (hrel : v.Closed loose rel) (h : Inside strict v rel s s') (hstate : s.cursor.state = Style.character) :
    Ready strict v rel (s.withCursor (leaveCharacter s.cursor)) (s'.withCursor (leaveCharacter s'.cursor)) := by
  have hloose : loose s.cursor.state = false := by rw [hstate]; rfl
  have hplain : isPlain s.cursor.state = true := by rw [hstate]; rfl
  unfold Scan.leaveCharacter
  rw [h.cursor.atLineEnd h.lt_reach, h.cursor.cur h.lt_reach]
  split
  . exact (h.changeState hrel hloose Style.characterUnclosed).ready_of_loose rfl
  . next hend =>
    have hend := Bool.eq_false_iff.mpr hend
    split
    . next hbackslash =>
      have hcur := Code.isInner_of_eq (by decide) hbackslash
      rw [h.cursor.next_of_isInner h.lt_reach hcur]
      split
      . next hescaped =>
        have hnext : s.cursor.next.isInner = true := by
          rw [Bool.or_eq_true] at hescaped
          exact hescaped.elim (Code.isInner_of_eq (by decide)) (Code.isInner_of_eq (by decide))
        have hforward := h.forward hcur
        refine hforward.ready_of_inner (.of_isPlain ?_) (hforward.atLineEnd_of_isInner (h.isInner_forward hnext))
        exact (congrArg isPlain h.state_forward).trans hplain
      . exact h.ready_of_inner (.of_isPlain hplain) (fun _ => hend)
    . split
      . next hquote => exact h.forwardSetState hrel (Code.isInner_of_eq (by decide) hquote)
      . exact h.ready_of_inner (.of_isPlain hplain) (fun _ => hend)

theorem leaveLine (hrel : v.Closed loose rel) (h : Inside strict v rel s s') (hloose : loose s.cursor.state = true) :
    Ready strict v rel (s.withCursor (leaveLine s.cursor)) (s'.withCursor (leaveLine s'.cursor)) := by
  unfold Scan.leaveLine
  rw [h.cursor.atLineStart h.lt_reach]
  split
  . exact (h.setState hrel Style.default).ready_of_loose rfl
  . exact h.ready_of_loose hloose

/--
The open token ends, goes on, or changes its style, alike in both scans.
-/
theorem leave (hrel : v.Closed loose rel) (h : Inside strict v rel s s') (hknown : Known strict s s') (keywords : Keywords) :
    Ready strict v rel (s.leave keywords) (s'.leave keywords) := by
  have hstar : Code.isInner '*'.toNat = true := by decide
  have hslash : Code.isInner '/'.toNat = true := by decide
  unfold Scan.leave
  simp only [h.cursor.state]
  split
  . exact (h.setState hrel Style.default).ready_of_loose rfl
  . next hstate => exact h.leaveNumber hrel hknown hstate
  . next hstate => exact h.leaveIdentifier hrel hknown hstate keywords
  . next hstate =>
    rw [h.seesPair hstar]
    split
    . next hpair => exact h.closeComment hrel hstar hslash hpair
    . exact h.ready_of_loose (by rw [hstate]; rfl)
  . next hstate =>
    rw [h.seesPair hstar, h.startsDocKeyword_eq]
    split
    . next hpair => exact h.closeComment hrel hstar hslash hpair
    . split
      . next hstarts => exact h.startDocKeyword hrel hstarts rfl
      . exact h.ready_of_loose (by rw [hstate]; rfl)
  . next hstate => exact h.leaveLine hrel (by rw [hstate]; rfl)
  . next hstate =>
    rw [h.cursor.atLineStart h.lt_reach, h.startsDocKeyword_eq]
    split
    . exact (h.setState hrel Style.default).ready_of_loose rfl
    . split
      . next hstarts => exact h.startDocKeyword hrel hstarts rfl
      . exact h.ready_of_loose (by rw [hstate]; rfl)
  . next hstate => exact h.leaveDocKeyword hrel hknown hstate keywords
  . next hstate => exact h.leaveNested hrel hstate
  . next hstate => exact h.leaveString hrel (by rw [hstate]; rfl)
  . next hstate => exact h.leaveCharacter hrel hstate
  . next hstate => exact h.leaveLine hrel (by rw [hstate]; rfl)
  . next hstate =>
    rw [h.cursor.cur h.lt_reach]
    split
    . next hquote => exact h.closeString hrel (Code.isInner_of_eq (by decide) hquote)
    . exact h.ready_of_loose (by rw [hstate]; rfl)
  . next hstate =>
    rw [h.cursor.cur h.lt_reach]
    split
    . next hquote => exact h.closeString hrel (Code.isInner_of_eq (by decide) hquote)
    . exact h.ready_of_loose (by rw [hstate]; rfl)
  . next hoperator hnumber hidentifier _ _ _ _ hdocKeyword _ _ hcharacter _ _ _ =>
    refine ⟨h, hknown, fun hstrict _ => ?_⟩
    have htoken := hknown.token hstrict
    simp only [isToken, isPlain, Bool.or_eq_true, beq_iff_eq] at htoken
    rcases htoken with ((((hloose | hstate) | hstate) | hstate) | hstate) | hstate
    . exact hloose
    . exact absurd hstate hidentifier
    . exact absurd hstate hcharacter
    . exact absurd hstate hoperator
    . exact absurd hstate hnumber
    . exact absurd hstate hdocKeyword

/--
A token starts with a character inside of a line, or one that can go over its end.
-/
theorem start (hrel : v.Closed loose rel) (h : Inside strict v rel s s') (hstate : s.cursor.state = Style.default) :
    Ready strict v rel s.start s'.start := by
  have hslash : Code.isInner '/'.toNat = true := by decide
  have hdot : Code.isInner '.'.toNat = true := by decide
  have hc := h.cursor
  have hin := h.lt_reach
  have hpoint : (s.cursor.sees '.' && s'.cursor.next.isDigit) = (s.cursor.sees '.' && s.cursor.next.isDigit) :=
    hc.sees_and_next hin hdot Code.isDigit
  have hzero : (s.cursor.sees '0' && s'.cursor.next.isOneOf "xX") = (s.cursor.sees '0' && s.cursor.next.isOneOf "xX") :=
    hc.sees_and_next hin (by decide) (Code.isOneOf · "xX")
  have hraw : (s.cursor.cur.isOneOf "rxq" && s'.cursor.next == Code.quote)
      = (s.cursor.cur.isOneOf "rxq" && s.cursor.next == Code.quote) :=
    hc.and_next (p := (Code.isOneOf · "rxq")) (q := (· == Code.quote)) hin (fun _ => Code.isInner_of_isOneOf (by decide))
  have hstarComment : s'.cursor.seesText "/**" = s.cursor.seesText "/**" := hc.seesText hin (by decide)
  have hbangComment : s'.cursor.seesText "/*!" = s.cursor.seesText "/*!" := hc.seesText hin (by decide)
  have hslashLine : s'.cursor.seesText "///" = s.cursor.seesText "///" := hc.seesText hin (by decide)
  have hslashesLine : s'.cursor.seesText "////" = s.cursor.seesText "////" := hc.seesText hin (by decide)
  have hbangLine : s'.cursor.seesText "//!" = s.cursor.seesText "//!" := hc.seesText hin (by decide)
  unfold Scan.start
  dsimp only
  rw [hc.cur hin, hc.sees hin, hc.sees hin, hc.sees hin, hpoint, hzero, hraw, h.seesPair hslash, h.seesPair hslash,
    h.seesPair hslash, h.seesPair hdot, hstarComment, hbangComment, hslashLine, hslashesLine, hbangLine]
  refine .ite (fun hnumber => ?_) fun _ => .ite (fun hquote => ?_) fun _ => .ite (fun hword => ?_) fun _ =>
    .ite (fun hpair => ?_) fun _ => .ite (fun hpair => ?_) fun _ => .ite (fun _ => ?_) fun _ => .ite (fun _ => ?_) fun _ =>
    .ite (fun hquote => ?_) fun _ => .ite (fun _ => ?_) fun _ => .ite (fun hoperator => ?_) fun _ => ?_
  . have hcur : s.cursor.cur.isInner = true := by
      rw [Bool.or_eq_true, Bool.and_eq_true] at hnumber
      exact hnumber.elim Code.isInner_of_isDigit fun hnumber => isInner_of_sees hdot hnumber.1
    refine ((h.setState hrel Style.number).withData _ _ _ _ _ _).ready_of_inner ?_ (h.atLineEnd_of_isInner hcur)
    exact ⟨fun _ => rfl, fun hdoc => absurd hdoc (show Style.number ≠ Style.docKeyword by decide), fun _ => ⟨rfl, rfl⟩⟩
  . have hcur : s.cursor.cur.isInner = true := by
      rw [Bool.and_eq_true] at hquote
      exact Code.isInner_of_isOneOf (by decide) hquote.1
    have hset := h.setState hrel Style.rawString
    exact (hset.forward hcur).ready_of_loose (congrArg loose hset.state_forward)
  . refine (h.setState hrel Style.identifier).ready_of_inner (.of_isPlain rfl) ?_
    rw [Bool.or_eq_true] at hword
    exact hword.elim (fun hword => h.atLineEnd_of_isWord (isWord_of_isWordStart hword))
      fun hdollar => h.atLineEnd_of_isInner (isInner_of_sees (by decide) hdollar)
  . rw [h.nesting]
    have hset := ((h.withNesting (s.nesting + 1)).storeNesting hrel).setState hrel Style.commentNested
    exact (hset.forward (isInner_of_seesPair hslash hpair)).ready_of_loose (congrArg loose hset.state_forward)
  . generalize hstyle : (if s.cursor.seesText "/**" || s.cursor.seesText "/*!" then Style.commentDoc else Style.comment) = style
    have hloose : loose style = true := by
      rw [← hstyle]
      split <;> rfl
    have hset := h.setState hrel style
    exact (hset.forward (isInner_of_seesPair hslash hpair)).ready_of_loose ((congrArg loose hset.state_forward).trans hloose)
  . generalize hstyle : (if s.cursor.seesText "///" && !s.cursor.seesText "////" || s.cursor.seesText "//!" then
      Style.commentLineDoc else Style.commentLine) = style
    have hloose : loose style = true := by
      rw [← hstyle]
      split <;> rfl
    exact (h.setState hrel style).ready_of_loose hloose
  . exact (h.setState hrel Style.string).ready_of_loose rfl
  . have hcur := Code.isInner_of_eq (show Code.isInner Code.apostrophe = true by decide) hquote
    exact (h.setState hrel Style.character).ready_of_inner (.of_isPlain rfl) (h.atLineEnd_of_isInner hcur)
  . exact (h.setState hrel Style.backtickString).ready_of_loose rfl
  . have hcur : s.cursor.cur.isInner = true := Code.isInner_of_isOneOf (by decide) hoperator
    have hset := h.setState hrel Style.operator
    split
    . next hpair =>
      have hforward := hset.forward hcur
      have hnext := hset.isInner_forward (Code.isInner_of_is hdot (next_of_seesPair hpair))
      refine hforward.ready_of_inner (.of_isPlain ?_) (hforward.atLineEnd_of_isInner hnext)
      exact congrArg isPlain hset.state_forward
    . exact hset.ready_of_inner (.of_isPlain rfl) (h.atLineEnd_of_isInner hcur)
  . exact h.ready_of_loose (by rw [hstate]; rfl)

end Inside

theorem Ready.enter (hrel : v.Closed loose rel) (h : Ready strict v rel s s') : Ready strict v rel s.enter s'.enter := by
  unfold Scan.enter
  rw [h.inside.cursor.state]
  split
  . next hstate => exact h.inside.start hrel (beq_iff_eq.mp hstate)
  . exact h

end Scan

end Highlight.Rust
