import Highlight.Gibiane
import Highlight.Proofs.Fold.Folding

/-!
The steps of folding Gibiane: a byte can start a word or a comment, end a word, and end its line.
-/

namespace Highlight

open LineIndex

namespace Sweep

variable {sweep sweep' : Sweep}

theorem plainLevel_congr (hown : sweep'.own = sweep.own) (hnext : sweep'.next = sweep.next) (hvisible : sweep'.visible = sweep.visible)
    (compact : Bool) : sweep'.plainLevel compact = sweep.plainLevel compact := by
  unfold plainLevel
  rw [hown, hnext, hvisible]

end Sweep

namespace Gibiane

namespace FoldScan

variable {s : FoldScan} {compact : Bool} {span : Span} {pos stop : Nat}

/--
The scan with the start of a word or of a comment noted, if there is one at `pos`.
-/
def place (span : Span) (s : FoldScan) (pos : Nat) : FoldScan :=
  let c : Code := (s.sweep.doc.byteAt pos 0x20).toNat
  (s.placeWord (span.styleBefore s.sweep.doc pos) c pos).placeComment c pos

/--
Whether a word ends with the byte at `pos`.
-/
def endsWord (s : FoldScan) (pos : Nat) : Bool :=
  let next : Code := (s.sweep.doc.byteAt (pos + 1) 0x20).toNat
  (isSeparator next || isQuote next) && !s.inComment && s.sweep.doc.styleAt pos != Style.string

/--
What a word does to the depth behind it and to that of its line, where `pos` is the position behind the word.
-/
def turn (doc : Document) (pos stop : Nat) (word : List UInt8) : Int × Int :=
  if word == Utf8.encode "si" || openers.any (abbreviates word) then
    (1, 0)
  else if word == Utf8.encode "fin" then
    if nameFollows doc pos stop then (-1, 0) else (0, 0)
  else if closers.any (abbreviates word) then
    (-1, 0)
  else if abbreviates word (Utf8.encode "sinon") then
    (0, -1)
  else
    (0, 0)

/--
What the byte at `pos` does to the depths, by the word that it ends.
-/
def turnAt (s : FoldScan) (stop pos : Nat) : Int × Int :=
  if s.endsWord pos then
    turn s.sweep.doc (s.wordStart + (s.word pos).length) stop (s.word pos)
  else
    (0, 0)

/--
The scan with the depths changed. On the line above the span, the depth of the line stays as it is stored.
-/
def turnBy (s : FoldScan) (turn : Int × Int) : FoldScan :=
  { s with
    sweep :=
      { s.sweep with
        own := if s.onLineAbove then s.sweep.own else s.sweep.own + turn.2
        next := s.sweep.next + if s.onLineAbove then turn.1 - turn.2 else turn.1 } }

theorem turnBy_zero (s : FoldScan) : s.turnBy (0, 0) = s := by
  simp [turnBy]

theorem countWord_eq (s : FoldScan) (word : List UInt8) (stop : Nat) :
    s.countWord word stop = s.turnBy (turn s.sweep.doc (s.wordStart + word.length) stop word) := by
  have hshift : ∀ change : Int, s.turnBy (change, 0) = { s with sweep := s.sweep.shift change } := by
    intro change
    simp [turnBy, Sweep.shift]
  have hnone : s.turnBy (0, 0) = s := s.turnBy_zero
  unfold countWord turn
  dsimp only
  split
  . exact (hshift 1).symm
  . split
    . split
      . exact (hshift (-1)).symm
      . exact hnone.symm
    . split
      . exact (hshift (-1)).symm
      . split
        . split
          . next habove => simp [turnBy, Sweep.shift, habove]
          . next habove =>
            simp only [turnBy, habove, Bool.false_eq_true, ↓reduceIte, Int.add_zero]
            rfl
        . exact hnone.symm

/--
A character in front of which no word can start.
-/
def isBetween (c : Code) : Bool :=
  isBlank c || c.isLineEnd || isQuote c

theorem placeWord_eq (s : FoldScan) (before : Style) (c : Code) (pos : Nat) :
    s.placeWord before c pos
      = { s with
          wordStart := if isBetween c then pos + 1 else if before == Style.default then pos else s.wordStart } := by
  unfold placeWord
  show (if isBetween c = true then _ else _) = _
  cases before == Style.default with
  | true =>
    split
    . rfl
    . rfl
  | false =>
    split
    . rfl
    . rfl

theorem placeComment_spec (s : FoldScan) (c : Code) (pos : Nat) :
    ∃ wordStart inComment visible,
      s.placeComment c pos = { s with sweep := { s.sweep with visible }, wordStart, inComment } := by
  unfold placeComment
  split
  . exact ⟨_, _, _, rfl⟩
  . exact ⟨_, _, _, rfl⟩

theorem place_spec (span : Span) (s : FoldScan) (pos : Nat) :
    ∃ wordStart inComment visible,
      s.place span pos = { s with sweep := { s.sweep with visible }, wordStart, inComment } := by
  unfold place
  dsimp only
  rw [placeWord_eq]
  exact placeComment_spec _ _ _

theorem step_eq (compact : Bool) (span : Span) (s : FoldScan) (pos : Nat) :
    s.step compact span pos
      = ((s.place span pos).turnBy ((s.place span pos).turnAt span.stop pos)).endByte compact (s.sweep.doc.byteAt pos 0x20) pos := by
  obtain ⟨wordStart, inComment, visible, hplace⟩ := place_spec span s pos
  have hdoc : (s.place span pos).sweep.doc = s.sweep.doc := by rw [hplace]
  have hcount : (if (s.place span pos).endsWord pos then (s.place span pos).countWord ((s.place span pos).word pos) span.stop
      else s.place span pos) = (s.place span pos).turnBy ((s.place span pos).turnAt span.stop pos) := by
    unfold turnAt
    split
    . exact countWord_eq _ _ _
    . exact (turnBy_zero _).symm
  rw [← hcount]
  unfold endsWord
  rw [hdoc]
  rfl

/--
No word starts in front of a blank, a line end or a quote, nor in a comment.
-/
theorem wordStart_place (hbetween : isBetween (s.sweep.doc.byteAt pos 0x20).toNat = true) :
    (s.place span pos).wordStart = pos + 1 := by
  unfold place
  dsimp only
  rw [placeWord_eq, if_pos hbetween]
  unfold placeComment
  split
  . rfl
  . rfl

theorem isBetween_of_endsLine {text : Array UInt8} (h : endsLine text pos = true) (fallback : UInt8) :
    isBetween (text[pos]?.getD fallback).toNat = true := by
  obtain ⟨b, hb, hbreak⟩ := ascii_of_endsLine h
  rw [hb, Option.getD_some, isBetween]
  rcases hbreak with hfeed | hreturn
  . rw [hfeed]
    rfl
  . rw [hreturn]
    rfl

theorem word_eq_nil (h : s.wordStart = pos + 1) : s.word pos = [] := by
  unfold word Document.bytes
  dsimp only
  rw [h, Nat.sub_self, Nat.zero_min, Nat.add_zero, Array.extract_eq_empty_of_le (Nat.min_le_left _ _)]
  rfl

theorem length_word_le (s : FoldScan) (pos : Nat) : (s.word pos).length ≤ pos + 1 - s.wordStart := by
  unfold word Document.bytes
  dsimp only
  rw [List.length_map, Array.length_toList, Array.size_extract]
  omega

theorem turn_nil (doc : Document) (pos stop : Nat) : turn doc pos stop [] = (0, 0) := by
  have hsi : ([] == Utf8.encode "si" || openers.any (abbreviates [])) = false := by decide
  have hfin : ([] == Utf8.encode "fin") = false := by decide
  have hcloser : closers.any (abbreviates []) = false := by decide
  have hsinon : abbreviates [] (Utf8.encode "sinon") = false := by decide
  unfold turn
  rw [hsi, hfin, hcloser, hsinon]
  rfl

/--
The end of a line ends no word.
-/
theorem turnAt_of_endsLine (h : endsLine s.sweep.doc.text pos = true) (stop : Nat) :
    (s.place span pos).turnAt stop pos = (0, 0) := by
  have hstart := @wordStart_place s span pos (isBetween_of_endsLine h _)
  unfold turnAt
  rw [word_eq_nil hstart, turn_nil, ite_self]

/--
At the end of a line its level is stored, and what is known about it is forgotten.
-/
theorem step_of_endsLine (h : endsLine s.sweep.doc.text pos = true) :
    s.step compact span pos =
      { sweep := (s.place span pos).sweep.storeLevel ((s.place span pos).sweep.plainLevel compact)
        wordStart := pos + 1
        behindLineEnd := true
        secondBehindLineEnd := s.behindLineEnd
        inComment := false
        onLineAbove := false } := by
  have hstart := @wordStart_place s span pos (isBetween_of_endsLine h _)
  have hspace := isSpace_of_endsLine h 0x20
  rw [step_eq, turnAt_of_endsLine h, turnBy_zero]
  obtain ⟨wordStart, inComment, visible, hplace⟩ := place_spec span s pos
  rw [hplace] at hstart ⊢
  obtain rfl : wordStart = pos + 1 := hstart
  unfold endByte
  dsimp only
  rw [h, if_pos rfl, Document.byteAt, Sweep.see_of_isSpace hspace]

/--
Within a line the byte is counted, and no more.
-/
theorem step_of_inner (h : endsLine s.sweep.doc.text pos = false) :
    s.step compact span pos =
      let counted := (s.place span pos).turnBy ((s.place span pos).turnAt span.stop pos)
      { counted with
        sweep := counted.sweep.see (s.sweep.doc.byteAt pos 0x20)
        behindLineEnd := false
        secondBehindLineEnd := s.behindLineEnd } := by
  obtain ⟨wordStart, inComment, visible, hplace⟩ := place_spec span s pos
  rw [step_eq, hplace]
  unfold endByte turnBy
  dsimp only
  rw [h, if_neg Bool.false_ne_true]

section Inner

variable (h : endsLine s.sweep.doc.text pos = false)
include h

theorem line_step_of_inner : (s.step compact span pos).sweep.line = s.sweep.line := by
  obtain ⟨wordStart, inComment, visible, hplace⟩ := place_spec span s pos
  rw [step_of_inner h, hplace]
  exact Sweep.line_see _

theorem doc_step_of_inner : (s.step compact span pos).sweep.doc = s.sweep.doc := by
  obtain ⟨wordStart, inComment, visible, hplace⟩ := place_spec span s pos
  rw [step_of_inner h, hplace]
  exact Sweep.doc_see _

theorem onLineAbove_step_of_inner : (s.step compact span pos).onLineAbove = s.onLineAbove := by
  obtain ⟨wordStart, inComment, visible, hplace⟩ := place_spec span s pos
  rw [step_of_inner h, hplace]
  rfl

theorem own_step_of_inner :
    (s.step compact span pos).sweep.own
      = if s.onLineAbove then s.sweep.own else s.sweep.own + ((s.place span pos).turnAt span.stop pos).2 := by
  obtain ⟨wordStart, inComment, visible, hplace⟩ := place_spec span s pos
  rw [step_of_inner h]
  generalize (s.place span pos).turnAt span.stop pos = turn
  rw [hplace]
  exact Sweep.own_see _

end Inner

/--
Two scans at the same place of the same text that have counted the same on their line, from depths that may differ.
Their documents have the same styles below `limit`.
-/
structure Near (limit : Nat) (s s' : FoldScan) : Prop where
  text : s'.sweep.doc.text = s.sweep.doc.text
  styles : ∀ i : Nat, i < limit → s'.sweep.doc.styleAt i = s.sweep.doc.styleAt i
  line : s'.sweep.line = s.sweep.line
  visible : s'.sweep.visible = s.sweep.visible
  depth : s'.sweep.next + s.sweep.own = s.sweep.next + s'.sweep.own
  wordStart : s'.wordStart = s.wordStart
  behindLineEnd : s'.behindLineEnd = s.behindLineEnd
  secondBehindLineEnd : s'.secondBehindLineEnd = s.secondBehindLineEnd ∨ s.behindLineEnd = true
  inComment : s'.inComment = s.inComment

/--
Two scans that have counted from the same depth and have stored the same levels.
-/
structure SameLevels (s s' : FoldScan) : Prop where
  own : s'.sweep.own = s.sweep.own
  onLineAbove : s'.onLineAbove = s.onLineAbove
  levels : s'.sweep.doc.levels = s.sweep.doc.levels

/--
A name is not looked for behind the end of a line.
-/
theorem nameFollows_upTo {doc : Document} {pos limit stop : Nat} (hlimit : startsLine doc.text limit = true) (hlt : pos < limit)
    (hstop : limit ≤ stop) : nameFollows doc pos stop = nameFollows doc pos limit := by
  have hends := endsLine_of_startsLine hlimit (by omega)
  have hsize := le_size_of_startsLine hlimit
  obtain ⟨b, hb, hbreak⟩ := ascii_of_endsLine hends
  have hstopper : (!isBlank b.toNat && !isQuote b.toNat) = true := by
    rcases hbreak with hfeed | hreturn
    . rw [hfeed]
      rfl
    . rw [hreturn]
      rfl
  have hmem : b.toNat ∈ (doc.bytes pos limit).toList.map UInt8.toNat := by
    refine List.mem_map_of_mem (List.mem_of_getElem? (i := limit - 1 - pos) ?_)
    rw [Array.getElem?_toList, Document.bytes, Array.getElem?_extract, if_pos (by omega),
      show pos + (limit - 1 - pos) = limit - 1 by omega, hb]
  have hsplit : doc.bytes pos stop = doc.bytes pos limit ++ doc.bytes limit stop := by
    unfold Document.bytes
    rw [Array.extract_append_extract]
    congr 1 <;> omega
  unfold nameFollows
  dsimp only
  rw [hsplit, Array.toList_append, List.map_append, List.find?_append]
  cases hfind : ((doc.bytes pos limit).toList.map UInt8.toNat).find? fun c => !isBlank c && !isQuote c with
  | some c => rfl
  | none => exact absurd hstopper (List.find?_eq_none.mp hfind b.toNat hmem)

namespace Near

variable {s' : FoldScan} {span' : Span} {limit stop' : Nat}

theorem place (h : Near limit s s')
    (hbefore : span'.styleBefore s'.sweep.doc pos = span.styleBefore s.sweep.doc pos ∨ s.wordStart = pos) :
    Near limit (s.place span pos) (s'.place span' pos) := by
  have hbyte : s'.sweep.doc.byteAt pos 0x20 = s.sweep.doc.byteAt pos 0x20 := by
    rw [Document.byteAt, Document.byteAt, h.text]
  have hstart : ∀ c, (if isBetween c then pos + 1 else if span'.styleBefore s'.sweep.doc pos == Style.default then pos else s'.wordStart)
      = if isBetween c then pos + 1 else if span.styleBefore s.sweep.doc pos == Style.default then pos else s.wordStart := by
    intro c
    rcases hbefore with heq | heq
    . rw [heq, h.wordStart]
    . rw [h.wordStart, heq, ite_self, ite_self]
  have hbehind : (s'.secondBehindLineEnd || s'.behindLineEnd) = (s.secondBehindLineEnd || s.behindLineEnd) := by
    rw [h.behindLineEnd]
    rcases h.secondBehindLineEnd with heq | htrue
    . rw [heq]
    . rw [htrue, Bool.or_true, Bool.or_true]
  unfold FoldScan.place
  dsimp only
  rw [placeWord_eq, placeWord_eq, hbyte, hstart]
  unfold placeComment
  dsimp only
  rw [hbehind, h.inComment]
  split
  . exact { h with visible := rfl, wordStart := rfl, inComment := rfl }
  . exact { h with wordStart := rfl, inComment := rfl }

theorem word (h : Near limit s s') (pos : Nat) : s'.word pos = s.word pos := by
  unfold FoldScan.word Document.bytes
  rw [h.text, h.wordStart]

theorem turnBy (h : Near limit s s') (turn : Int × Int) : Near limit (s.turnBy turn) (s'.turnBy turn) where
  text := h.text
  styles := h.styles
  line := h.line
  visible := h.visible
  depth := by
    have hdepth := h.depth
    unfold FoldScan.turnBy
    dsimp only
    split <;> split <;> omega
  wordStart := h.wordStart
  behindLineEnd := h.behindLineEnd
  secondBehindLineEnd := h.secondBehindLineEnd
  inComment := h.inComment

/--
Behind a byte that ends no line.
-/
theorem see (h : Near limit s s') (b : UInt8) (behind : Bool) :
    Near limit { s with sweep := s.sweep.see b, behindLineEnd := false, secondBehindLineEnd := behind }
      { s' with sweep := s'.sweep.see b, behindLineEnd := false, secondBehindLineEnd := behind } := by
  unfold Sweep.see
  split
  . exact { h with behindLineEnd := rfl, secondBehindLineEnd := .inl rfl }
  . exact
      { h with
        visible := congrArg (· + 1) h.visible
        behindLineEnd := rfl
        secondBehindLineEnd := .inl rfl }

/--
What a pass that ends at `stop` and one that ends at `stop'` have in common behind the line start `limit`.
-/
def StopsAlike (text : Array UInt8) (limit stop stop' : Nat) : Prop :=
  stop' = stop ∨ startsLine text limit = true ∧ limit ≤ stop ∧ limit ≤ stop'

theorem turnAt_eq (h : Near limit s s') (hpos : pos < limit) (hstop : StopsAlike s.sweep.doc.text limit stop stop')
    (hends : endsLine s.sweep.doc.text pos = true → s.wordStart = pos + 1) : s'.turnAt stop' pos = s.turnAt stop pos := by
  have hbyte : s'.sweep.doc.byteAt (pos + 1) 0x20 = s.sweep.doc.byteAt (pos + 1) 0x20 := by
    rw [Document.byteAt, Document.byteAt, h.text]
  have hname : s.word pos = Utf8.encode "fin" →
      nameFollows s'.sweep.doc (s.wordStart + (s.word pos).length) stop'
        = nameFollows s.sweep.doc (s.wordStart + (s.word pos).length) stop := by
    intro hfin
    have htext : ∀ q stop, nameFollows s'.sweep.doc q stop = nameFollows s.sweep.doc q stop := by
      intro q stop
      unfold nameFollows Document.bytes
      rw [h.text]
    rw [htext]
    rcases hstop with rfl | ⟨hlimit, hle, hle'⟩
    . rfl
    . have hlength := s.length_word_le pos
      have hthree : (s.word pos).length = 3 := by rw [hfin]; decide
      have hinner : pos + 1 ≠ limit := by
        rintro rfl
        have := hends (by rwa [startsLine_succ] at hlimit)
        omega
      rw [nameFollows_upTo hlimit (by omega) hle, nameFollows_upTo hlimit (by omega) hle']
  unfold turnAt endsWord
  dsimp only
  rw [hbyte, h.inComment, h.styles pos hpos, h.word, h.wordStart]
  split
  . unfold FoldScan.turn
    split
    . rfl
    . split
      . next hfin => rw [hname (beq_iff_eq.mp hfin)]
      . rfl
  . rfl

/--
A step keeps what two scans have in common.
-/
theorem step (h : Near limit s s') (hpos : pos < limit) (hstop : StopsAlike s.sweep.doc.text limit span.stop span'.stop)
    (hbefore : span'.styleBefore s'.sweep.doc pos = span.styleBefore s.sweep.doc pos ∨ s.wordStart = pos) :
    Near limit (s.step compact span pos) (s'.step compact span' pos) := by
  have hplace := h.place hbefore
  obtain ⟨wordStart, inComment, visible, heq⟩ := place_spec span s pos
  have hdoc : (s.place span pos).sweep.doc = s.sweep.doc := by rw [heq]
  cases hends : endsLine s.sweep.doc.text pos with
  | true =>
    have hends' : endsLine s'.sweep.doc.text pos = true := by rwa [h.text]
    rw [step_of_endsLine hends, step_of_endsLine hends']
    exact
      { text := hplace.text
        styles := hplace.styles
        line := congrArg (· + 1) hplace.line
        visible := rfl
        depth := Int.add_comm _ _
        wordStart := rfl
        behindLineEnd := rfl
        secondBehindLineEnd := .inr rfl
        inComment := rfl }
  | false =>
    have hends' : endsLine s'.sweep.doc.text pos = false := by rwa [h.text]
    have hturn := hplace.turnAt_eq hpos (by rwa [hdoc]) (by
      rw [hdoc, hends]
      nofun)
    have hcounted := hplace.turnBy ((s.place span pos).turnAt span.stop pos)
    have hbyte : s'.sweep.doc.byteAt pos 0x20 = s.sweep.doc.byteAt pos 0x20 := by
      rw [Document.byteAt, Document.byteAt, h.text]
    rw [step_of_inner hends, step_of_inner hends', hturn, hbyte, h.behindLineEnd]
    exact hcounted.see _ _

/--
Counting from the same depth, two scans store the same levels.
-/
theorem sameLevels_step (h : Near limit s s') (hlevel : SameLevels s s') (hpos : pos < limit)
    (hstop : StopsAlike s.sweep.doc.text limit span.stop span'.stop)
    (hbefore : span'.styleBefore s'.sweep.doc pos = span.styleBefore s.sweep.doc pos ∨ s.wordStart = pos) :
    SameLevels (s.step compact span pos) (s'.step compact span' pos) := by
  have hdepth := h.depth
  have hown := hlevel.own
  have hplace := h.place hbefore
  obtain ⟨wordStart, inComment, visible, heq⟩ := place_spec span s pos
  obtain ⟨wordStart', inComment', visible', heq'⟩ := place_spec span' s' pos
  cases hends : endsLine s.sweep.doc.text pos with
  | true =>
    have hends' : endsLine s'.sweep.doc.text pos = true := by rwa [h.text]
    have hnext : s'.sweep.next = s.sweep.next := by omega
    have hvisible := hplace.visible
    rw [step_of_endsLine hends, step_of_endsLine hends']
    rw [heq, heq'] at hvisible ⊢
    have hstored : ({ s'.sweep with visible := visible' } : Sweep).plainLevel compact
        = ({ s.sweep with visible } : Sweep).plainLevel compact := by
      apply Sweep.plainLevel_congr
      . exact hown
      . exact hnext
      . exact hvisible
    exact
      { own := hnext
        onLineAbove := rfl
        levels := by
          show s'.sweep.doc.levels.setIfInBounds s'.sweep.line _ = s.sweep.doc.levels.setIfInBounds s.sweep.line _
          rw [hlevel.levels, h.line]
          exact congrArg _ hstored }
  | false =>
    have hends' : endsLine s'.sweep.doc.text pos = false := by rwa [h.text]
    have hdoc : (s.place span pos).sweep.doc = s.sweep.doc := by rw [heq]
    have hturn := hplace.turnAt_eq hpos (by rwa [hdoc]) (by
      rw [hdoc, hends]
      nofun)
    exact
      { own := by rw [own_step_of_inner hends, own_step_of_inner hends', hturn, hown, hlevel.onLineAbove]
        onLineAbove := by rw [onLineAbove_step_of_inner hends, onLineAbove_step_of_inner hends', hlevel.onLineAbove]
        levels := by rw [doc_step_of_inner hends, doc_step_of_inner hends', hlevel.levels] }

end Near

end FoldScan

end Gibiane

end Highlight
