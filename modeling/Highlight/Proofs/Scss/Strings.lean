import Highlight.Proofs.Cursor.Boundary
import Highlight.Proofs.Scss.Moves

/-!
Where strings of SCSS end: at the first quote with an even number of backslashes in front of it. The number is one of bytes, to which the
second byte of a character can add.
-/

namespace Highlight.Scss

open Cursor LineIndex

variable {doc : Document} {keywords : Keywords} {style : Style} {c : Cursor} {s t : Scan} {pos count i : Nat}

/--
The number of backslashes right in front of the character `count`, of those that start at `pos`.
-/
def escapesBefore (doc : Document) (pos count : Nat) : Nat :=
  match count with
  | 0 => 0
  | count + 1 =>
    if (doc.decodeAt (doc.nextChar^[count] pos)).1 == Code.backslash then escapesBefore doc pos count + 1 else 0

/--
Whether these backslashes stand behind a character of two bytes that has the byte of a backslash for its second one.
-/
def behindTrail (doc : Document) (pos count : Nat) : Bool :=
  match count with
  | 0 => false
  | count + 1 =>
    let q := doc.nextChar^[count] pos
    if (doc.decodeAt q).1 == Code.backslash then behindTrail doc pos count
    else (doc.decodeAt q).2 == 2 && doc.byteAt (q + 1) 0 == 0x5C

/--
The character `count` of a string that starts at `pos` is its quote, and what stands in front does not take it along.
-/
def ClosesAt (doc : Document) (quote : Code) (pos count : Nat) : Prop :=
  (doc.decodeAt (doc.nextChar^[count] pos)).1 = quote
    ∧ (escapesBefore doc pos count % 2 = 0 ↔ behindTrail doc pos count = false)

/--
A step opens a string with the character at `pos`, behind the string that is open in front, if there is one.
-/
structure Opens (keywords : Keywords) (doc : Document) (style : Style) (pos : Nat) (s : Scan) : Prop where
  visits : Visits keywords doc s
  more : s.cursor.more = true
  string : isString style = true
  state : (s.step keywords).cursor.state = style
  segment : (s.step keywords).cursor.pen.segment = pos
  behind : isString s.cursor.state = true → s.cursor.pos < pos

section Backslashes

theorem backslashesBefore_congr {doc' : Document} (h : doc'.text = doc.text) (pos : Nat) :
    Scan.backslashesBefore doc' pos = Scan.backslashesBefore doc pos := by
  induction pos with
  | zero => rfl
  | succ pos ih => rw [Scan.backslashesBefore, Scan.backslashesBefore, Document.byteAt, Document.byteAt, h, ih]

theorem backslashesBefore_succ_of_ne {b : UInt8} (hb : doc.text[pos]? = some b) (hne : b ≠ 0x5C) :
    Scan.backslashesBefore doc (pos + 1) = 0 := by
  rw [Scan.backslashesBefore, Document.byteAt, hb, Option.getD_some, if_neg (by rwa [beq_iff_eq])]

theorem backslashesBefore_succ_of_eq (hb : doc.text[pos]? = some 0x5C) :
    Scan.backslashesBefore doc (pos + 1) = Scan.backslashesBefore doc pos + 1 := by
  rw [Scan.backslashesBefore, Document.byteAt, hb]
  rfl

theorem ne_backslash {b : UInt8} (hb : 0x80 ≤ b.toNat) : b ≠ 0x5C := by
  rintro rfl
  exact absurd hb (by decide)

/--
Behind a character that is no backslash, no byte of a backslash stands, or its second byte.
-/
theorem backslashesBefore_of_ne (hne : (doc.decodeAt pos).1 ≠ Code.backslash) (hlt : pos < doc.size) :
    Scan.backslashesBefore doc (doc.nextChar pos) = if (doc.decodeAt pos).2 == 2 && doc.byteAt (pos + 1) 0 == 0x5C then 1 else 0 := by
  rw [Document.nextChar]
  rcases doc.encoding.decodeAt_cases doc.text pos with
    ⟨hnone, _⟩ | ⟨b, hb, heq⟩ | ⟨value, width, _, hread, heq⟩ | ⟨page, b, trail, _, hb, htrail, hlead, heq⟩
  . rw [Array.getElem?_eq_getElem hlt] at hnone
    cases hnone
  . rw [Document.decodeAt, heq] at hne ⊢
    refine backslashesBefore_succ_of_ne hb ?_
    rintro rfl
    exact hne rfl
  . obtain ⟨hwidth, hbytes⟩ := Utf8.decodeAt?_bytes hread
    rw [Document.decodeAt, heq]
    dsimp only
    obtain ⟨last, hlast, hhigh⟩ := hbytes (width - 1) (by omega)
    rw [show pos + width = pos + (width - 1) + 1 by omega, backslashesBefore_succ_of_ne hlast (ne_backslash hhigh), if_neg]
    intro htrail
    rw [Bool.and_eq_true, beq_iff_eq, beq_iff_eq] at htrail
    obtain ⟨second, hsecond, hhigh⟩ := hbytes 1 (by omega)
    rw [Document.byteAt, hsecond] at htrail
    exact ne_backslash hhigh htrail.2
  . have hhigh := CodePage.le_toNat_of_isLeadByte hlead
    rw [Document.decodeAt, heq, Document.byteAt, htrail]
    show Scan.backslashesBefore doc (pos + 1 + 1) = if (true && trail == 0x5C) = true then 1 else 0
    rw [Bool.true_and]
    split
    . next hbackslash =>
      rw [beq_iff_eq.mp hbackslash] at htrail
      rw [backslashesBefore_succ_of_eq htrail, backslashesBefore_succ_of_ne hb (ne_backslash (by omega))]
    . next hother => exact backslashesBefore_succ_of_ne htrail (by rwa [beq_iff_eq] at hother)

theorem escapesBefore_succ_of_eq (h : (doc.decodeAt (doc.nextChar^[count] pos)).1 = Code.backslash) :
    escapesBefore doc pos (count + 1) = escapesBefore doc pos count + 1 ∧ behindTrail doc pos (count + 1) = behindTrail doc pos count := by
  rw [escapesBefore, behindTrail, h]
  exact ⟨rfl, rfl⟩

theorem escapesBefore_succ_of_ne (h : (doc.decodeAt (doc.nextChar^[count] pos)).1 ≠ Code.backslash) :
    escapesBefore doc pos (count + 1) = 0
      ∧ behindTrail doc pos (count + 1)
        = ((doc.decodeAt (doc.nextChar^[count] pos)).2 == 2 && doc.byteAt (doc.nextChar^[count] pos + 1) 0 == 0x5C) :=
  ⟨if_neg (by rwa [beq_iff_eq]), if_neg (by rwa [beq_iff_eq])⟩

/--
The bytes of backslashes in front of a character, told apart.
-/
theorem backslashesBefore_iterate (hfirst : (doc.decodeAt pos).1 ≠ Code.backslash) (hlt : doc.nextChar^[count] pos < doc.size) :
    Scan.backslashesBefore doc (doc.nextChar^[count + 1] pos)
      = escapesBefore doc pos (count + 1) + if behindTrail doc pos (count + 1) then 1 else 0 := by
  rw [Function.iterate_succ_apply']
  -- From character to character: a backslash adds its byte to those in front of it, another character starts the count anew.
  induction count with
  | zero =>
    obtain ⟨hescapes, htrail⟩ := @escapesBefore_succ_of_ne doc pos 0 hfirst
    rw [hescapes, htrail, Nat.zero_add]
    exact backslashesBefore_of_ne hfirst hlt
  | succ count ih =>
    by_cases hbackslash : (doc.decodeAt (doc.nextChar^[count + 1] pos)).1 = Code.backslash
    . obtain ⟨hescapes, htrail⟩ := escapesBefore_succ_of_eq hbackslash
      have hbefore : doc.nextChar^[count] pos < doc.size := by
        rw [Function.iterate_succ_apply', Document.nextChar] at hlt
        omega
      have hbyte := (doc.decodeAt_is_iff (show Code.isInner '\\'.toNat = true by decide) _).mp (beq_iff_eq.mpr hbackslash)
      have hread := doc.encoding.decodeAt_of_ascii hbyte (by decide)
      have hfront := ih hbefore
      rw [← Function.iterate_succ_apply' doc.nextChar] at hfront
      rw [hescapes, htrail, Document.nextChar, Document.decodeAt, hread, backslashesBefore_succ_of_eq hbyte, hfront]
      exact Nat.add_right_comm _ _ _
    . obtain ⟨hescapes, htrail⟩ := escapesBefore_succ_of_ne hbackslash
      rw [hescapes, htrail, Nat.zero_add]
      exact backslashesBefore_of_ne hbackslash hlt

theorem exists_doubleByte_of_behindTrail (h : behindTrail doc pos count = true) : ∃ page, doc.encoding = .doubleByte page := by
  induction count with
  | zero => cases h
  | succ count ih =>
    by_cases hbackslash : (doc.decodeAt (doc.nextChar^[count] pos)).1 = Code.backslash
    . exact ih ((escapesBefore_succ_of_eq hbackslash).2 ▸ h)
    . rw [(escapesBefore_succ_of_ne hbackslash).2, Bool.and_eq_true, beq_iff_eq, beq_iff_eq] at h
      obtain ⟨hwidth, htrail⟩ := h
      rcases doc.encoding.decodeAt_cases doc.text (doc.nextChar^[count] pos) with
        ⟨_, heq⟩ | ⟨_, _, heq⟩ | ⟨value, width, _, hread, heq⟩ | ⟨page, _, _, hpage, _⟩
      . rw [Document.decodeAt, heq] at hwidth
        cases hwidth
      . rw [Document.decodeAt, heq] at hwidth
        cases hwidth
      . obtain ⟨second, hsecond, hhigh⟩ := (Utf8.decodeAt?_bytes hread).2 1 (Utf8.decodeAt?_bytes hread).1
        rw [Document.byteAt, hsecond] at htrail
        exact absurd htrail (ne_backslash hhigh)
      . exact ⟨page, hpage⟩

end Backslashes

section Quote

variable (hs : s.Sound doc) (hpos : s.cursor.pos ≤ doc.size)
include hs hpos

theorem closesString_begun (quote : Code) : Scan.closesString quote s.begun.cursor
    = ((doc.decodeAt s.cursor.pos).1 == quote && Scan.backslashesBefore doc s.cursor.pos % 2 == 0) := by
  obtain ⟨hc, _, _⟩ := hs.begun hpos
  rw [Scan.closesString, hc.settled.cur_eq, hc.decodeAt_eq, backslashesBefore_congr hc.source.text, s.begun_eq.1]

/--
A step in a string at a character that does not close it.
-/
theorem turn_of_goesOn (hstate : isString s.cursor.state = true) (hopen : Scan.closesString (quoteOf s.cursor.state) s.begun.cursor = false)
    (keywords : Keywords) : s.turn keywords = s.begun := by
  have hsame := s.begun_eq.2.1
  cases hs.inToken hpos dependsOnString_isString keywords with
  | goesOn _ _ heq => exact heq
  | closes _ _ hclose _ =>
    rw [hsame, hopen] at hclose
    cases hclose
  | outside u hnot _ _ =>
    rw [hsame, hstate] at hnot
    cases hnot

/--
A step in a string at the quote that closes it: the quote is painted.
-/
theorem painted_of_closes (hstate : isString s.cursor.state = true) (hclose : Scan.closesString (quoteOf s.cursor.state) s.begun.cursor = true)
    (keywords : Keywords) :
    s.cursor.pos < doc.size ∧ s.cursor.pos < (s.step keywords).cursor.pen.segment
      ∧ (s.step keywords).cursor.Covers (· == s.cursor.state) true s.cursor.pos := by
  obtain ⟨hc, hpos', hplain⟩ := hs.begun hpos
  obtain ⟨hat, hsame, _⟩ := s.begun_eq
  have hcur := Scan.isInner_of_closesString hclose
  obtain ⟨hlt, hforward⟩ := hc.pos_forward_of_isInner hcur
  cases hs.inToken hpos (dependsOnString_beq hstate) keywords with
  | goesOn _ hopen _ =>
    rw [hsame, hclose] at hopen
    cases hopen
  | outside u hnot _ _ =>
    rw [hsame, hstate] at hnot
    cases hnot
  | closes style _ _ hleads =>
    have hmoves := hleads.moves.1
    have hf := hc.forward hpos'
    have hbehind : (s.begun.cursor.forwardSetState style).OnText doc := hf.setState style
    have hsegment : s.cursor.pos < (s.begun.cursor.forwardSetState style).pen.segment := by
      have hsize : s.begun.cursor.forward.pen.doc.size = doc.size := hf.size_eq
      show s.cursor.pos < (s.begun.cursor.forward.pen.colourTo s.begun.cursor.forward.pos s.begun.cursor.forward.state).segment
      rw [Pen.segment_colourTo, hforward]
      omega
    have hcovers : (s.begun.cursor.forwardSetState style).Covers (· == s.cursor.state) true s.cursor.pos := by
      have hquote : s.begun.cursor.forward.Covers (· == s.cursor.state) (s.begun.cursor.state == s.cursor.state) s.cursor.pos :=
        .of_forward _ hc hpos' (Nat.le_of_eq hat) (by omega)
      rw [hsame, beq_self_eq_true] at hquote
      exact hquote.setState hf (by omega) style
    have hin : (s.begun.cursor.forwardSetState style).pos ≤ doc.size := by
      show s.begun.cursor.forward.pos ≤ doc.size
      omega
    refine ⟨by omega, ?_, hs.covers_of_turn hpos (hcovers.moves hbehind hin (by omega) hmoves)⟩
    rw [(hs.step_eq hpos keywords).2.2]
    exact (hmoves.painted hsegment).1

/--
A string that a step has opened starts with its quote, which the step has gone over.
-/
theorem quote_of_opens (hstate : isString (s.step keywords).cursor.state = true)
    (hbehind : isString s.cursor.state = true → s.cursor.pos < (s.step keywords).cursor.pen.segment) :
    (doc.decodeAt (s.step keywords).cursor.pen.segment).1 = quoteOf (s.step keywords).cursor.state
      ∧ (s.step keywords).cursor.pen.segment < doc.size
      ∧ (s.step keywords).cursor.pos = doc.nextChar (s.step keywords).cursor.pen.segment := by
  obtain ⟨hstep, hstepState, hsegment⟩ := hs.step_eq hpos keywords
  rw [hstepState] at hstate
  rw [hsegment] at hbehind ⊢
  rw [hstepState, hstep]
  obtain ⟨hc, hpos', hplain⟩ := hs.begun hpos
  rcases (hs.inToken hpos dependsOnString_isString keywords).exists_leads with ⟨hstring, heq⟩ | ⟨u, hmoves, hleads⟩
  . obtain ⟨hat, hsame, _⟩ := s.begun_eq
    rw [hsame] at hstring
    have hle := hc.settled.segment_le
    have hlt := hbehind hstring
    rw [heq] at hlt
    omega
  . obtain ⟨hu, _, hupos, _⟩ := hmoves.onText hc hpos'
    cases hleads with
    | outside _ _ hnot =>
      rw [hnot] at hstate
      cases hstate
    | opens c style hmoves' hat hquote hstyle hcursor _ =>
      obtain ⟨hd, _, hdpos, _⟩ := hmoves'.onText hu hupos
      have hinner : c.cur.isInner = true := hquote ▸ isInner_quoteOf style
      have hlt := (hd.pos_forward_of_isInner hinner).1
      have hpen : (c.pen.colourTo c.pos c.state).segment = c.pos := by
        have hsize : c.pen.doc.size = doc.size := hd.size_eq
        have hle := hd.settled.segment_le
        rw [Pen.segment_colourTo]
        omega
      rw [hcursor]
      show (doc.decodeAt (c.pen.colourTo c.pos c.state).segment).1 = quoteOf style ∧ (c.pen.colourTo c.pos c.state).segment < doc.size
        ∧ c.pos + c.width = doc.nextChar (c.pen.colourTo c.pos c.state).segment
      rw [hpen, Document.nextChar, ← hquote, hd.settled.cur_eq, hd.settled.width_eq, hd.decodeAt_eq]
      exact ⟨rfl, hlt, rfl⟩

end Quote

/--
A scan at the character `count` of the string that starts at `pos`, which is open.
-/
structure Scan.InString (doc : Document) (style : Style) (pos count : Nat) (s : Scan) : Prop where
  place : s.cursor.pos = doc.nextChar^[count] pos
  state : s.cursor.state = style
  covers : ∀ i, pos ≤ i → i < s.cursor.pos → s.cursor.Covers (· == style) true i

theorem closesString_iff (hs : s.Sound doc) (hpos : s.cursor.pos ≤ doc.size) (hplace : s.cursor.pos = doc.nextChar^[count + 1] pos)
    (hquote : (doc.decodeAt pos).1 = quoteOf style) :
    Scan.closesString (quoteOf style) s.begun.cursor = true ↔ ClosesAt doc (quoteOf style) pos (count + 1) := by
  have hfirst : (doc.decodeAt pos).1 ≠ Code.backslash := by
    rw [hquote]
    rcases quoteOf_cases style with h | h
    . rw [h]
      decide
    . rw [h]
      decide
  have hlt : doc.nextChar^[count] pos < doc.size := by
    rw [hplace, Function.iterate_succ_apply', Document.nextChar] at hpos
    have hwidth := doc.encoding.decodeAt_width_pos doc.text (doc.nextChar^[count] pos)
    rw [← Document.decodeAt] at hwidth
    omega
  rw [closesString_begun hs hpos, hplace, backslashesBefore_iterate hfirst hlt, ClosesAt, Bool.and_eq_true, beq_iff_eq, beq_iff_eq]
  refine and_congr_right fun _ => ?_
  cases behindTrail doc pos (count + 1) with
  | true =>
    rw [if_pos rfl, Bool.true_eq_false, iff_false]
    omega
  | false =>
    rw [if_neg Bool.false_ne_true, Nat.add_zero, iff_true_right rfl]

section Follow

variable (hdoc : doc.WellFormed)
include hdoc

theorem Opens.inString (hopens : Opens keywords doc style pos s) :
    (s.step keywords).InString doc style pos 1 ∧ (doc.decodeAt pos).1 = quoteOf style ∧ pos < doc.size := by
  have hs := hopens.visits.sound hdoc
  have hpos := hs.onText.more_iff.mp hopens.more
  have hquote := quote_of_opens hs hpos (hopens.state.symm ▸ hopens.string) (hopens.segment.symm ▸ hopens.behind)
  rw [hopens.segment, hopens.state] at hquote
  obtain ⟨hquote, hlt, hnext⟩ := hquote
  refine ⟨⟨hnext, hopens.state, ?_⟩, hquote, hlt⟩
  intro i hle hi
  refine .opened ?_ hi ?_
  . rw [hopens.segment]
    exact hle
  . rw [hopens.state]
    exact beq_self_eq_true style

/--
Another character of the string.
-/
theorem Scan.InString.step (h : s.InString doc style pos count) (hstyle : isString style = true) (hvisits : Visits keywords doc s)
    (hpos : s.cursor.pos ≤ doc.size) (hopen : Scan.closesString (quoteOf style) s.begun.cursor = false) :
    (s.step keywords).InString doc style pos (count + 1) ∧ (s.step keywords).cursor.pen.segment ≤ s.cursor.pos := by
  have hs := hvisits.sound hdoc
  obtain ⟨hc, _, _⟩ := hs.begun hpos
  obtain ⟨hat, hsame, _⟩ := s.begun_eq
  have hstate := h.state
  have hturn := turn_of_goesOn hs hpos (by rw [hstate]; exact hstyle) (by rw [hstate]; exact hopen) keywords
  obtain ⟨hstep, hstepState, hsegment⟩ := hs.step_eq hpos keywords
  rw [hturn] at hstep hstepState hsegment
  refine ⟨⟨?_, hstepState.trans (hsame.trans hstate), ?_⟩, ?_⟩
  . rw [hstep, hc.settled.width_eq, hc.decodeAt_eq, hat, Function.iterate_succ_apply', h.place]
    rfl
  . intro i hle hlt
    rcases Nat.lt_or_ge i s.cursor.pos with hbefore | hnew
    . exact hs.covers_step hpos (dependsOnString_beq hstyle) (by omega) (h.covers i hle hbefore) keywords
    . have hcovers := hs.covers_behind hpos (· == style) (by rw [hturn, hat]; exact hnew) hlt
      rwa [hturn, hsame, hstate, beq_self_eq_true] at hcovers
  . rw [hsegment, ← hat]
    exact hc.settled.segment_le

/--
A string stays open up to the first of its characters that closes it.
-/
theorem Opens.exists_inString (hopens : Opens keywords doc style pos s) (hend : doc.nextChar^[count + 1] pos ≤ doc.size)
    (hfirst : ∀ earlier, 0 < earlier → earlier < count + 1 → ¬ ClosesAt doc (quoteOf style) pos earlier) :
    ∃ t, Visits keywords doc t ∧ t.InString doc style pos (count + 1) := by
  obtain ⟨hopened, hquote, hlt⟩ := hopens.inString hdoc
  induction count with
  | zero => exact ⟨_, Iterates.tail hopens.visits hopens.more, hopened⟩
  | succ count ih =>
    have hbefore : doc.nextChar^[count + 1] pos ≤ doc.size := by
      rw [Function.iterate_succ_apply', Document.nextChar] at hend
      omega
    obtain ⟨t, hvisits, ht⟩ := ih hbefore (fun earlier hpos hlt => hfirst earlier hpos (by omega))
    have hs := hvisits.sound hdoc
    have hpos : t.cursor.pos ≤ doc.size := by rwa [ht.place]
    -- The character in front does not close the string, so the step only goes over it.
    have hopen : Scan.closesString (quoteOf style) t.begun.cursor = false := by
      rw [Bool.eq_false_iff, Ne, closesString_iff hs hpos ht.place hquote]
      exact hfirst (count + 1) (Nat.succ_pos _) (Nat.lt_succ_self _)
    exact ⟨_, Iterates.tail hvisits (hs.onText.more_iff.mpr hpos), (ht.step hdoc hopens.string hvisits hpos hopen).1⟩

omit hdoc in
/--
Going from character to character leads to the end of the text.
-/
theorem exists_iterate_size (hpos : pos ≤ doc.size) : ∃ count, doc.nextChar^[count] pos = doc.size := by
  induction hk : doc.size - pos using Nat.strongRecOn generalizing pos with
  | ind k ih =>
    rcases Nat.eq_or_lt_of_le hpos with heq | hlt
    . exact ⟨0, heq⟩
    . have hnext : doc.nextChar pos ≤ doc.size := doc.encoding.decodeAt_le_size hlt
      have hwidth : pos < doc.nextChar pos := Nat.lt_add_of_pos_right (doc.encoding.decodeAt_width_pos doc.text pos)
      obtain ⟨count, hcount⟩ := ih (doc.size - doc.nextChar pos) (by omega) hnext rfl
      exact ⟨count + 1, hcount⟩

end Follow

/--
A string of SCSS closes at the first of its quotes that has an even number of backslashes in front of it, where the second byte of the
character behind which they stand counts as well if it is the byte of one. Up to there, all bytes have the style of the string. If there
is no such quote, all bytes up to the end of the text have it. It takes a double-byte code page for such a character.
-/
theorem string_closes_at_quote (session : Session) (hsession : session.lexer = lexer) (text : Array UInt8) (encoding : Encoding)
    (options : Options) (s : Scan) (style : Style) (pos : Nat) :
    let doc := Document.fresh text encoding options
    let styled := session.colour doc 0 text.size
    Opens session.keywords doc style pos s →
      (∀ count, 0 < count → doc.nextChar^[count] pos ≤ text.size
          → (∀ earlier, 0 < earlier → earlier < count → ¬ ClosesAt doc (quoteOf style) pos earlier) →
        (∀ i, pos ≤ i → i < doc.nextChar^[count] pos → styled.styleAt i = style)
          ∧ (ClosesAt doc (quoteOf style) pos count → styled.styleAt (doc.nextChar^[count] pos) = style)
          ∧ ∃ t, Visits session.keywords doc t ∧ t.cursor.pos = doc.nextChar^[count] pos ∧ t.cursor.state = style
            ∧ (t.cursor.pos < (t.step session.keywords).cursor.pen.segment ↔ ClosesAt doc (quoteOf style) pos count))
        ∧ ((∀ count, 0 < count → ¬ ClosesAt doc (quoteOf style) pos count) →
          ∀ i, pos ≤ i → i < text.size → styled.styleAt i = style)
        ∧ ∀ count, behindTrail doc pos count = true → ∃ page, encoding = .doubleByte page := by
  intro doc styled hopens
  have hdoc : doc.WellFormed := Document.wellFormed_fresh text encoding options
  obtain ⟨_, hquote, hlt⟩ := hopens.inString hdoc
  have hstyled {t : Scan} {i : Nat} (ht : Visits session.keywords doc t) (hi : i < doc.size)
      (hcovers : t.cursor.Covers (· == style) true i) : styled.styleAt i = style :=
    beq_iff_eq.mp (ht.kind_colour hsession hdoc (dependsOnString_beq hopens.string) hi hcovers)
  refine ⟨?_, ?_, fun count htrail => exists_doubleByte_of_behindTrail htrail⟩
  . rintro (_ | count) hcount hend hfirst
    . exact absurd hcount (Nat.lt_irrefl 0)
    . obtain ⟨t, hvisits, ht⟩ := hopens.exists_inString hdoc hend hfirst
      have hs := hvisits.sound hdoc
      have hpos : t.cursor.pos ≤ doc.size := by
        rw [ht.place]
        exact hend
      have hcloses := closesString_iff hs hpos ht.place hquote
      have hclosing (hclose : Scan.closesString (quoteOf style) t.begun.cursor = true) :=
        painted_of_closes hs hpos (by rw [ht.state]; exact hopens.string) (by rw [ht.state]; exact hclose) session.keywords
      refine ⟨?_, ?_, t, hvisits, ht.place, ht.state, ?_⟩
      . intro i hle hi
        rw [← ht.place] at hi
        exact hstyled hvisits (by omega) (ht.covers i hle hi)
      . intro hclose
        obtain ⟨hin, _, hcovers⟩ := hclosing (hcloses.mpr hclose)
        rw [ht.state] at hcovers
        rw [← ht.place]
        exact hstyled (Iterates.tail hvisits (hs.onText.more_iff.mpr hpos)) hin hcovers
      . rw [← hcloses]
        constructor
        . intro hpainted
          rw [← Bool.not_eq_false]
          intro hopen
          have hle := (ht.step hdoc hopens.string hvisits hpos hopen).2
          omega
        . exact fun hclose => (hclosing hclose).2.1
  . intro hnone i hle hi
    obtain ⟨count, hcount⟩ := exists_iterate_size (Nat.le_of_lt hlt)
    cases count with
    | zero => exact absurd hcount (Nat.ne_of_lt hlt)
    | succ count =>
      obtain ⟨t, hvisits, ht⟩ := hopens.exists_inString hdoc (Nat.le_of_eq hcount) (fun earlier hearlier _ => hnone earlier hearlier)
      exact hstyled hvisits hi (ht.covers i hle (by rw [ht.place, hcount]; exact hi))

/--
A string with a quote that a backslash takes along, in front of the one that closes it.
-/
theorem string_closes_at_quote_escaped :
    let session := Session.ofLexer lexer
    let doc := Document.fresh "a\x7bb:\"é\\\"\"c".toUTF8.data .utf8 .empty
    let styled := session.colour doc 0 11
    (∀ i, 4 ≤ i → i < 9 → styled.styleAt i = Style.doubleString) ∧ styled.styleAt 9 = Style.doubleString
      ∧ ∃ t, Visits session.keywords doc t ∧ t.cursor.pos = 9 ∧ t.cursor.pos < (t.step session.keywords).cursor.pen.segment := by
  intro session doc styled
  let s := repeatWhile (·.cursor.more) (Scan.step session.keywords) 4 (.ofSpan (doc.spanOf 0 doc.size) doc)
  have hopens : Opens session.keywords doc Style.doubleString 4 s :=
    ⟨iterates_repeatWhile _ _ 4 _, by decide +kernel, rfl, by decide +kernel, by decide +kernel, by decide +kernel⟩
  have hplace : doc.nextChar^[4] 4 = 9 := by decide +kernel
  have hcloses : ClosesAt doc (quoteOf Style.doubleString) 4 4 := ⟨by decide +kernel, by decide +kernel⟩
  have hnone : ∀ earlier < 4, 0 < earlier → ¬ ClosesAt doc (quoteOf Style.doubleString) 4 earlier := by
    unfold ClosesAt
    decide +kernel
  have hends := (string_closes_at_quote session rfl "a\x7bb:\"é\\\"\"c".toUTF8.data .utf8 .empty s Style.doubleString 4 hopens).1
  obtain ⟨hopen, hquote, t, ht, hpos, _, hclose⟩ := hends 4 (by decide) (by decide +kernel)
    (fun earlier hpos hlt => hnone earlier hlt hpos)
  rw [hplace] at hopen hquote hpos
  exact ⟨hopen, hquote hcloses, t, ht, hpos, hclose.mpr hcloses⟩

/--
A string that goes on over its quote, which has no backslash in front of it but a character with the byte of one.
-/
theorem string_goes_on_over_quote :
    let session := Session.ofLexer lexer
    let doc := Document.fresh #[0x61, 0x7B, 0x3A, 0x22, 0x95, 0x5C, 0x22, 0x3B, 0x7D] (.doubleByte .shiftJis) .empty
    let styled := session.colour doc 0 9
    (∃ s, Opens session.keywords doc Style.doubleString 3 s) ∧ doc.nextChar^[2] 3 = 6 ∧ (doc.decodeAt 6).1 = Code.quote ∧ escapesBefore doc 3 2 = 0
      ∧ styled.styleAt 7 = Style.doubleString := by
  intro session doc styled
  have hrun := iterates_repeatWhile (·.cursor.more) (Scan.step session.keywords) 3 (.ofSpan (doc.spanOf 0 doc.size) doc)
  refine ⟨⟨_, hrun, ?_, ?_, ?_, ?_, ?_⟩, by decide +kernel, by decide +kernel, by decide +kernel, by decide +kernel⟩
  . decide +kernel
  . rfl
  . decide +kernel
  . decide +kernel
  . decide +kernel

end Highlight.Scss
