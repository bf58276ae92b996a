import Highlight.Proofs.Sql.Pass

/-!
Where a stream comment of SQL ends in a pass from the start of the text. Up to its first terminator, all bytes get the
styles of such a comment. The terminator ends the comment unless a documentation keyword has ended right in front of it,
since the distance from the start of the comment is taken from the start of the segment, and unless its slash opens
the next comment.
-/

namespace Highlight.Sql

open LineIndex

variable {doc : Document} {q e : Nat}

/--
The two bytes that end a stream comment.
-/
structure Terminates (doc : Document) (e : Nat) : Prop where
  star : (codeAt doc e).is '*' = true
  slash : (codeAt doc (e + 1)).is '/' = true

/--
The first terminator behind the two bytes at `q` that open a stream comment.
-/
structure FirstTerminator (doc : Document) (q e : Nat) : Prop where
  le : q + 2 ≤ e
  terminates : Terminates doc e
  first : ∀ e', q + 2 ≤ e' → e' < e → ¬ Terminates doc e'

/--
A documentation keyword starts at `a`, if that is in a documentation comment.
-/
structure KeywordStarts (doc : Document) (a : Nat) : Prop where
  sign : (codeAt doc a).is '@' = true
  before : (codeAt doc (a - 1)).isSpace = true ∨ (codeAt doc (a - 1)).is '*' = true
  behind : (codeAt doc (a + 1)).isSpace = false

/--
The comment that opens at `q` is a documentation comment, and one of its keywords ends in front of `k`.
-/
structure KeywordEnds (doc : Document) (q k : Nat) : Prop where
  star : (codeAt doc (q + 2)).is '*' = true
  keyword : ∃ a, q < a ∧ a < k ∧ KeywordStarts doc a ∧ ∀ i, a < i → i < k → isWord (codeAt doc i) = true
  ends : isWord (codeAt doc k) = false

theorem isWord_of_is {c : Code} {x : Char} (hx : isWord x.toNat = false) (h : c.is x = true) : isWord c = false := by
  rw [Code.is, beq_iff_eq] at h
  rwa [h]

theorem is_of_is {c : Code} {x y : Char} (hne : x.toNat ≠ y.toNat) (h : c.is x = true) : c.is y = false := by
  rw [Code.is, beq_iff_eq] at h
  rw [Code.is, beq_eq_false_iff_ne, h]
  exact hne

theorem isSpace_of_isWord {c : Nat} (h : isWord c = true) : Code.isSpace c = false := by
  rw [Bool.eq_false_iff]
  intro hspace
  have hspace : c = 0x20 ∨ 0x09 ≤ c ∧ c ≤ 0x0D := by simpa [Code.isSpace] using hspace
  have hcases : c = 0x20 ∨ c = 0x09 ∨ c = 0x0A ∨ c = 0x0B ∨ c = 0x0C ∨ c = 0x0D := by omega
  rcases hcases with rfl | rfl | rfl | rfl | rfl | rfl
  all_goals exact absurd h (by decide)

/--
No keyword starts right behind the sign of one or behind a character of its word.
-/
theorem KeywordStarts.not_behind {a pos : Nat} (h : KeywordStarts doc a) (hlt : a < pos)
    (hword : ∀ i, a < i → i < pos → isWord (codeAt doc i) = true) :
    (codeAt doc (pos - 1)).isSpace = false ∧ (codeAt doc (pos - 1)).is '*' = false := by
  rcases Nat.eq_or_lt_of_le (Nat.le_sub_one_of_lt hlt) with heq | hlt'
  . rw [← heq]
    have hsign : codeAt doc a = 0x40 := beq_iff_eq.mp h.sign
    rw [hsign]
    decide
  . have hw := hword (pos - 1) hlt' (by omega)
    refine ⟨isSpace_of_isWord hw, ?_⟩
    rw [Bool.eq_false_iff]
    intro hstar
    rw [isWord_of_is (by decide) hstar] at hw
    cases hw

namespace Scan

variable {s t : Scan} {settings : Settings}

theorem codeAt_sameSource {doc' : Document} (h : doc.SameSource doc') (pos : Nat) : codeAt doc' pos = codeAt doc pos := by
  rw [codeAt, codeAt, Document.byteAt, Document.byteAt, h.text]

/--
How far a scan has come in the comment that opens at `q`: it is in the text of a comment without or with documentation
keywords, or in one of these. Behind a keyword, the segment starts where the last one has ended.
-/
inductive Stage (doc : Document) (q : Nat) (s : Scan) : Prop where
  | comment : (codeAt doc (q + 2)).is '*' = false → s.state = Style.comment → s.pen.segment = q → Stage doc q s
  | commentDoc : (codeAt doc (q + 2)).is '*' = true → s.state = Style.commentDoc →
    s.pen.segment = q ∨ KeywordEnds doc q s.pen.segment →
    (∀ a, q < a → a < s.pos → KeywordStarts doc a → ∃ i, a < i ∧ i < s.pos ∧ isWord (codeAt doc i) = false) →
    (∀ k, KeywordEnds doc q k → k < s.pos → k ≤ s.pen.segment) → Stage doc q s
  | keyword : (codeAt doc (q + 2)).is '*' = true → s.state = Style.docKeyword → q < s.pen.segment →
    KeywordStarts doc s.pen.segment → (∀ i, s.pen.segment < i → i < s.pos → isWord (codeAt doc i) = true) → Stage doc q s

/--
A scan in the comment that opens at `q`.
-/
structure Inside (doc : Document) (q : Nat) (s : Scan) : Prop where
  source : doc.SameSource s.doc
  lt_pos : q < s.pos
  prev : s.prev = codeAt doc (s.pos - 1)
  segment_lt : s.pen.segment < s.pos
  le_segment : q ≤ s.pen.segment
  stage : s.Stage doc q

/--
The byte `i` has the style of a stream comment, or is going to get one when the open token ends.
-/
def Covers (s : Scan) (i : Nat) : Prop :=
  i < s.pen.segment ∧ isStreamComment (s.doc.styleAt i) = true ∨ s.pen.segment ≤ i ∧ i < s.pos ∧ isStreamComment s.state = true

section Covers

variable {i : Nat}

theorem styleAt_of_onward {pen pen' : Pen} (h : pen.Onward pen') (hi : i < pen.segment) :
    pen'.doc.styleAt i = pen.doc.styleAt i := by
  rw [Document.styleAt, Document.styleAt, h.styles i (.inl hi)]

/--
Colouring the open token settles the bytes in it.
-/
theorem covered_colourTo {pen : Pen} {stop : Nat} {style : Highlight.Style} (hdoc : pen.doc.WellFormed) (hsegment : pen.segment ≤ i)
    (hstop : i < stop) (hsize : i < pen.doc.size) (hstyle : isStreamComment style = true) :
    i < (pen.colourTo stop style).segment ∧ isStreamComment ((pen.colourTo stop style).doc.styleAt i) = true := by
  constructor
  . rw [Pen.segment_colourTo]
    omega
  . rwa [Pen.styleAt_colourTo hdoc hsegment hstop hsize]

theorem Turn.covers (h : s.Turn t) (hdoc : s.doc.WellFormed) (hsize : i < s.doc.size) (hcovers : s.Covers i) : t.Covers i := by
  have honward := h.onward
  have hpos : s.pos ≤ t.pos := by
    rcases h.pos_cases with hpos | hpos <;> omega
  rcases hcovers with ⟨hlt, hstyle⟩ | ⟨hle, hlt, hstyle⟩
  . refine .inl ⟨Nat.lt_of_lt_of_le hlt honward.segment_le, ?_⟩
    rw [Scan.doc, styleAt_of_onward honward hlt]
    exact hstyle
  . have hne {style : Highlight.Style} (hnot : isStreamComment style = false) : s.state ≠ style := by
      intro heq
      rw [heq, hnot] at hstyle
      cases hstyle
    cases h with
    | stay _ => exact .inr ⟨hle, hlt, hstyle⟩
    | skip hstate _ => exact absurd hstate (not_or.mpr ⟨hne rfl, hne rfl⟩)
    | start style hstate _ => exact absurd hstate (hne rfl)
    | operator hstate _ => exact absurd hstate (hne rfl)
    | keyword _ _ => exact .inl (covered_colourTo hdoc hle hlt hsize hstyle)
    | keywordEnd style _ hkeyword =>
      refine .inl (covered_colourTo hdoc hle hlt hsize ?_)
      unfold isDocKeyword at hkeyword
      split at hkeyword
      . rfl
      . rfl
      . cases hkeyword
    | leave stop style pos hleaves henters =>
      have hpainted : i < (s.pen.colourTo stop style).segment
          ∧ isStreamComment ((s.pen.colourTo stop style).doc.styleAt i) = true := by
        cases hleaves with
        | word _ hstate => exact absurd hstate (hne rfl)
        | line hstate =>
          rcases isLineStyle_cases hstate with h | h | h | h <;> exact absurd h (hne rfl)
        | keyword _ => exact covered_colourTo hdoc hle hlt hsize rfl
        | comment _ _ => exact covered_colourTo hdoc hle (Nat.lt_succ_of_lt hlt) hsize hstyle
        | string hstate _ => exact absurd hstate (not_or.mpr ⟨hne rfl, hne rfl⟩)
      have henter := henters.onward
      refine .inl ⟨Nat.lt_of_lt_of_le hpainted.1 henter.segment_le, ?_⟩
      rw [Scan.doc, styleAt_of_onward henter hpainted.1]
      exact hpainted.2

theorem covers_step (hsingle : s.SingleByte) (hdoc : s.doc.WellFormed) (hsize : i < s.doc.size) (hcovers : s.Covers i) :
    (s.step settings).Covers i := by
  have hcovers' := (turn_spec s settings).covers hdoc hsize hcovers
  rw [step_eq hsingle]
  rcases hcovers' with hpainted | ⟨hle, hlt, hstyle⟩
  . exact .inl hpainted
  . exact .inr ⟨hle, Nat.lt_succ_of_lt hlt, hstyle⟩

end Covers

section Inside

/--
A step in a token that does not end, with the pen that it leaves.
-/
theorem step_of_leave (hsingle : s.SingleByte) (hstate : s.state ≠ Style.default ∧ s.state ≠ Style.word) {pen : Pen}
    {state : Highlight.Style} (hleave : s.leave settings = { s with pen, state }) (hne : state ≠ Style.default)
    (hsame : s.doc.SameSource pen.doc) :
    s.step settings = { s with pen, state, pos := s.pos + 1, prev := codeAt s.doc s.pos } := by
  have hturn : s.turn settings = { s with pen, state } := by
    rw [turn_of_token rfl hstate, stepInToken_of_ne (by rw [hleave]; exact hne), hleave]
  rw [step_eq hsingle, hturn]
  have hcur : ({ s with pen, state } : Scan).cur = codeAt s.doc s.pos := codeAt_sameSource hsame s.pos
  rw [hcur]

theorem stay_of_leave (hsingle : s.SingleByte) (hstate : s.state ≠ Style.default ∧ s.state ≠ Style.word)
    (hleave : s.leave settings = s) : s.step settings = { s with pos := s.pos + 1, prev := codeAt s.doc s.pos } :=
  step_of_leave hsingle hstate hleave hstate.1 (.refl _)

theorem closesComment_iff {span : Span} (hspan : span.style = Style.default) (hstate : s.state ≠ Style.default) :
    closesComment span s = true ↔ s.pen.segment + 2 < s.pos := by
  have hne : (span.style == s.state) = false := by
    rw [beq_eq_false_iff_ne, hspan]
    exact hstate.symm
  rw [closesComment, hne, Bool.false_and, Bool.or_false, decide_eq_true_iff]

/--
A slash behind a star is a terminator behind the opening bytes, or the segment starts too close in front of it.
-/
theorem Inside.not_closes (h : s.Inside doc q) (hgo : ∀ e, q + 2 ≤ e → e + 1 = s.pos → ¬ Terminates doc e)
    (hcur : (s.cur.is '/' && s.prev.is '*') = true) : ¬ s.pen.segment + 2 < s.pos := by
  intro hlt
  have hle := h.le_segment
  obtain ⟨hslash, hstar⟩ := Bool.and_eq_true_iff.mp hcur
  rw [Scan.cur, codeAt_sameSource h.source] at hslash
  rw [h.prev] at hstar
  refine hgo (s.pos - 1) (by omega) (by omega) ⟨hstar, ?_⟩
  rwa [show s.pos - 1 + 1 = s.pos by omega]

theorem leave_of_not_closes {span : Span} (h : closesComment span s ≠ true) : s.leaveComment span = s :=
  if_neg h

theorem startsDocKeyword_iff (h : s.Inside doc q) : s.startsDocKeyword = true ↔ KeywordStarts doc s.pos := by
  rw [startsDocKeyword, Scan.cur, Scan.next, codeAt_sameSource h.source, codeAt_sameSource h.source, h.prev, Bool.and_eq_true,
    Bool.and_eq_true, Bool.or_eq_true, Bool.not_eq_true']
  constructor
  . rintro ⟨⟨hsign, hbefore⟩, hbehind⟩
    exact ⟨hsign, hbefore, hbehind⟩
  . rintro ⟨hsign, hbefore, hbehind⟩
    exact ⟨⟨hsign, hbefore⟩, hbehind⟩

/--
Another byte of the open token.
-/
theorem Inside.stay (h : s.Inside doc q) {t : Scan} (ht : t = { s with pos := s.pos + 1, prev := codeAt s.doc s.pos })
    (hstage : t.Stage doc q) : t.Inside doc q ∧ t.pos = s.pos + 1 := by
  have hprev := codeAt_sameSource h.source s.pos
  have hsegment := h.segment_lt
  have hpos := h.lt_pos
  subst ht
  exact ⟨⟨h.source, Nat.lt_succ_of_lt hpos, hprev, Nat.lt_succ_of_lt hsegment, h.le_segment, hstage⟩, rfl⟩

/--
The open token ends in front of the byte, within the comment.
-/
theorem Inside.cut (h : s.Inside doc q) (hsize : s.pos < doc.size) {style state : Highlight.Style} {t : Scan}
    (ht : t = { s with pen := s.pen.colourTo s.pos style, state, pos := s.pos + 1, prev := codeAt s.doc s.pos })
    (hstage : t.pen.segment = s.pos → t.Stage doc q) : t.Inside doc q ∧ t.pos = s.pos + 1 := by
  have hprev := codeAt_sameSource h.source s.pos
  have hlt := h.segment_lt
  have hpos := h.lt_pos
  have hsize' : s.pen.doc.size = doc.size := h.source.size
  have hsegment : (s.pen.colourTo s.pos style).segment = s.pos := by
    rw [Pen.segment_colourTo]
    omega
  subst ht
  refine ⟨⟨h.source.trans (Cursor.sameSource_colourTo _ _ _), Nat.lt_succ_of_lt hpos, hprev, ?_, ?_, hstage hsegment⟩, rfl⟩
  . show (s.pen.colourTo s.pos style).segment < s.pos + 1
    omega
  . show q ≤ (s.pen.colourTo s.pos style).segment
    omega

variable (hspan : settings.span.style = Style.default) (hsingle : s.SingleByte) (h : s.Inside doc q) (hsize : s.pos < doc.size)
  (hgo : ∀ e, q + 2 ≤ e → e + 1 = s.pos → ¬ Terminates doc e)
include hspan hsingle h hgo

theorem Inside.step_comment (hstar : (codeAt doc (q + 2)).is '*' = false) (hstate : s.state = Style.comment)
    (hsegment : s.pen.segment = q) : (s.step settings).Inside doc q ∧ (s.step settings).pos = s.pos + 1 := by
  have hne : s.state ≠ Style.default ∧ s.state ≠ Style.word := by
    rw [hstate]
    decide
  have hleave : s.leave settings = s := by
    rw [leave_of_comment hstate]
    split
    . next hcur => exact leave_of_not_closes fun hclose => h.not_closes hgo hcur ((closesComment_iff hspan hne.1).mp hclose)
    . rfl
  rw [stay_of_leave hsingle hne hleave]
  exact h.stay rfl (.comment hstar hstate hsegment)

include hsize

theorem Inside.step_commentDoc (hstar : (codeAt doc (q + 2)).is '*' = true) (hstate : s.state = Style.commentDoc)
    (hbegun : s.pen.segment = q ∨ KeywordEnds doc q s.pen.segment)
    (hopen : ∀ a, q < a → a < s.pos → KeywordStarts doc a → ∃ i, a < i ∧ i < s.pos ∧ isWord (codeAt doc i) = false)
    (hended : ∀ k, KeywordEnds doc q k → k < s.pos → k ≤ s.pen.segment) :
    (s.step settings).Inside doc q ∧ (s.step settings).pos = s.pos + 1 := by
  have hne : s.state ≠ Style.default ∧ s.state ≠ Style.word := by
    rw [hstate]
    decide
  have hpos := h.lt_pos
  -- Where no keyword starts, the comment goes on, and no keyword can end at this byte.
  have hstay : ¬ KeywordStarts doc s.pos → s.leave settings = s →
      (s.step settings).Inside doc q ∧ (s.step settings).pos = s.pos + 1 := by
    intro hstarts hleave
    rw [stay_of_leave hsingle hne hleave]
    refine h.stay rfl (.commentDoc hstar hstate hbegun ?_ ?_)
    . intro a ha hlt hkeyword
      have hlt : a < s.pos + 1 := hlt
      rcases Nat.eq_or_lt_of_le (Nat.le_of_lt_succ hlt) with rfl | hlt'
      . exact absurd hkeyword hstarts
      . obtain ⟨i, hai, his, hword⟩ := hopen a ha hlt' hkeyword
        exact ⟨i, hai, Nat.lt_succ_of_lt his, hword⟩
    . intro k hk hlt
      have hlt : k < s.pos + 1 := hlt
      rcases Nat.eq_or_lt_of_le (Nat.le_of_lt_succ hlt) with rfl | hlt'
      . obtain ⟨a, ha, hak, hkeyword, hwords⟩ := hk.keyword
        obtain ⟨i, hai, his, hword⟩ := hopen a ha hak hkeyword
        rw [hwords i hai his] at hword
        cases hword
      . exact hended k hk hlt'
  have hleave := @leave_of_commentDoc _ settings hstate
  split at hleave
  . next hcur =>
    rw [leave_of_not_closes fun hclose => h.not_closes hgo hcur ((closesComment_iff hspan hne.1).mp hclose)] at hleave
    refine hstay ?_ hleave
    intro hkeyword
    have hslash := (Bool.and_eq_true_iff.mp hcur).1
    rw [Scan.cur, codeAt_sameSource h.source, is_of_is (by decide) hkeyword.sign] at hslash
    cases hslash
  . split at hleave
    . next hword =>
      have hkeyword := (startsDocKeyword_iff h).mp hword
      rw [step_of_leave hsingle hne hleave (by decide) (Cursor.sameSource_colourTo _ _ _)]
      refine h.cut hsize rfl fun hsegment => ?_
      refine .keyword hstar rfl ?_ ?_ ?_
      . rw [hsegment]
        exact hpos
      . rw [hsegment]
        exact hkeyword
      . rw [hsegment]
        intro i hi hlt
        have hlt : i < s.pos + 1 := hlt
        omega
    . next hword => exact hstay (fun hkeyword => hword ((startsDocKeyword_iff h).mpr hkeyword)) hleave

omit hspan hgo in
theorem Inside.step_keyword (hstar : (codeAt doc (q + 2)).is '*' = true) (hstate : s.state = Style.docKeyword)
    (hq : q < s.pen.segment) (hkeyword : KeywordStarts doc s.pen.segment)
    (hwords : ∀ i, s.pen.segment < i → i < s.pos → isWord (codeAt doc i) = true) :
    (s.step settings).Inside doc q ∧ (s.step settings).pos = s.pos + 1 := by
  have hne : s.state ≠ Style.default ∧ s.state ≠ Style.word := by
    rw [hstate]
    decide
  have hbehind := hkeyword.not_behind h.segment_lt hwords
  have hleave := @leave_of_docKeyword _ settings hstate
  unfold leaveDocKeyword at hleave
  dsimp only at hleave
  have hcur : (s.cur.is '/' && s.prev.is '*') = false := by rw [h.prev, hbehind.2, Bool.and_false]
  rw [hcur, if_neg Bool.false_ne_true] at hleave
  split at hleave
  . next hword =>
    rw [Scan.cur, codeAt_sameSource h.source] at hword
    rw [stay_of_leave hsingle hne hleave]
    refine h.stay rfl (.keyword hstar hstate hq hkeyword ?_)
    intro i hi hlt
    have hlt : i < s.pos + 1 := hlt
    rcases Nat.eq_or_lt_of_le (Nat.le_of_lt_succ hlt) with rfl | hlt'
    . exact hword
    . exact hwords i hi hlt'
  . next hword =>
    rw [Scan.cur, codeAt_sameSource h.source, Bool.not_eq_true] at hword
    rw [step_of_leave hsingle hne hleave (by decide) (Cursor.sameSource_colourTo _ _ _)]
    refine h.cut hsize rfl fun hsegment => ?_
    refine .commentDoc hstar rfl (.inr ?_) ?_ ?_
    . rw [hsegment]
      exact ⟨hstar, ⟨_, hq, h.segment_lt, hkeyword, hwords⟩, hword⟩
    . intro a _ hlt hstarts
      have hlt : a < s.pos + 1 := hlt
      rcases Nat.eq_or_lt_of_le (Nat.le_of_lt_succ hlt) with rfl | hlt'
      . rcases hstarts.before with hspace | hstar'
        . rw [hbehind.1] at hspace
          cases hspace
        . rw [hbehind.2] at hstar'
          cases hstar'
      . exact ⟨s.pos, hlt', Nat.lt_succ_self _, hword⟩
    . intro k _ hlt
      rw [hsegment]
      exact Nat.le_of_lt_succ hlt

/--
A step that does not come behind a terminator stays in the comment.
-/
theorem Inside.step : (s.step settings).Inside doc q ∧ (s.step settings).pos = s.pos + 1 := by
  cases h.stage with
  | comment hstar hstate hsegment => exact h.step_comment hspan hsingle hgo hstar hstate hsegment
  | commentDoc hstar hstate hbegun hopen hended => exact h.step_commentDoc hspan hsingle hsize hgo hstar hstate hbegun hopen hended
  | keyword hstar hstate hq hkeyword hwords => exact h.step_keyword hsingle hsize hstar hstate hq hkeyword hwords

end Inside

section Ends

/--
What starts at a slash: nothing but a stream comment, which is one with keywords if a second star follows.
-/
theorem starting?_of_slash (hslash : s.cur.is '/' = true) (betweenTokens : Bool) :
    s.starting? betweenTokens
      = if s.next.is '*' then some (if (codeAt s.doc (s.pos + 2)).is '*' then Style.commentDoc else Style.comment) else none := by
  have hcur : codeAt s.doc s.pos = 0x2F := beq_iff_eq.mp hslash
  have hline : s.startingLine? = none := by
    have hno {pattern : String} {first : Code} {rest : List Code} (hpattern : (Utf8.encode pattern).map UInt8.toNat = first :: rest)
        (hfirst : (Code.toLower 0x2F == first) = false) : abbreviatedAt s.doc s.pos pattern = false := by
      rw [Bool.eq_false_iff]
      intro h
      have hlower := abbreviatedAt_first hpattern h
      rw [lowerAt, hcur, hfirst] at hlower
      cases hlower
    rw [startingLine?, hno (show _ = 0x72 :: _ by rfl) rfl, hno (show _ = 0x70 :: _ by rfl) rfl]
    rfl
  have hword : s.startingWord? = none := by
    rw [startingWord?, Scan.cur, hcur]
    rfl
  have hstring : s.startingString? = none := by
    rw [startingString?, Scan.cur, hcur]
    rfl
  have hcomment : s.startingComment?
      = if s.next.is '*' then some (if (codeAt s.doc (s.pos + 2)).is '*' then Style.commentDoc else Style.comment) else none := by
    rw [startingComment?, Scan.cur, hcur, show Code.is 0x2F '/' = true from rfl, show Code.is 0x2F '-' = false from rfl,
      show Code.is 0x2F '#' = false from rfl, Bool.true_and, Bool.false_and]
    rfl
  rw [starting?, hline, hword, hstring, hcomment]
  cases betweenTokens <;> cases s.next.is '*' <;> rfl

theorem enter_of_slash (hslash : s.cur.is '/' = true) :
    s.enter.pos = s.pos ∧ s.pen.Onward s.enter.pen
      ∧ (s.enter.state = Style.default ↔ s.next.is '*' = false)
      ∧ (s.enter.state = Style.default ∨ s.enter.state = Style.comment ∨ s.enter.state = Style.commentDoc) := by
  have henters := enters_enter s
  refine ⟨henters.pos, henters.onward, ?_⟩
  rw [enter, starting?_of_slash hslash]
  cases s.next.is '*' with
  | false => exact ⟨⟨fun _ => rfl, fun _ => rfl⟩, .inl rfl⟩
  | true =>
    cases (codeAt s.doc (s.pos + 2)).is '*' with
    | false => exact ⟨⟨fun h => absurd h (show Style.comment ≠ Style.default by decide), nofun⟩, .inr (.inl rfl)⟩
    | true => exact ⟨⟨fun h => absurd h (show Style.commentDoc ≠ Style.default by decide), nofun⟩, .inr (.inr rfl)⟩

variable (h : s.Inside doc q)
include h

theorem Inside.singleByte (hsingle : ∀ b, doc.encoding.isLeadByte b = false) : s.SingleByte := by
  intro b
  rw [h.source.encoding]
  exact hsingle b

theorem Inside.isStreamComment : isStreamComment s.state = true := by
  cases h.stage with
  | comment _ hstate _ => rw [hstate]; rfl
  | commentDoc _ hstate _ _ _ => rw [hstate]; rfl
  | keyword _ hstate _ _ _ => rw [hstate]; rfl

/--
Behind the star of a terminator, no keyword is open, and the segment starts right in front of the star if a keyword has
ended there.
-/
theorem Inside.at_terminator (hend : FirstTerminator doc q e) (hpos : s.pos = e + 1) :
    (s.state = Style.comment ∨ s.state = Style.commentDoc)
      ∧ (s.pen.segment + 2 < s.pos ↔ ¬ KeywordEnds doc q (e - 1) ∧ ¬ KeywordEnds doc q e) := by
  have hle := hend.le
  have hword : isWord (codeAt doc e) = false := isWord_of_is (by decide) hend.terminates.star
  cases h.stage with
  | comment hstar hstate hsegment =>
    refine ⟨.inl hstate, fun _ => ⟨?_, ?_⟩, fun _ => by omega⟩
    all_goals
      intro hk
      rw [hk.star] at hstar
      cases hstar
  | commentDoc hstar hstate hbegun hopen hended =>
    refine ⟨.inr hstate, ?_, ?_⟩
    . intro hlt
      constructor
      . intro hk
        have := hended _ hk (by omega)
        omega
      . intro hk
        have := hended _ hk (by omega)
        omega
    . rintro ⟨hfirst, hsecond⟩
      have hsegment := h.segment_lt
      rcases hbegun with heq | hk
      . omega
      . have hne : s.pen.segment ≠ e - 1 := fun heq => hfirst (heq ▸ hk)
        have hne' : s.pen.segment ≠ e := fun heq => hsecond (heq ▸ hk)
        omega
  | keyword hstar hstate hq hkeyword hwords =>
    -- The star would be the sign of the keyword or a character of its word.
    have hlt := h.segment_lt
    rcases Nat.eq_or_lt_of_le (show s.pen.segment ≤ e by omega) with heq | hlt'
    . have hsign := hkeyword.sign
      rw [heq, is_of_is (by decide) hend.terminates.star] at hsign
      cases hsign
    . rw [hwords e hlt' (by omega)] at hword
      cases hword

theorem Inside.ne_of_terminator (hend : FirstTerminator doc q e) (hpos : s.pos = e + 1) :
    s.state ≠ Style.default ∧ s.state ≠ Style.word := by
  rcases (h.at_terminator hend hpos).1 with hstate | hstate
  . rw [hstate]
    decide
  . rw [hstate]
    decide

theorem Inside.slash_of_terminator (hend : FirstTerminator doc q e) (hpos : s.pos = e + 1) : s.cur.is '/' = true := by
  rw [Scan.cur, codeAt_sameSource h.source, hpos]
  exact hend.terminates.slash

theorem Inside.leave_of_terminator (hend : FirstTerminator doc q e) (hpos : s.pos = e + 1) :
    s.leave settings = s.leaveComment settings.span := by
  have hslash := h.slash_of_terminator hend hpos
  have hprev : s.prev.is '*' = true := by
    rw [h.prev, hpos]
    exact hend.terminates.star
  rcases (h.at_terminator hend hpos).1 with hstate | hstate
  . rw [leave_of_comment hstate, hslash, hprev]
    rfl
  . rw [leave_of_commentDoc hstate, hslash, hprev]
    rfl

/--
A comment with two bytes behind the start of its segment is over with the slash of the first terminator. The slash starts
the next one if a star follows.
-/
theorem Inside.step_of_closes (hspan : settings.span.style = Style.default) (hsingle : ∀ b, doc.encoding.isLeadByte b = false)
    (hdoc : doc.WellFormed) (hend : FirstTerminator doc q e) (hpos : s.pos = e + 1) (hsize : e + 1 < doc.size)
    (hclose : s.pen.segment + 2 < s.pos) :
    (s.step settings).pos = e + 2 ∧ (s.step settings).Covers (e + 1)
      ∧ ((s.step settings).state = Style.default ↔ (codeAt doc (e + 2)).is '*' = false)
      ∧ ((s.step settings).state = Style.default ∨ (s.step settings).state = Style.comment
        ∨ (s.step settings).state = Style.commentDoc) := by
  have hne := h.ne_of_terminator hend hpos
  have hslash := h.slash_of_terminator hend hpos
  have hleave : s.leave settings = s.leaveComment settings.span := h.leave_of_terminator hend hpos
  have hstyle := h.isStreamComment
  have hsize' : s.pen.doc.size = doc.size := h.source.size
  generalize hclosed : s.close (s.pos + 1) Style.default = r
  have hrpen : r.pen = s.pen.colourTo (s.pos + 1) s.state := by rw [← hclosed]; rfl
  have hrpos : r.pos = s.pos := by rw [← hclosed]; rfl
  have hrdoc : s.doc.SameSource r.doc := by
    show s.pen.doc.SameSource r.pen.doc
    rw [hrpen]
    exact Cursor.sameSource_colourTo _ _ _
  have hturn : s.turn settings = r.enter := by
    have hleave' : s.leave settings = r := by
      rw [hleave, ← hclosed]
      exact if_pos ((closesComment_iff hspan hne.1).mpr hclose)
    rw [turn_of_token rfl hne, stepInToken_of_eq (by rw [hleave', ← hclosed]; rfl), hleave']
  have hslash' : r.cur.is '/' = true := by
    rw [Scan.cur, codeAt_sameSource hrdoc, hrpos]
    exact hslash
  obtain ⟨henter, honward, hdefault, hcases⟩ := enter_of_slash hslash'
  rw [Scan.next, codeAt_sameSource (h.source.trans hrdoc), hrpos, hpos] at hdefault
  have hpainted : e + 1 < r.pen.segment ∧ Sql.isStreamComment (r.pen.doc.styleAt (e + 1)) = true := by
    rw [hrpen]
    exact covered_colourTo (h.source.wellFormed hdoc) (by omega) (by omega) (by omega) hstyle
  rw [step_eq (h.singleByte hsingle), hturn]
  refine ⟨by show r.enter.pos + 1 = e + 2; omega, .inl ⟨Nat.lt_of_lt_of_le hpainted.1 honward.segment_le, ?_⟩, hdefault, hcases⟩
  show Sql.isStreamComment (r.enter.pen.doc.styleAt (e + 1)) = true
  rw [styleAt_of_onward honward hpainted.1]
  exact hpainted.2

/--
What the slash of the first terminator comes to. All bytes up to it are settled. The comment is over unless a keyword
has ended right in front, and the slash starts the next one if a star follows.
-/
theorem Inside.step_terminator (hspan : settings.span.style = Style.default) (hsingle : ∀ b, doc.encoding.isLeadByte b = false)
    (hdoc : doc.WellFormed) (hend : FirstTerminator doc q e) (hpos : s.pos = e + 1) (hsize : e + 1 < doc.size) :
    (s.step settings).pos = e + 2 ∧ (s.step settings).Covers (e + 1)
      ∧ ((s.step settings).state = Style.default
        ↔ ¬ KeywordEnds doc q (e - 1) ∧ ¬ KeywordEnds doc q e ∧ (codeAt doc (e + 2)).is '*' = false)
      ∧ ((s.step settings).state = Style.default ∨ (s.step settings).state = Style.comment
        ∨ (s.step settings).state = Style.commentDoc) := by
  have hsegment := h.segment_lt
  have hne := h.ne_of_terminator hend hpos
  obtain ⟨hstate, hiff⟩ := h.at_terminator hend hpos
  by_cases hclose : s.pen.segment + 2 < s.pos
  . obtain ⟨hfirst, hsecond⟩ := hiff.mp hclose
    obtain ⟨hstep, hcovers, hdefault, hcases⟩ := h.step_of_closes hspan hsingle hdoc hend hpos hsize hclose
    exact ⟨hstep, hcovers, hdefault.trans ⟨fun hstar => ⟨hfirst, hsecond, hstar⟩, fun hall => hall.2.2⟩, hcases⟩
  . have hstay : s.leave settings = s := by
      rw [h.leave_of_terminator hend hpos]
      exact leave_of_not_closes fun hc => hclose ((closesComment_iff hspan hne.1).mp hc)
    rw [stay_of_leave (h.singleByte hsingle) hne hstay]
    refine ⟨by show s.pos + 1 = e + 2; omega, .inr ⟨?_, ?_, h.isStreamComment⟩, ?_, .inr hstate⟩
    . show s.pen.segment ≤ e + 1
      omega
    . show e + 1 < s.pos + 1
      omega
    . constructor
      . intro hdefault
        exact absurd hdefault hne.1
      . rintro ⟨hfirst, hsecond, _⟩
        exact absurd (hiff.mpr ⟨hfirst, hsecond⟩) hclose

end Ends

/--
The place at which a scan is between two tokens: a word ends in front of the next byte, and a string ends with it.
-/
inductive Between (s : Scan) : Nat → Prop where
  | default : s.state = Style.default → s.Between s.pos
  | word : s.state = Style.word → isWord s.cur = false → s.Between s.pos
  | string : s.state = Style.string → s.cur = Code.quote → s.next ≠ Code.quote → s.Between (s.pos + 1)
  | character : s.state = Style.character → s.cur = Code.apostrophe → s.next ≠ Code.apostrophe → s.Between (s.pos + 1)

section Opens

/--
A scan right behind the slash that opens a comment is in the comment.
-/
theorem inside_of_opens (hsource : doc.SameSource s.doc) (hpos : s.pos = q + 1) (hprev : s.prev = codeAt doc q)
    (hsegment : s.pen.segment = q)
    (hstate : s.state = if (codeAt doc (q + 2)).is '*' then Style.commentDoc else Style.comment) : s.Inside doc q := by
  refine ⟨hsource, by omega, by rw [hprev, hpos, Nat.add_sub_cancel], by omega, by omega, ?_⟩
  cases hstar : (codeAt doc (q + 2)).is '*' with
  | false =>
    rw [hstar] at hstate
    exact .comment hstar hstate hsegment
  | true =>
    rw [hstar] at hstate
    refine .commentDoc hstar hstate (.inl hsegment) ?_ ?_
    . intro a ha hlt
      omega
    . intro k hk hlt
      obtain ⟨a, ha, hak, _⟩ := hk.keyword
      omega

/--
A stream comment that opens right behind a token.
-/
theorem inside_of_enter (hsource : doc.SameSource s.doc) (hpos : s.pos = q) (hsegment : s.pen.segment = q)
    (hslash : (codeAt doc q).is '/' = true) (hstar : (codeAt doc (q + 1)).is '*' = true) :
    ({ s.enter with pos := s.enter.pos + 1, prev := s.enter.cur } : Scan).Inside doc q := by
  have hcode (i : Nat) : codeAt s.doc i = codeAt doc i := codeAt_sameSource hsource i
  have hstart : s.starting? false = some (if (codeAt doc (q + 2)).is '*' then Style.commentDoc else Style.comment) := by
    rw [starting?_of_slash (by rw [Scan.cur, hcode, hpos]; exact hslash), Scan.next, hcode, hpos, hstar, if_pos rfl, hcode]
  have henter : s.enter = { s with state := if (codeAt doc (q + 2)).is '*' then Style.commentDoc else Style.comment } := by
    rw [enter, hstart]
  rw [henter]
  refine inside_of_opens hsource (by show s.pos + 1 = q + 1; rw [hpos]) ?_ hsegment rfl
  show codeAt s.doc s.pos = codeAt doc q
  rw [hcode, hpos]

/--
A string that ends with its quote.
-/
theorem leaveString_of_end {quote : Code} (hcur : s.cur = quote) (hnext : s.next ≠ quote) :
    s.leaveString quote = { s with pen := s.pen.colourTo (s.pos + 1) s.state, state := Style.default, pos := s.pos + 1 } := by
  rw [leaveString, if_pos (beq_iff_eq.mpr hcur), if_neg (by rwa [beq_iff_eq])]
  rfl

/--
Between two tokens, the two bytes that open a stream comment do so.
-/
theorem Between.opens (h : s.Between q) (hsource : doc.SameSource s.doc) (hsingle : s.SingleByte) (hsegment : s.pen.segment ≤ s.pos)
    (hslash : (codeAt doc q).is '/' = true) (hstar : (codeAt doc (q + 1)).is '*' = true) (hsize : q < doc.size) :
    (s.step settings).Inside doc q ∧ (s.step settings).pos = q + 1 := by
  have hcode (i : Nat) : codeAt s.doc i = codeAt doc i := codeAt_sameSource hsource i
  have hsize' : s.pen.doc.size = doc.size := hsource.size
  have hcoloured (style : Highlight.Style) : doc.SameSource (s.pen.colourTo q style).doc :=
    hsource.trans (Cursor.sameSource_colourTo _ _ _)
  have hpen (style : Highlight.Style) (hle : s.pos ≤ q) : (s.pen.colourTo q style).segment = q := by
    rw [Pen.segment_colourTo]
    omega
  have hleft (style state : Highlight.Style) (hle : s.pos ≤ q)
      (hturn : s.turn settings = ({ s with pen := s.pen.colourTo q style, state, pos := q } : Scan).enter) :
      (s.step settings).Inside doc q ∧ (s.step settings).pos = q + 1 := by
    rw [step_eq hsingle, hturn]
    refine ⟨inside_of_enter (hcoloured style) rfl (hpen style hle) hslash hstar, ?_⟩
    exact congrArg (· + 1) (enters_enter _).pos
  have hstring {quote : Code} (hne : s.state ≠ Style.default ∧ s.state ≠ Style.word) (hq : q = s.pos + 1)
      (hleave : s.leave settings = s.leaveString quote) (hcur : s.cur = quote) (hnext : s.next ≠ quote) :
      s.turn settings = ({ s with pen := s.pen.colourTo q s.state, state := Style.default, pos := q } : Scan).enter := by
    rw [leaveString_of_end hcur hnext] at hleave
    rw [turn_of_token rfl hne, stepInToken_of_eq (by rw [hleave]), hleave, hq]
  cases h with
  | default hstate =>
    have hstart : s.starting? true = some (if (codeAt doc (s.pos + 2)).is '*' then Style.commentDoc else Style.comment) := by
      rw [starting?_of_slash (by rwa [Scan.cur, hcode]), Scan.next, hcode, hstar, if_pos rfl, hcode]
    have hturn : s.turn settings
        = s.close s.pos (if (codeAt doc (s.pos + 2)).is '*' then Style.commentDoc else Style.comment) := by
      rw [turn_of_default hstate, stepBetween, hstart]
    rw [step_eq hsingle, hturn]
    refine ⟨inside_of_opens (hcoloured s.state) rfl ?_ (hpen s.state (Nat.le_refl _)) rfl, rfl⟩
    exact codeAt_sameSource (hcoloured s.state) s.pos
  | word hstate hword =>
    refine hleft (wordStyle settings.keywords (codeAt s.doc s.pen.segment) (s.token 80)) s.state (Nat.le_refl _) ?_
    rw [turn_of_word hstate, stepInWord, if_neg (by rw [hword]; decide)]
  | string hstate hcur hnext =>
    have hne : s.state ≠ Style.default ∧ s.state ≠ Style.word := by
      rw [hstate]
      decide
    exact hleft _ _ (Nat.le_succ _) (hstring hne rfl (leave_of_string hstate) hcur hnext)
  | character hstate hcur hnext =>
    have hne : s.state ≠ Style.default ∧ s.state ≠ Style.word := by
      rw [hstate]
      decide
    refine hleft _ _ (Nat.le_succ _) (hstring hne rfl ?_ hcur hnext)
    rw [leave_of_character hstate, hcur, show (Code.apostrophe == Code.backslash) = false from rfl, Bool.and_false]
    rfl

end Opens

end Scan

section Run

variable {keywords : Keywords} {s t : Scan}

theorem Run.inside (keywords : Keywords) (hsingle : ∀ b, doc.encoding.isLeadByte b = false) (h : s.Inside doc q) {p : Nat}
    (hle : s.pos ≤ p) (hp : p ≤ doc.size) (hgo : ∀ e, q + 2 ≤ e → e + 1 < p → ¬ Terminates doc e) :
    ∃ t, Run keywords doc 0 doc.size s t ∧ t.Inside doc q ∧ t.pos = p := by
  induction hk : p - s.pos generalizing s with
  | zero => exact ⟨s, .refl s, h, by omega⟩
  | succ k ih =>
    obtain ⟨hnext, hpos⟩ : (stepFrom keywords doc 0 s).Inside doc q ∧ (stepFrom keywords doc 0 s).pos = s.pos + 1 :=
      h.step rfl (h.singleByte hsingle) (by omega) (fun e hle' heq => hgo e hle' (by omega))
    obtain ⟨t, hrun, ht⟩ := ih hnext (by omega) (by omega)
    exact ⟨t, .head (decide_eq_true (by omega)) hrun, ht⟩

/--
What is settled in a pass, it leaves.
-/
theorem Run.isStreamComment_pass (hdoc : doc.WellFormed) (hsingle : ∀ b, doc.encoding.isLeadByte b = false)
    (hrun : Run keywords doc 0 doc.size (.begin doc 0) s) {i : Nat} (hsize : i < doc.size) (hcovers : s.Covers i) :
    isStreamComment ((pass keywords doc 0 doc.size).styleAt i) = true := by
  obtain ⟨u, hrun', hend, heq⟩ := exists_run keywords doc 0 doc.size
  have hrest : Run keywords doc 0 doc.size s u := hrun.rest hrun' (decide_eq_false (by omega))
  have hsource : doc.SameSource s.doc := (Run.onward hrun).sameSource
  -- A step keeps what is settled, and the last token is coloured up to the end of the text.
  have hcovers' : u.Covers i ∧ doc.SameSource u.doc := by
    refine hrest.invariant (fun u => u.Covers i ∧ doc.SameSource u.doc) ?_ ⟨hcovers, hsource⟩
    intro u _ ⟨hu, hsame⟩
    have hsingle' : u.SingleByte := by
      intro b
      rw [hsame.encoding]
      exact hsingle b
    refine ⟨Scan.covers_step hsingle' (hsame.wellFormed hdoc) (by rwa [hsame.size]) hu, ?_⟩
    exact hsame.trans (Scan.onward_step u _).sameSource
  obtain ⟨hu, hsame⟩ := hcovers'
  have hsize' : u.pen.doc.size = doc.size := hsame.size
  rw [heq]
  rcases hu with ⟨hlt, hstyle⟩ | ⟨hle, _, hstyle⟩
  . rw [Scan.styleAt_of_onward (.colourTo _ _ _) hlt]
    exact hstyle
  . exact (Scan.covered_colourTo (hsame.wellFormed hdoc) hle hsize (by omega) hstyle).2

end Run

theorem lt_size_of_is {pos : Nat} {x : Char} (hx : Code.is Code.blank x = false) (h : (codeAt doc pos).is x = true) :
    pos < doc.size := by
  apply Nat.lt_of_not_le
  intro hle
  have hnone : doc.text[pos]? = none := Array.getElem?_eq_none hle
  have hblank : codeAt doc pos = Code.blank := by
    rw [codeAt, Document.byteAt, hnone]
    rfl
  rw [hblank, hx] at h
  cases h

theorem colour_eq_pass_whole (hdoc : doc.WellFormed) (keywords : Keywords) (hsize : 0 < doc.size) :
    colour keywords ⟨0, doc.size, Style.default⟩ doc = pass keywords doc 0 doc.size :=
  colour_eq_pass (Nat.zero_le _) (hdoc.wholeLines_spanOf startsLine_zero hsize (.inr rfl)) keywords

/--
Where the two bytes that open a stream comment stand between two tokens, all bytes up to the first terminator get a style of
such a comment, and so do all bytes up to the end of the text if there is no terminator. Behind the terminator, the scan is
between tokens again, except where a documentation keyword ends right in front of the star or one byte before that, and
except where the slash and a star behind it open the next comment; then a stream comment goes on.
-/
theorem colour_stream_comment (keywords : Keywords) (hdoc : doc.WellFormed) (hsingle : ∀ b, doc.encoding.isLeadByte b = false)
    {s : Scan} (hrun : Run keywords doc 0 doc.size (.begin doc 0) s) (hbetween : s.Between q)
    (hslash : (codeAt doc q).is '/' = true) (hstar : (codeAt doc (q + 1)).is '*' = true) :
    let styled := colour keywords ⟨0, doc.size, Style.default⟩ doc
    (∀ e, FirstTerminator doc q e →
      (∀ i, q ≤ i → i < e + 2 → isStreamComment (styled.styleAt i) = true)
        ∧ ∃ t, Run keywords doc 0 doc.size s t ∧ t.pos = e + 2
          ∧ (t.state = Style.default
            ↔ ¬ KeywordEnds doc q (e - 1) ∧ ¬ KeywordEnds doc q e ∧ (codeAt doc (e + 2)).is '*' = false)
          ∧ (t.state = Style.default ∨ t.state = Style.comment ∨ t.state = Style.commentDoc))
      ∧ ((∀ e, q + 2 ≤ e → ¬ Terminates doc e) →
        ∀ i, q ≤ i → i < doc.size → isStreamComment (styled.styleAt i) = true) := by
  intro styled
  have hsize : q < doc.size := lt_size_of_is rfl hslash
  have hstyled : styled = pass keywords doc 0 doc.size := colour_eq_pass_whole hdoc keywords (Nat.zero_lt_of_lt hsize)
  have hsource : doc.SameSource s.doc := (Run.onward hrun).sameSource
  have hsingle' : s.SingleByte := by
    intro b
    rw [hsource.encoding]
    exact hsingle b
  have hpos : s.pos < doc.size := by
    cases hbetween <;> omega
  obtain ⟨hopened, hat⟩ : (stepFrom keywords doc 0 s).Inside doc q ∧ (stepFrom keywords doc 0 s).pos = q + 1 :=
    hbetween.opens hsource hsingle' (hrun.segment_le (Nat.le_refl 0)) hslash hstar hsize
  have hopen : Run keywords doc 0 doc.size s (stepFrom keywords doc 0 s) := .head (decide_eq_true hpos) (.refl _)
  -- As long as the comment has not ended, it settles each byte that it comes by.
  have hinside (p : Nat) (hle : q + 1 ≤ p) (hp : p ≤ doc.size) (hgo : ∀ e, q + 2 ≤ e → e + 1 < p → ¬ Terminates doc e) :
      ∃ t, Run keywords doc 0 doc.size s t ∧ t.Inside doc q ∧ t.pos = p := by
    obtain ⟨t, hrun', ht⟩ := Run.inside keywords hsingle hopened (by omega) hp hgo
    exact ⟨t, hopen.trans hrun', ht⟩
  have hsettled {t : Scan} {i : Nat} (hrun' : Run keywords doc 0 doc.size s t) (hi : i < doc.size) (hcovers : t.Covers i) :
      isStreamComment (styled.styleAt i) = true := by
    rw [hstyled]
    exact Run.isStreamComment_pass hdoc hsingle (hrun.trans hrun') hi hcovers
  have hbyte (i : Nat) (hle : q ≤ i) (hi : i < doc.size) (hgo : ∀ e, q + 2 ≤ e → e + 1 < i + 1 → ¬ Terminates doc e) :
      isStreamComment (styled.styleAt i) = true := by
    obtain ⟨t, hrun', ht, hpos'⟩ := hinside (i + 1) (by omega) hi hgo
    have hsegment := ht.segment_lt
    exact hsettled hrun' hi (.inr ⟨by omega, by omega, ht.isStreamComment⟩)
  constructor
  . intro e hend
    have hlast : e + 1 < doc.size := lt_size_of_is rfl hend.terminates.slash
    obtain ⟨u, hrun', hu, hpos'⟩ := hinside (e + 1) (by have := hend.le; omega) (by omega)
      (fun e' hle hlt => hend.first e' hle (by omega))
    obtain ⟨hnext, hcovers, hdefault, hcases⟩ :=
      @Scan.Inside.step_terminator _ _ _ _ (.read keywords doc.options (doc.spanOf 0 0)) hu rfl hsingle hdoc hend hpos' hlast
    have hrun'' : Run keywords doc 0 doc.size s (stepFrom keywords doc 0 u) := hrun'.tail (decide_eq_true (by omega))
    refine ⟨?_, _, hrun'', hnext, hdefault, hcases⟩
    intro i hle hlt
    rcases Nat.eq_or_lt_of_le (Nat.le_of_lt_succ hlt) with rfl | hlt'
    . exact hsettled hrun'' hlast hcovers
    . exact hbyte i hle (by omega) (fun e' hle' hlt'' => hend.first e' hle' (by omega))
  . intro hnone i hle hi
    exact hbyte i hle hi (fun e hle' _ => hnone e hle')

/--
A comment behind a word.
-/
theorem colour_stream_comment_behind_word :
    let doc := Document.fresh "a/*b*/c".toUTF8.data .singleByte .empty
    let styled := colour #[] ⟨0, 7, Style.default⟩ doc
    (∀ i, 1 ≤ i → i < 6 → isStreamComment (styled.styleAt i) = true)
      ∧ ∃ s t, Run #[] doc 0 7 (.begin doc 0) s ∧ s.Between 1 ∧ Run #[] doc 0 7 s t ∧ t.pos = 6 ∧ t.state = Style.default := by
  intro doc styled
  have hdoc : doc.WellFormed := Document.wellFormed_fresh _ .singleByte .empty
  have hrun : Run #[] doc 0 7 (.begin doc 0) (stepFrom #[] doc 0 (.begin doc 0)) := .head rfl (.refl _)
  have hbetween : (stepFrom #[] doc 0 (.begin doc 0)).Between 1 := .word (by decide +kernel) (by decide +kernel)
  have hend : FirstTerminator doc 1 4 := by
    refine ⟨by decide, ⟨by decide +kernel, by decide +kernel⟩, ?_⟩
    intro e hle hlt hends
    obtain rfl : e = 3 := by omega
    exact absurd hends.star (by decide +kernel)
  have hfree (k : Nat) : ¬ KeywordEnds doc 1 k := fun hk => absurd hk.star (by decide +kernel)
  obtain ⟨hstyles, t, hrun', hpos, hdefault, _⟩ := (colour_stream_comment #[] hdoc (fun _ => rfl) hrun hbetween (by decide +kernel)
    (by decide +kernel)).1 4 hend
  exact ⟨hstyles, _, t, hrun, hbetween, hrun', hpos, hdefault.mpr ⟨hfree 3, hfree 4, by decide +kernel⟩⟩

/--
Two comments that go on behind their first terminators: one with a documentation keyword in front of the blank in front of
the star, and one with a star behind the slash.
-/
theorem stream_comment_goes_on :
    let keyword := Document.fresh "/** @a */x".toUTF8.data .singleByte .empty
    let slash := Document.fresh "/* a */*b".toUTF8.data .singleByte .empty
    (FirstTerminator keyword 0 7
      ∧ (∃ t, Run #[] keyword 0 10 (.begin keyword 0) t ∧ t.pos = 9 ∧ t.state = Style.commentDoc)
      ∧ (colour #[] ⟨0, 10, Style.default⟩ keyword).styleAt 9 = Style.commentDoc)
    ∧ FirstTerminator slash 0 5
      ∧ (∃ t, Run #[] slash 0 9 (.begin slash 0) t ∧ t.pos = 7 ∧ t.state = Style.comment)
      ∧ (colour #[] ⟨0, 9, Style.default⟩ slash).styleAt 8 = Style.comment := by
  intro keyword slash
  have hfirst (doc : Document) (e : Nat) (hends : Terminates doc e) (hle : 2 ≤ e)
      (hnone : ∀ i < e, 2 ≤ i → (codeAt doc i).is '*' = false ∨ (codeAt doc (i + 1)).is '/' = false) : FirstTerminator doc 0 e := by
    refine ⟨hle, hends, ?_⟩
    intro i hi hlt hends'
    rcases hnone i hlt hi with hstar | hslash
    . exact absurd hends'.star (by simp [hstar])
    . exact absurd hends'.slash (by simp [hslash])
  have hreach (doc : Document) (pos stop : Nat) (hle : pos ≤ stop) : Run #[] doc 0 stop (.begin doc 0)
      (repeatWhile (fun s : Scan => decide (s.pos < pos)) (stepFrom #[] doc 0) pos (.begin doc 0)) :=
    Run.mono (iterates_repeatWhile _ _ _ _) hle
  refine ⟨⟨hfirst keyword 7 ⟨by decide +kernel, by decide +kernel⟩ (by decide) (by decide +kernel), ⟨_, hreach keyword 9 10 (by decide), ?_⟩,
    by decide +kernel⟩, hfirst slash 5 ⟨by decide +kernel, by decide +kernel⟩ (by decide) (by decide +kernel),
    ⟨_, hreach slash 7 9 (by decide), ?_⟩, by decide +kernel⟩
  . decide +kernel
  . decide +kernel

end Highlight.Sql
