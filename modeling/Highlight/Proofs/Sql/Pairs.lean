import Highlight.Proofs.Cursor.Boundary
import Highlight.Proofs.Sql.LineComment

/-!
The two bytes of a character of SQL have one style, unless a string ends in front of such a character: a scan takes the byte behind the
quote along.
-/

namespace Highlight.Sql

open LineIndex

variable {keywords : Keywords} {doc : Document} {kind : Style → Bool} {page : CodePage} {start p line count : Nat} {s : Scan}
  {settings : Settings}

namespace Scan

/--
The current byte is the quote that the open string starts with.
-/
def AtQuote (s : Scan) : Prop :=
  s.state = Style.string ∧ s.cur = Code.quote ∨ s.state = Style.character ∧ s.cur = Code.apostrophe

theorem le_cur_of_atLead (h : s.atLead = true) : 0x81 ≤ (s.cur : Nat) :=
  s.doc.encoding.le_toNat_of_isLeadByte h

theorem isInner_of_le {c : Nat} (hc : 0x81 ≤ c) : Code.isInner c = false := by
  rw [Bool.eq_false_iff]
  intro hinner
  have hascii := (Code.isInner_iff.mp hinner).1
  omega

theorem is_of_le {c : Nat} (hc : 0x81 ≤ c) {x : Char} (hx : Code.isInner x.toNat = true) : Code.is c x = false := by
  rw [Bool.eq_false_iff]
  intro heq
  have hinner := Code.isInner_of_is hx heq
  rw [isInner_of_le hc] at hinner
  cases hinner

theorem toLower_of_le {c : Nat} (hc : 0x81 ≤ c) : Code.toLower c = c := by
  have hupper : Code.isUpper c = false := by
    rw [Bool.eq_false_iff]
    intro hupper
    have hinner := Code.isInner_of_isUpper hupper
    rw [isInner_of_le hc] at hinner
    cases hinner
  rw [Code.toLower, hupper]
  rfl

/--
No token starts with a lead byte.
-/
theorem starting?_of_atLead (h : s.atLead = true) : s.starting? false = none := by
  have hcur := le_cur_of_atLead h
  have hline : s.startingLine? = none := by
    have hno {pattern : String} {first : Nat} {rest : List Code} (hpattern : (Utf8.encode pattern).map UInt8.toNat = first :: rest)
        (hfirst : first < 0x81) : abbreviatedAt s.doc s.pos pattern = false := by
      rw [Bool.eq_false_iff]
      intro hword
      have hlower : s.cur.toLower = first := beq_iff_eq.mp (abbreviatedAt_first hpattern hword)
      rw [toLower_of_le hcur] at hlower
      rw [hlower] at hcur
      exact Nat.not_le_of_lt hfirst hcur
    rw [startingLine?, hno (show _ = 0x72 :: _ by rfl) (by decide), hno (show _ = 0x70 :: _ by rfl) (by decide)]
    rfl
  have hcomment : s.startingComment? = none := by
    rw [startingComment?, is_of_le hcur (by decide), is_of_le hcur (by decide), is_of_le hcur (by decide)]
    rfl
  have hne {c : Nat} (hc : c < 0x81) : (s.cur == c) = false := by
    rw [beq_eq_false_iff_ne]
    intro heq
    rw [heq] at hcur
    exact Nat.not_le_of_lt hc hcur
  have hstring : s.startingString? = none := by
    rw [startingString?, hne (by decide), hne (by decide)]
    rfl
  have hword : s.startingWord? = none := by
    have hletter : s.cur.isAlphanumeric = false := by
      rw [Bool.eq_false_iff]
      intro hletter
      have hinner := Code.isInner_of_isAlphanumeric hletter
      rw [isInner_of_le hcur] at hinner
      cases hinner
    rw [startingWord?, isWordStart, hletter, is_of_le hcur (by decide)]
    rfl
  rw [starting?, hcomment, hline, hstring, hword]
  rfl

theorem enter_of_atLead (h : s.atLead = true) : s.enter = { s with state := Style.default } := by
  have hoperator : s.cur.isOperator = false := by
    rw [Bool.eq_false_iff]
    intro hoperator
    have hinner := Code.isInner_of_isOneOf (by decide) hoperator
    rw [isInner_of_le (le_cur_of_atLead h)] at hinner
    cases hinner
  rw [enter, starting?_of_atLead h, operator, hoperator]
  rfl

/--
The bytes of a string get one style.
-/
theorem together_of_string (hstate : s.state = Style.string ∨ s.state = Style.character) (hdoc : s.doc.WellFormed)
    (hsegment : s.pen.segment ≤ start) (hsize : s.pos < s.doc.size) (settings : Settings) :
    (s.step settings).Together kind (kind s.state) start (s.pos + 1) := by
  have hne {style : Highlight.Style} (hstyle : style ≠ Style.string ∧ style ≠ Style.character) : s.state ≠ style := by
    rintro rfl
    exact hstate.elim hstyle.1 hstyle.2
  cases hlead : s.atLead with
  | true =>
    rw [step_of_lead hlead]
    exact .opened hsegment (Nat.le_succ _) rfl
  | false =>
    rw [step_of_turn hlead]
    generalize s.turn settings = t, s.turn_spec settings = hturn
    cases hturn with
    | stay _ => exact .opened hsegment (Nat.le_refl _) rfl
    | skip _ _ => exact .opened hsegment (Nat.le_succ _) rfl
    | start _ hdefault _ => exact absurd hdefault (hne (by decide))
    | operator hdefault _ => exact absurd hdefault (hne (by decide))
    | keyword hcomment _ => exact absurd hcomment (hne (by decide))
    | keywordEnd _ hkeyword _ => exact absurd hkeyword (hne (by decide))
    | leave stop style pos hleaves henters =>
      cases hleaves with
      | word _ hword => exact absurd hword (hne (by decide))
      | line hline =>
        rcases hstate with hstate | hstate
        . rw [hstate] at hline
          cases hline
        . rw [hstate] at hline
          cases hline
      | keyword hkeyword => exact absurd hkeyword (hne (by decide))
      | comment hcomment _ => exact hcomment.elim (absurd · (hne (by decide))) (absurd · (hne (by decide)))
      | string _ _ =>
        have hreach : s.pos + 1 ≤ (s.pen.colourTo (s.pos + 1) s.state).segment := by
          have : s.pos < s.pen.doc.size := hsize
          rw [Pen.segment_colourTo]
          omega
        refine .painted s.state (Nat.le_trans hreach henters.onward.segment_le) rfl ?_
        intro i hle hlt
        have hbyte := styleAt_of_onward henters.onward (show i < (s.pen.colourTo (s.pos + 1) s.state).segment by omega)
        exact hbyte.trans (together_colourTo hdoc hsegment (Nat.le_refl _) hsize i hle hlt)

/--
A step takes one byte, except that it takes the byte behind a quote along, and in a string with apostrophes the byte behind a backslash.
-/
theorem step_of_not_atQuote (hlead : s.atLead = false) (hquote : ¬ s.AtQuote) (settings : Settings) :
    (s.step settings).pos = s.pos + 1
      ∨ s.state = Style.character ∧ s.step settings = { s with pos := s.pos + 2, prev := s.next } := by
  have hone (hpos : (s.turn settings).pos = s.pos) : (s.step settings).pos = s.pos + 1 := by
    rw [step_of_turn hlead]
    exact congrArg (· + 1) hpos
  by_cases hstring : s.state = Style.string
  . left
    have hleave : s.leave settings = s := by
      rw [leave_of_string hstring, leaveString, if_neg (by rw [beq_iff_eq]; exact fun hcur => hquote (.inl ⟨hstring, hcur⟩))]
    apply hone
    rw [turn_of_token hstring (by decide), stepInToken_of_ne (by rw [hleave, hstring]; decide), hleave]
  . by_cases hcharacter : s.state = Style.character
    . have hnot : s.leaveString Code.apostrophe = s := by
        rw [leaveString, if_neg (by rw [beq_iff_eq]; exact fun hcur => hquote (.inr ⟨hcharacter, hcur⟩))]
      have hleave := @leave_of_character _ settings hcharacter
      rw [hnot] at hleave
      have hturn : s.turn settings = s.leave settings := by
        rw [turn_of_token hcharacter (by decide), stepInToken_of_ne]
        rw [hleave]
        split
        . exact fun h => absurd (hcharacter.symm.trans h) (by decide)
        . exact fun h => absurd (hcharacter.symm.trans h) (by decide)
      split at hleave
      . refine .inr ⟨hcharacter, ?_⟩
        rw [step_of_turn hlead, hturn, hleave]
        rfl
      . exact .inl (hone (by rw [hturn, hleave]))
    . left
      apply hone
      generalize s.turn settings = t, s.turn_spec settings = hturn
      cases hturn with
      | stay _ => rfl
      | skip hstate _ => exact absurd hstate (not_or.mpr ⟨hstring, hcharacter⟩)
      | start _ _ _ => rfl
      | operator _ _ => rfl
      | keyword _ _ => rfl
      | keywordEnd _ _ _ => rfl
      | leave _ _ _ hleaves henters =>
        rw [henters.pos]
        cases hleaves with
        | word _ _ => rfl
        | line _ => rfl
        | keyword _ => rfl
        | comment _ _ => rfl
        | string hstate _ => exact absurd hstate (not_or.mpr ⟨hstring, hcharacter⟩)

/--
A string that ends in front of a lead byte: the lead byte is gone by, and no token is open.
-/
theorem step_of_atQuote (hquote : s.AtQuote) (hlead : s.doc.encoding.isLeadByte (s.doc.byteAt (s.pos + 1) 0x20) = true)
    (settings : Settings) :
    (s.step settings).pos = s.pos + 2 ∧ (s.step settings).state = Style.default
      ∧ (s.step settings).pen = s.pen.colourTo (s.pos + 1) s.state := by
  have hnot : s.atLead = false := by
    rw [Bool.eq_false_iff]
    intro hlead
    have hcur := le_cur_of_atLead hlead
    rcases hquote with ⟨_, hquote⟩ | ⟨_, hquote⟩
    . rw [hquote] at hcur
      exact absurd hcur (by decide)
    . rw [hquote] at hcur
      exact absurd hcur (by decide)
  have hnext {quote : Nat} (hascii : quote < 0x81) : s.next ≠ quote := by
    intro hnext
    have hle : 0x81 ≤ (s.next : Nat) := s.doc.encoding.le_toNat_of_isLeadByte hlead
    rw [hnext] at hle
    exact Nat.not_le_of_lt hascii hle
  have hleave : s.leave settings = { s with pen := s.pen.colourTo (s.pos + 1) s.state, state := Style.default, pos := s.pos + 1 } := by
    rcases hquote with ⟨hstate, hcur⟩ | ⟨hstate, hcur⟩
    . rw [leave_of_string hstate, leaveString_of_end hcur (hnext (by decide))]
    . rw [leave_of_character hstate, hcur, show (Code.apostrophe == Code.backslash) = false from rfl, Bool.and_false,
        if_neg Bool.false_ne_true, leaveString_of_end hcur (hnext (by decide))]
  have hlead' : ({ s with pen := s.pen.colourTo (s.pos + 1) s.state, state := Style.default, pos := s.pos + 1 } : Scan).atLead = true := by
    have hsame := Cursor.sameSource_colourTo s.pen (s.pos + 1) s.state
    rw [atLead, doc, Document.byteAt, hsame.encoding, hsame.text]
    exact hlead
  have hturn : s.turn settings = { s with pen := s.pen.colourTo (s.pos + 1) s.state, state := Style.default, pos := s.pos + 1 } := by
    have hstate : s.state ≠ Style.default ∧ s.state ≠ Style.word := by
      rcases hquote with ⟨hstate, _⟩ | ⟨hstate, _⟩
      . rw [hstate]
        decide
      . rw [hstate]
        decide
    rw [turn_of_token rfl hstate, stepInToken_of_eq (by rw [hleave]), hleave, enter_of_atLead hlead']
  rw [step_of_turn hnot, hturn]
  exact ⟨rfl, rfl, rfl⟩

theorem ne_default_of_starting? {betweenTokens : Bool} {style : Highlight.Style} (h : s.starting? betweenTokens = some style) :
    style ≠ Style.default := by
  have hline (h : s.startingLine? = some style) : style ≠ Style.default := (ne_of_isLineStyle (startingLine?_spec h).2).1
  have hcomment (h : s.startingComment? = some style) : style ≠ Style.default := by
    rcases (startingComment?_spec h).2 with hstyle | ⟨rfl | rfl, _⟩
    . exact (ne_of_isLineStyle hstyle).1
    . decide
    . decide
  have hstring (h : s.startingString? = some style) : style ≠ Style.default := by
    rcases (startingString?_spec h).2 with rfl | rfl
    . decide
    . decide
  have hword (h : s.startingWord? = some style) : style ≠ Style.default := by
    rw [(startingWord?_spec h).2]
    decide
  unfold starting? at h
  split at h
  . rcases or_eq_some h with h | h
    . exact hline h
    . rcases or_eq_some h with h | h
      . exact hword h
      . exact (or_eq_some h).elim hcomment hstring
  . rcases or_eq_some h with h | h
    . exact hcomment h
    . rcases or_eq_some h with h | h
      . exact hline h
      . exact (or_eq_some h).elim hstring hword

/--
Between two tokens, the current byte gets no style of its own unless it starts a token or is an operator.
-/
theorem together_of_default (hstate : s.state = Style.default) (hdoc : s.doc.WellFormed) (hsegment : s.pen.segment ≤ s.pos)
    (hsize : s.pos < s.doc.size) (settings : Settings) :
    (s.step settings).Together (· == Style.default) (s.atLead || s.stepBetween == s) s.pos (s.pos + 1) := by
  have hsize : s.pos < s.pen.doc.size := hsize
  cases hlead : s.atLead with
  | true =>
    rw [step_of_lead hlead]
    exact .opened hsegment (Nat.le_succ _) (beq_iff_eq.mpr hstate)
  | false =>
    rw [step_of_turn hlead, turn_of_default hstate, Bool.false_or]
    have hpen : (s.pen.colourTo s.pos Style.default).segment = s.pos := by
      rw [Pen.segment_colourTo]
      omega
    cases hstart : s.starting? true with
    | some style =>
      have hclose : s.stepBetween = s.close s.pos style := by
        rw [stepBetween, hstart]
      have hne := ne_default_of_starting? hstart
      have hchange : (s.stepBetween == s) = false := by
        rw [hclose, beq_eq_false_iff_ne]
        intro heq
        exact hne ((congrArg Scan.state heq).trans hstate)
      rw [hchange, hclose]
      refine .opened (Nat.le_of_eq ?_) (Nat.le_refl _) (beq_eq_false_iff_ne.mpr hne)
      show (s.pen.colourTo s.pos s.state).segment = s.pos
      rw [hstate]
      exact hpen
    | none =>
      have hbetween : s.stepBetween = s.operator := by
        rw [stepBetween, hstart]
      rw [hbetween, operator]
      split
      . have hcoloured : ((s.pen.colourTo s.pos Style.default).colourTo (s.pos + 1) Style.operator).segment = s.pos + 1 := by
          rw [Pen.segment_colourTo, hpen, (Cursor.sameSource_colourTo s.pen s.pos Style.default).size]
          omega
        have hchange : ({ s with pen := (s.pen.colourTo s.pos Style.default).colourTo (s.pos + 1) Style.operator } == s) = false := by
          rw [beq_eq_false_iff_ne]
          intro heq
          have hsame := congrArg (·.pen.segment) heq
          dsimp only at hsame
          omega
        rw [hchange]
        refine .painted Style.operator (Nat.le_of_eq hcoloured.symm) rfl ?_
        have hsame := Cursor.sameSource_colourTo s.pen s.pos Style.default
        exact together_colourTo (hsame.wellFormed hdoc) (Nat.le_of_eq hpen) (Nat.le_refl _) (by rw [hsame.size]; exact hsize)
      . rw [beq_self_eq_true]
        exact .opened hsegment (Nat.le_refl _) (beq_iff_eq.mpr hstate)

end Scan

/--
A string ends in front of a lead byte.
-/
structure ClosesAtLead (keywords : Keywords) (doc : Document) (s : Scan) : Prop where
  visits : Visits keywords doc s
  quote : s.AtQuote
  lead : doc.encoding.isLeadByte (doc.byteAt (s.pos + 1) 0x20) = true

/--
A scan between two characters. In a string with apostrophes, a backslash takes the first byte of a character along.
-/
def Aligned (doc : Document) (s : Scan) : Prop :=
  CharBoundary doc.encoding doc.text s.pos ∨ s.state = Style.character

theorem exists_byteAt {pos : Nat} (hlt : pos < doc.size) : ∃ b, doc.text[pos]? = some b ∧ doc.byteAt pos 0x20 = b := by
  refine ⟨doc.text[pos], Array.getElem?_eq_getElem hlt, ?_⟩
  rw [Document.byteAt, Array.getElem?_eq_getElem hlt]
  rfl

theorem boundary_succ {pos : Nat} (hpage : doc.encoding = .doubleByte page) (hlt : pos < doc.size)
    (hlead : doc.encoding.isLeadByte (doc.byteAt pos 0x20) = false) : CharBoundary doc.encoding doc.text (pos + 1) := by
  obtain ⟨b, hb, hbyte⟩ := exists_byteAt hlt
  rw [hbyte, hpage] at hlead
  rw [hpage]
  exact .of_not_lead hb hlead

section Visits

variable (hvisits : Visits keywords doc s)
include hvisits

theorem Visits.atLead : s.atLead = doc.encoding.isLeadByte (doc.byteAt s.pos 0x20) := by
  rw [Scan.atLead, Document.byteAt, hvisits.sameSource.encoding, hvisits.sameSource.text]
  rfl

theorem Visits.aligned (hpage : doc.encoding = .doubleByte page) (h : Aligned doc s) (hclose : ¬ ClosesAtLead keywords doc s)
    (hsize : (stepFrom keywords doc 0 s).pos < doc.size) : Aligned doc (stepFrom keywords doc 0 s) := by
  have hlt := hvisits.2
  cases hlead : s.atLead with
  | true =>
    have hstep : stepFrom keywords doc 0 s = { s with pos := s.pos + 2, prev := Code.blank } := Scan.step_of_lead hlead
    rw [hstep] at hsize ⊢
    rcases h with hboundary | hstate
    . obtain ⟨b, hb, hbyte⟩ := exists_byteAt hlt
      rw [hvisits.atLead, hbyte, hpage] at hlead
      have hsize : s.pos + 2 < doc.text.size := hsize
      have hwidth := CharBoundary.width_of_lead hb hlead (by omega)
      have hnext := hboundary.behind hlt
      rw [hpage, hwidth, ← hpage] at hnext
      exact .inl hnext
    . exact .inr hstate
  | false =>
    rw [hvisits.atLead] at hlead
    by_cases hquote : s.AtQuote
    . left
      have hcases : (stepFrom keywords doc 0 s).pos = s.pos + 1 ∨ (stepFrom keywords doc 0 s).pos = s.pos + 2 :=
        (s.pos_step_cases _).imp_right And.left
      rcases hcases with hpos | hpos
      . rw [hpos]
        exact boundary_succ hpage hlt hlead
      . rw [hpos] at hsize ⊢
        exact boundary_succ hpage (Nat.lt_of_succ_lt hsize) (Bool.eq_false_iff.mpr fun h => hclose ⟨hvisits, hquote, h⟩)
    . rcases s.step_of_not_atQuote (by rw [hvisits.atLead, hlead]) hquote (.read keywords doc.options (doc.spanOf 0 0)) with
        hpos | ⟨hstate, hstep⟩
      . left
        rw [stepFrom, hpos]
        exact boundary_succ hpage hlt hlead
      . right
        rw [stepFrom, hstep]
        exact hstate

end Visits

/--
A run over the character at `p` comes there between two characters.
-/
theorem exists_over (hpage : doc.encoding = .doubleByte page) (hstart : startsLine doc.text start = true) (hle : start ≤ p)
    (hlt : p < doc.size) (hclose : ∀ s, ClosesAtLead keywords doc s → start ≤ s.pos → p ≤ s.pos) :
    ∃ s, Visits keywords doc s ∧ Aligned doc s ∧ start ≤ s.pos ∧ s.pos ≤ p ∧ p < (stepFrom keywords doc 0 s).pos := by
  obtain ⟨t, hrun, hend, _⟩ := exists_run keywords doc 0 (p + 1)
  -- No step goes over the start of the line, where a character starts; from there on, the steps stay between characters.
  have hinvariant := Iterates.invariant (fun t => Run keywords doc 0 doc.size (.begin doc 0) t
      ∧ (t.pos ≤ p → start ≤ t.pos → Aligned doc t)
      ∧ (p < t.pos → ∃ s, Visits keywords doc s ∧ Aligned doc s ∧ start ≤ s.pos ∧ s.pos ≤ p ∧ p < (stepFrom keywords doc 0 s).pos))
    ?_ hrun ⟨.refl _, fun _ _ => .inl .front, nofun⟩
  . exact hinvariant.2.2 hend
  . rintro s hmore ⟨hrun, haligned, _⟩
    have hpos : s.pos ≤ p := Nat.le_of_lt_succ (of_decide_eq_true hmore)
    have hvisits : Visits keywords doc s := ⟨hrun, Nat.lt_of_le_of_lt hpos hlt⟩
    by_cases hbefore : s.pos < start
    . have hnext : (stepFrom keywords doc 0 s).pos ≤ start := Scan.pos_step_le _ (by rw [hvisits.sameSource.text]; exact hstart) hbefore
      refine ⟨hvisits.tail, fun _ hle' => ?_, fun hover => absurd hover (by omega)⟩
      rw [Aligned, show (stepFrom keywords doc 0 s).pos = start by omega]
      exact .inl (.of_startsLine hstart)
    . have hs := haligned hpos (Nat.le_of_not_lt hbefore)
      refine ⟨hvisits.tail, fun hle' _ => ?_, fun hover => ⟨s, hvisits, hs, Nat.le_of_not_lt hbefore, hpos, hover⟩⟩
      -- A step that comes no farther than to the character does not start at it.
      have hforward : s.pos < (stepFrom keywords doc 0 s).pos := by
        rcases s.pos_step_cases (.read keywords doc.options (doc.spanOf 0 0)) with hstep | ⟨hstep, _⟩
        . rw [stepFrom, hstep]
          omega
        . rw [stepFrom, hstep]
          omega
      refine hvisits.aligned hpage hs (fun hs' => ?_) (Nat.lt_of_le_of_lt hle' hlt)
      have := hclose s hs' (Nat.le_of_not_lt hbefore)
      omega

/--
A step that comes to the second byte of a character from in front of it is one that a backslash makes.
-/
theorem Visits.step_into_character (h : Visits keywords doc s) (hpage : doc.encoding = .doubleByte page)
    (haligned : Aligned doc s) (hp : CharBoundary doc.encoding doc.text (s.pos + 1)) (hsize : s.pos + 1 < doc.size)
    (hlead : doc.encoding.isLeadByte (doc.byteAt (s.pos + 1) 0x20) = true) (hno : ¬ ClosesAtLead keywords doc s)
    (hover : s.pos + 1 < (stepFrom keywords doc 0 s).pos) :
    (stepFrom keywords doc 0 s).state = Style.character ∧ (stepFrom keywords doc 0 s).pen = s.pen := by
  cases hatLead : s.atLead with
  | true =>
    have hstep : stepFrom keywords doc 0 s = { s with pos := s.pos + 2, prev := Code.blank } := Scan.step_of_lead hatLead
    rw [hstep]
    rcases haligned with hboundary | hstate
    . obtain ⟨b, hb, hbyte⟩ := exists_byteAt h.2
      rw [h.atLead, hbyte, hpage] at hatLead
      have hwidth := CharBoundary.width_of_lead hb hatLead hsize
      have hbound := hboundary.add_le hp (Nat.lt_succ_self _)
      rw [hpage, hwidth] at hbound
      omega
    . exact ⟨hstate, rfl⟩
  | false =>
    have hquote : ¬ s.AtQuote := fun hquote => hno ⟨h, hquote, hlead⟩
    rcases s.step_of_not_atQuote hatLead hquote (.read keywords doc.options (doc.spanOf 0 0)) with hstep | ⟨hstate, hstep⟩
    . rw [stepFrom, hstep] at hover
      omega
    . rw [stepFrom, hstep]
      exact ⟨hstate, rfl⟩

/--
A run that comes by the character at `p` has both bytes of it painted together.
-/
theorem exists_together (kind : Style → Bool) (hdoc : doc.WellFormed) (hpage : doc.encoding = .doubleByte page)
    (hstart : startsLine doc.text start = true) (hle : start ≤ p) (hp : CharBoundary doc.encoding doc.text p)
    (hwidth : (doc.decodeAt p).2 = 2) (hclose : ∀ s, ClosesAtLead keywords doc s → start ≤ s.pos → p ≤ s.pos) :
    ∃ s known, Run keywords doc 0 doc.size (.begin doc 0) s ∧ s.Together kind known p (p + 2) := by
  rw [Document.decodeAt, hpage] at hwidth
  obtain ⟨b, hb, hlead, hsize⟩ := CharBoundary.lead_of_width hwidth
  have hlt : p < doc.size := Nat.lt_of_succ_lt hsize
  have hbyte : doc.byteAt p 0x20 = b := by
    rw [Document.byteAt, hb]
    rfl
  have hlead' : doc.encoding.isLeadByte (doc.byteAt p 0x20) = true := by
    rw [hbyte, hpage]
    exact hlead
  obtain ⟨s, hvisits, haligned, hfrom, hpos, hover⟩ := exists_over hpage hstart hle hlt hclose
  rcases Nat.eq_or_lt_of_le hpos with rfl | hbefore
  . have hstep : stepFrom keywords doc 0 s = { s with pos := s.pos + 2, prev := Code.blank } :=
      Scan.step_of_lead (by rw [hvisits.atLead, hlead'])
    refine ⟨_, kind s.state, hvisits.tail, ?_⟩
    rw [hstep]
    exact .opened hvisits.segment_le (Nat.le_refl _) rfl
  -- The step to the second byte of the character is one that a backslash makes.
  . have hreach : s.pos + 1 = p ∧ (stepFrom keywords doc 0 s).pos = p + 1 := by
      rcases s.pos_step_cases (.read keywords doc.options (doc.spanOf 0 0)) with hstep | ⟨hstep, _⟩
      . rw [stepFrom, hstep] at hover
        omega
      . rw [stepFrom, hstep] at hover ⊢
        omega
    obtain ⟨rfl, hnextPos⟩ := hreach
    have hno : ¬ ClosesAtLead keywords doc s := by
      intro hcloses
      have := hclose s hcloses hfrom
      omega
    obtain ⟨hcharacter, hpen⟩ := hvisits.step_into_character hpage haligned hp hlt hlead' hno hover
    have hnext : Visits keywords doc (stepFrom keywords doc 0 s) := ⟨hvisits.tail, by rw [hnextPos]; exact hsize⟩
    have hsegment := hvisits.segment_le
    generalize stepFrom keywords doc 0 s = t at *
    refine ⟨_, kind t.state, hnext.tail, ?_⟩
    rw [← show t.pos + 1 = s.pos + 1 + 2 by omega]
    refine Scan.together_of_string (.inr hcharacter) (hnext.sameSource.wellFormed hdoc) ?_ ?_ _
    . rw [hpen]
      omega
    . rw [hnext.sameSource.size]
      exact hnext.2

/--
In a double-byte code page, both bytes of a character have one style, as long as no string of the line ends in front of a lead byte.
Such a lead byte has the style of what is between tokens, and the byte behind it is coloured as if it stood alone.
-/
theorem second_byte_style (session : Session) (hsession : session.lexer = lexer) (text : Array UInt8) (page : CodePage)
    (options : Options) :
    let doc := Document.fresh text (.doubleByte page) options
    let styled := session.colour doc 0 text.size
    (∀ line count, let p := doc.nextChar^[count] (doc.lineStart line)
      p < doc.lineStart (line + 1) → (doc.decodeAt p).2 = 2
        → (∀ s, ClosesAtLead session.keywords doc s → doc.lineStart line ≤ s.pos → p ≤ s.pos)
        → styled.styleAt (p + 1) = styled.styleAt p)
      ∧ ∀ s, ClosesAtLead session.keywords doc s → s.pos + 2 < text.size →
        let t := stepFrom session.keywords doc 0 s
        styled.styleAt (s.pos + 1) = Style.default
          ∧ (styled.styleAt (s.pos + 2) = Style.default ↔ t.atLead = true ∨ t.stepBetween = t) := by
  intro doc styled
  have hdoc : doc.WellFormed := Document.wellFormed_fresh text _ options
  constructor
  . intro line count p hbelow hwidth hclose
    have hlt : p < doc.size := Nat.lt_of_lt_of_le hbelow (hdoc.lineStart_le_size _)
    obtain ⟨hp, hle⟩ := CharBoundary.of_iterate hdoc hlt
    have hline := hdoc.lt_lineCount (Nat.lt_of_le_of_lt hle hlt)
    obtain ⟨s, known, hrun, htogether⟩ :=
      exists_together (fun _ => true) hdoc rfl (hdoc.startsLine_lineStart hline).1 hle hp hwidth hclose
    have hsize : p + 2 ≤ doc.size := by
      have := doc.encoding.decodeAt_le_size hlt
      rwa [← Document.decodeAt, hwidth] at this
    obtain ⟨style, _, hbytes⟩ := hrun.exists_styleAt_pass ⟨fun _ _ _ => rfl, fun _ _ => rfl⟩ hdoc htogether hsize
    have hstyled : styled = pass session.keywords doc 0 doc.size := colour_session hsession hdoc (Nat.zero_lt_of_lt hlt)
    rw [hstyled, hbytes p (Nat.le_refl p) (by omega), hbytes (p + 1) (by omega) (by omega)]
  . intro s hclose hsize t
    obtain ⟨hpos, hstate, hpen⟩ := Scan.step_of_atQuote hclose.quote (by
      rw [Document.byteAt, hclose.visits.sameSource.encoding, hclose.visits.sameSource.text]
      exact hclose.lead) (.read session.keywords doc.options (doc.spanOf 0 0))
    rw [← stepFrom] at hpos hstate hpen
    have ht : Visits session.keywords doc t := ⟨hclose.visits.tail, by rw [hpos]; exact hsize⟩
    have hsegment : t.pen.segment ≤ s.pos + 1 := by
      have := hclose.visits.segment_le
      rw [hpen, Pen.segment_colourTo]
      omega
    have hkind : IsKept (· == Style.default) := Scan.isKept_of_all (by decide) rfl
    have hstyled : styled = pass session.keywords doc 0 doc.size := colour_session hsession hdoc (Nat.zero_lt_of_lt hsize)
    rw [hstyled]
    constructor
    . have hopened : t.Together (· == Style.default) true (s.pos + 1) (s.pos + 2) :=
        .opened hsegment (Nat.le_of_eq hpos.symm) (beq_iff_eq.mpr hstate)
      obtain ⟨style, hstyle, hbytes⟩ := ht.1.exists_styleAt_pass hkind hdoc hopened (Nat.le_of_lt hsize)
      rw [hbytes _ (Nat.le_refl _) (Nat.lt_succ_self _)]
      exact beq_iff_eq.mp hstyle
    . have htogether := t.together_of_default hstate (ht.sameSource.wellFormed hdoc) ht.segment_le
        (by rw [ht.sameSource.size]; exact ht.2) (.read session.keywords doc.options (doc.spanOf 0 0))
      obtain ⟨style, hstyle, hbytes⟩ := ht.tail.exists_styleAt_pass hkind hdoc htogether ht.2
      rw [← hpos, hbytes _ (Nat.le_refl _) (Nat.lt_succ_self _), ← beq_iff_eq, hstyle, Bool.or_eq_true, beq_iff_eq]

/--
A string in which a backslash takes the first byte of a character along. The second byte ends the string, in front of another character.
-/
theorem second_byte_style_escaped :
    let doc := Document.fresh #[0x27, 0x5C, 0x83, 0x27, 0x83, 0x41] (.doubleByte .shiftJis) (Options.parse "sql.backslash.escapes=1")
    let styled := (Session.ofLexer lexer).colour doc 0 6
    styled.styleAt 3 = styled.styleAt 2 ∧ ∃ s, ClosesAtLead #[] doc s ∧ s.pos = 3 ∧ styled.styleAt 4 = Style.default := by
  intro doc styled
  obtain ⟨hpairs, hcloses⟩ := second_byte_style (.ofLexer lexer) rfl #[0x27, 0x5C, 0x83, 0x27, 0x83, 0x41] .shiftJis
    (Options.parse "sql.backslash.escapes=1")
  constructor
  . have hp : doc.nextChar^[2] (doc.lineStart 0) = 2 := by decide +kernel
    have hpair := hpairs 0 2
    dsimp only at hpair
    rw [hp] at hpair
    refine hpair (by decide +kernel) (by decide +kernel) ?_
    rintro s ⟨⟨hrun, _⟩, hquote, hlead⟩ _
    have hnone := Iterates.of_holdsAlong (show holdsAlong (fun s => !((s.cur == Code.quote || s.cur == Code.apostrophe)
      && doc.encoding.isLeadByte (doc.byteAt (s.pos + 1) 0x20)) || 2 ≤ s.pos) _ _ 9 _ = true by decide +kernel) hrun
    have hcur : (s.cur == Code.quote || s.cur == Code.apostrophe) = true := by
      rcases hquote with ⟨_, hcur⟩ | ⟨_, hcur⟩
      . rw [hcur]
        rfl
      . rw [hcur]
        rfl
    rw [hcur, hlead] at hnone
    exact of_decide_eq_true hnone
  . have hrun := iterates_repeatWhile (fun s => decide (s.pos < doc.size)) (stepFrom #[] doc 0) 2 (.begin doc 0)
    refine ⟨_, ⟨⟨hrun, by decide +kernel⟩, .inr (by decide +kernel), by decide +kernel⟩, by decide +kernel, ?_⟩
    exact (hcloses _ ⟨⟨hrun, by decide +kernel⟩, .inr (by decide +kernel), by decide +kernel⟩ (by decide +kernel)).1

/--
A character behind a quote that ends a string, and its two bytes with two styles.
-/
theorem second_byte_style_split :
    let doc := Document.fresh #[0x27, 0x61, 0x27, 0x83, 0x41] (.doubleByte .shiftJis) .empty
    let styled := (Session.ofLexer lexer).colour doc 0 5
    doc.nextChar^[3] (doc.lineStart 0) = 3 ∧ (doc.decodeAt 3).2 = 2 ∧ styled.styleAt 3 = Style.default
      ∧ styled.styleAt 4 = Style.word := by
  decide +kernel

end Highlight.Sql
