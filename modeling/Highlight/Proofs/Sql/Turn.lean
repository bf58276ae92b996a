import Highlight.Proofs.Cursor.PenRelation
import Highlight.Proofs.Sql.Fold

/-!
What a step of colouring SQL can do: it ends the open token, starts one, or does neither.
-/

namespace Highlight.Sql

open LineIndex

/--
The styles that an open token can carry over a line start.
-/
def loose (style : Highlight.Style) : Bool :=
  match style with
  | Style.default | Style.comment | Style.commentDoc | Style.string | Style.character => true
  | _ => false

/--
The styles of the tokens that end with their line.
-/
def isLineStyle (style : Highlight.Style) : Bool :=
  match style with
  | Style.commentLine | Style.commentLineDoc | Style.remark | Style.prompt => true
  | _ => false

/--
The styles of documentation keywords.
-/
def isDocKeyword (style : Highlight.Style) : Bool :=
  match style with
  | Style.docKeyword | Style.docKeywordError => true
  | _ => false

/--
The styles that an open token can have.
-/
def isOpenStyle (style : Highlight.Style) : Bool :=
  loose style || isLineStyle style || style == Style.word || style == Style.docKeyword

theorem codeAt_of_endsLine {doc : Document} {pos : Nat} (h : endsLine doc.text pos = true) :
    codeAt doc pos = Code.lineFeed ∨ codeAt doc pos = Code.carriageReturn := by
  unfold endsLine at h
  rw [codeAt, Document.byteAt]
  split at h
  . next hb =>
    rw [hb]
    exact .inl rfl
  . next hb =>
    rw [hb]
    exact .inr rfl
  . cases h

/--
A character that is not one of those that end lines.
-/
theorem endsLine_of_codeAt {doc : Document} {pos : Nat} (h : (codeAt doc pos).isLineEnd = false) :
    endsLine doc.text pos = false := by
  rw [Bool.eq_false_iff]
  intro hends
  rcases codeAt_of_endsLine hends with hcode | hcode
  . rw [hcode] at h
    cases h
  . rw [hcode] at h
    cases h

namespace Scan

/--
A scan in which no double-byte character starts.
-/
def SingleByte (s : Scan) : Prop :=
  ∀ b, s.doc.encoding.isLeadByte b = false

/--
What a step does before it goes on to the next byte.
-/
def turn (settings : Settings) (s : Scan) : Scan :=
  match s.state with
  | Style.default => s.stepBetween
  | Style.word => s.stepInWord settings.keywords
  | _ => s.stepInToken settings

variable {s t : Scan} {settings : Settings}

/--
Whether a double-byte character starts at the current byte.
-/
def atLead (s : Scan) : Bool :=
  s.doc.encoding.isLeadByte (s.doc.byteAt s.pos 0x20)

theorem step_of_lead (h : s.atLead = true) : s.step settings = { s with pos := s.pos + 2, prev := Code.blank } := by
  unfold step
  rw [← atLead, if_pos h]

theorem step_of_turn (h : s.atLead = false) :
    s.step settings = { s.turn settings with pos := (s.turn settings).pos + 1, prev := (s.turn settings).cur } := by
  unfold step
  rw [← atLead, h, if_neg Bool.false_ne_true]
  rfl

theorem step_eq (h : s.SingleByte) :
    s.step settings = { s.turn settings with pos := (s.turn settings).pos + 1, prev := (s.turn settings).cur } :=
  step_of_turn (h _)

/--
Starting a token right behind another one.
-/
inductive Enters (s : Scan) : Scan → Prop where
  | start (style : Style) : s.starting? false = some style → Enters s { s with state := style }
  | operator : s.cur.isOperator = true →
    Enters s { s with pen := (s.pen.colourTo s.pos Style.default).colourTo (s.pos + 1) Style.operator, state := Style.default }
  | blank : Enters s { s with state := Style.default }

/--
Ending the open token in front of `stop`, where it gets the style `style`. What comes next is at `pos`.
-/
inductive Leaves (s : Scan) : (stop : Nat) → (style : Style) → (pos : Nat) → Prop where
  | word (style : Style) : s.state = Style.word → Leaves s s.pos style s.pos
  | line : isLineStyle s.state = true → Leaves s s.pos s.state s.pos
  | keyword : s.state = Style.docKeyword → Leaves s s.pos Style.docKeywordError s.pos
  | comment : s.state = Style.comment ∨ s.state = Style.commentDoc → s.cur.is '/' = true → Leaves s (s.pos + 1) s.state s.pos
  | string : s.state = Style.string ∨ s.state = Style.character → s.cur.isLineEnd = false →
    Leaves s (s.pos + 1) s.state (s.pos + 1)

/--
What a turn can do. With a token of SQL open, nothing happens at the end of a line only if it can go on behind it.
-/
inductive Turn (s : Scan) : Scan → Prop where
  | stay : (isOpenStyle s.state = true → s.cur.isLineEnd = true → loose s.state = true) → Turn s s
  | skip : s.state = Style.string ∨ s.state = Style.character → s.cur.isLineEnd = false → Turn s { s with pos := s.pos + 1 }
  | start (style : Style) : s.state = Style.default → s.starting? true = some style → Turn s (s.close s.pos style)
  | operator : s.state = Style.default → s.cur.isOperator = true →
    Turn s { s with pen := (s.pen.colourTo s.pos Style.default).colourTo (s.pos + 1) Style.operator }
  | keyword : s.state = Style.commentDoc → s.cur.is '@' = true → Turn s (s.close s.pos Style.docKeyword)
  | keywordEnd (style : Style) : s.state = Style.docKeyword → isDocKeyword style = true →
    Turn s { s with pen := s.pen.colourTo s.pos style, state := Style.commentDoc }
  | leave {t : Scan} (stop : Nat) (style : Style) (pos : Nat) : s.Leaves stop style pos →
    Enters { s with pen := s.pen.colourTo stop style, state := Style.default, pos } t → Turn s t

theorem enters_enter (s : Scan) : s.Enters s.enter := by
  unfold enter
  split
  . next style h => exact .start style h
  . unfold operator
    split
    . next h => exact .operator h
    . exact .blank

/--
A turn that ends the open token starts the next one.
-/
theorem Leaves.turn {stop : Nat} {style : Highlight.Style} {pos : Nat} (h : s.Leaves stop style pos) :
    s.Turn { s with pen := s.pen.colourTo stop style, state := Style.default, pos }.enter :=
  .leave stop style pos h (enters_enter _)

/--
The character at the end of a line is none of those that a test asks for.
-/
theorem isLineEnd_of_test {c : Code} (test : Code → Bool) (hfeed : test Code.lineFeed = false)
    (hreturn : test Code.carriageReturn = false) (h : test c = true) : c.isLineEnd = false := by
  rw [Bool.eq_false_iff]
  intro hline
  rw [Code.isLineEnd, Bool.or_eq_true, beq_iff_eq, beq_iff_eq] at hline
  rcases hline with hc | hc
  . rw [hc, hreturn] at h
    cases h
  . rw [hc, hfeed] at h
    cases h

theorem enter_withState (s : Scan) (state : Highlight.Style) : ({ s with state } : Scan).enter = s.enter := by
  have hstart : ({ s with state } : Scan).starting? false = s.starting? false := rfl
  unfold enter operator
  rw [hstart]
  split
  . rfl
  . rw [show ({ s with state } : Scan).cur = s.cur from rfl]
    split
    . rfl
    . rfl

theorem turn_default (h : s.state = Style.default) : s.Turn s.stepBetween := by
  unfold stepBetween
  split
  . next style hstart => exact .start style h hstart
  . unfold operator
    split
    . next hcur => exact .operator h hcur
    . exact .stay (fun _ _ => by rw [h]; rfl)

theorem turn_word (h : s.state = Style.word) (keywords : Keywords) : s.Turn (s.stepInWord keywords) := by
  unfold stepInWord
  split
  . next hword =>
    refine .stay ?_
    intro _ hline
    rw [isLineEnd_of_test isWord rfl rfl hword] at hline
    cases hline
  . dsimp only
    rw [← enter_withState _ Style.default]
    exact (Leaves.word _ h).turn

theorem stepInToken_of_ne (h : (s.leave settings).state ≠ Style.default) :
    s.stepInToken settings = s.leave settings := by
  unfold stepInToken
  dsimp only
  rw [if_neg (by rw [beq_iff_eq]; exact h)]

theorem stepInToken_of_eq (h : (s.leave settings).state = Style.default) :
    s.stepInToken settings = (s.leave settings).enter := by
  unfold stepInToken
  dsimp only
  rw [if_pos (by rw [beq_iff_eq]; exact h)]

theorem leave_of_comment (hstate : s.state = Style.comment) :
    s.leave settings = if s.cur.is '/' && s.prev.is '*' then s.leaveComment settings.span else s := by
  unfold leave
  rw [hstate]
  rfl

theorem leave_of_commentDoc (hstate : s.state = Style.commentDoc) :
    s.leave settings
      = if s.cur.is '/' && s.prev.is '*' then s.leaveComment settings.span
        else if s.startsDocKeyword then s.close s.pos Style.docKeyword else s := by
  unfold leave
  rw [hstate]
  rfl

theorem isLineStyle_cases {style : Highlight.Style} (h : isLineStyle style = true) :
    style = Style.commentLine ∨ style = Style.commentLineDoc ∨ style = Style.remark ∨ style = Style.prompt := by
  unfold isLineStyle at h
  split at h
  . exact .inl rfl
  . exact .inr (.inl rfl)
  . exact .inr (.inr (.inl rfl))
  . exact .inr (.inr (.inr rfl))
  . cases h

theorem ne_of_isLineStyle {style : Highlight.Style} (h : isLineStyle style = true) : style ≠ Style.default ∧ style ≠ Style.word := by
  rcases isLineStyle_cases h with rfl | rfl | rfl | rfl
  . decide
  . decide
  . decide
  . decide

theorem loose_of_isLineStyle {style : Highlight.Style} (h : isLineStyle style = true) : loose style = false := by
  rcases isLineStyle_cases h with rfl | rfl | rfl | rfl
  . rfl
  . rfl
  . rfl
  . rfl

theorem leave_of_isLineStyle (hstate : isLineStyle s.state = true) :
    s.leave settings = if s.cur.isLineEnd then s.close s.pos Style.default else s := by
  unfold leave
  rcases isLineStyle_cases hstate with h | h | h | h
  . rw [h]
    rfl
  . rw [h]
    rfl
  . rw [h]
    rfl
  . rw [h]
    rfl

theorem leave_of_docKeyword (hstate : s.state = Style.docKeyword) :
    s.leave settings = s.leaveDocKeyword settings.keywords := by
  unfold leave
  rw [hstate]
  rfl

theorem leave_of_string (hstate : s.state = Style.string) : s.leave settings = s.leaveString Code.quote := by
  unfold leave
  rw [hstate]
  rfl

theorem leave_of_character (hstate : s.state = Style.character) :
    s.leave settings
      = if settings.backslashEscapes && s.cur == Code.backslash then { s with pos := s.pos + 1 }
        else s.leaveString Code.apostrophe := by
  unfold leave
  rw [hstate]
  rfl

/--
A turn in a token that goes on.
-/
theorem turn_of_stay (hstate : s.state ≠ Style.default) (hline : s.cur.isLineEnd = true → loose s.state = true)
    (h : s.leave settings = s) : s.Turn (s.stepInToken settings) := by
  rw [stepInToken_of_ne (by rw [h]; exact hstate), h]
  exact .stay (fun _ => hline)

/--
A turn in a token that ends.
-/
theorem Leaves.turn_of_leave {stop : Nat} {style : Highlight.Style} {pos : Nat} (hleaves : s.Leaves stop style pos)
    (h : s.leave settings = { s with pen := s.pen.colourTo stop style, state := Style.default, pos }) :
    s.Turn (s.stepInToken settings) := by
  rw [stepInToken_of_eq (by rw [h]), h]
  exact hleaves.turn

theorem turn_comment (hstate : s.state = Style.comment) : s.Turn (s.stepInToken settings) := by
  have hstay : s.leave settings = s → s.Turn (s.stepInToken settings) :=
    turn_of_stay (by rw [hstate]; decide) (fun _ => by rw [hstate]; rfl)
  have hleave := @leave_of_comment _ settings hstate
  rw [leaveComment] at hleave
  split at hleave
  . next hcur =>
    split at hleave
    . exact (Leaves.comment (.inl hstate) (Bool.and_eq_true _ _ ▸ hcur).1).turn_of_leave hleave
    . exact hstay hleave
  . exact hstay hleave

theorem turn_commentDoc (hstate : s.state = Style.commentDoc) : s.Turn (s.stepInToken settings) := by
  have hstay : s.leave settings = s → s.Turn (s.stepInToken settings) :=
    turn_of_stay (by rw [hstate]; decide) (fun _ => by rw [hstate]; rfl)
  have hleave := @leave_of_commentDoc _ settings hstate
  rw [leaveComment] at hleave
  split at hleave
  . next hcur =>
    split at hleave
    . exact (Leaves.comment (.inr hstate) (Bool.and_eq_true _ _ ▸ hcur).1).turn_of_leave hleave
    . exact hstay hleave
  . split at hleave
    . next hword =>
      rw [stepInToken_of_ne (by rw [hleave]; exact (show Style.docKeyword ≠ Style.default by decide)), hleave]
      rw [startsDocKeyword, Bool.and_eq_true, Bool.and_eq_true] at hword
      exact .keyword hstate hword.1.1
    . exact hstay hleave

theorem turn_line (hstate : isLineStyle s.state = true) : s.Turn (s.stepInToken settings) := by
  have hleave := @leave_of_isLineStyle _ settings hstate
  split at hleave
  . exact (Leaves.line hstate).turn_of_leave hleave
  . next hcur => exact turn_of_stay (ne_of_isLineStyle hstate).1 (fun h => absurd h hcur) hleave

theorem turn_docKeyword (hstate : s.state = Style.docKeyword) : s.Turn (s.stepInToken settings) := by
  have hleave := @leave_of_docKeyword _ settings hstate
  unfold leaveDocKeyword at hleave
  dsimp only at hleave
  split at hleave
  . exact (Leaves.keyword hstate).turn_of_leave hleave
  . split at hleave
    . next hword =>
      refine turn_of_stay (by rw [hstate]; decide) ?_ hleave
      intro hline
      rw [isLineEnd_of_test isWord rfl rfl hword] at hline
      cases hline
    . rw [stepInToken_of_ne (by rw [hleave]; exact (show Style.commentDoc ≠ Style.default by decide)), hleave]
      refine .keywordEnd _ hstate ?_
      split
      . rw [hstate]
        rfl
      . rfl

theorem turn_leaveString {quote : Code} (hstate : s.state = Style.string ∨ s.state = Style.character)
    (hquote : quote.isLineEnd = false) (hleave : s.leave settings = s.leaveString quote) :
    s.Turn (s.stepInToken settings) := by
  have hne : s.state ≠ Style.default := by
    rcases hstate with h | h
    . rw [h]
      decide
    . rw [h]
      decide
  have hloose : loose s.state = true := by
    rcases hstate with h | h
    . rw [h]
      rfl
    . rw [h]
      rfl
  unfold leaveString at hleave
  split at hleave
  . next hcur =>
    rw [beq_iff_eq] at hcur
    have hline : s.cur.isLineEnd = false := by rw [hcur, hquote]
    split at hleave
    . rw [stepInToken_of_ne (by rw [hleave]; exact hne), hleave]
      exact .skip hstate hline
    . exact (Leaves.string hstate hline).turn_of_leave hleave
  . exact turn_of_stay hne (fun _ => hloose) hleave

theorem turn_string (hstate : s.state = Style.string) : s.Turn (s.stepInToken settings) :=
  turn_leaveString (.inl hstate) (show Code.quote.isLineEnd = false by decide) (leave_of_string hstate)

theorem turn_character (hstate : s.state = Style.character) : s.Turn (s.stepInToken settings) := by
  have hleave := @leave_of_character _ settings hstate
  split at hleave
  . next hcur =>
    rw [stepInToken_of_ne (by rw [hleave]; show s.state ≠ _; rw [hstate]; decide), hleave]
    rw [Bool.and_eq_true, beq_iff_eq] at hcur
    refine .skip (.inr hstate) ?_
    rw [hcur.2]
    rfl
  . exact turn_leaveString (.inr hstate) (by decide) hleave

theorem turn_of_default (h : s.state = Style.default) : s.turn settings = s.stepBetween := by
  unfold turn
  rw [h]
  rfl

theorem turn_of_word (h : s.state = Style.word) : s.turn settings = s.stepInWord settings.keywords := by
  unfold turn
  rw [h]
  rfl

theorem turn_of_token {style : Highlight.Style} (h : s.state = style) (hstyle : style ≠ Style.default ∧ style ≠ Style.word) :
    s.turn settings = s.stepInToken settings := by
  unfold turn
  split
  . next hdefault => exact absurd (h.symm.trans hdefault) hstyle.1
  . next hword => exact absurd (h.symm.trans hword) hstyle.2
  . rfl

theorem isOpenStyle_cases {style : Highlight.Style} (h : isOpenStyle style = true) :
    style = Style.default ∨ style = Style.word ∨ style = Style.comment ∨ style = Style.commentDoc ∨ isLineStyle style = true
      ∨ style = Style.docKeyword ∨ style = Style.string ∨ style = Style.character := by
  simp only [isOpenStyle, Bool.or_eq_true, beq_iff_eq] at h
  rcases h with ((h | h) | h) | h
  . unfold loose at h
    split at h
    . exact .inl rfl
    . exact .inr (.inr (.inl rfl))
    . exact .inr (.inr (.inr (.inl rfl)))
    . exact .inr (.inr (.inr (.inr (.inr (.inr (.inl rfl))))))
    . exact .inr (.inr (.inr (.inr (.inr (.inr (.inr rfl))))))
    . cases h
  . exact .inr (.inr (.inr (.inr (.inl h))))
  . exact .inr (.inl h)
  . exact .inr (.inr (.inr (.inr (.inr (.inl h)))))

/--
A style that is none of a token of SQL goes on to the end.
-/
theorem turn_of_not_open (h : isOpenStyle s.state = false) : s.turn settings = s := by
  have hne {style : Highlight.Style} (hstyle : isOpenStyle style = true) : s.state ≠ style := by
    intro hstate
    rw [hstate, hstyle] at h
    cases h
  have hleave : s.leave settings = s := by
    unfold leave
    split <;> first | exact absurd ‹s.state = _› (hne rfl) | rfl
  rw [turn_of_token rfl ⟨hne rfl, hne rfl⟩, stepInToken_of_ne (by rw [hleave]; exact hne rfl), hleave]

theorem turn_of_open (hopen : isOpenStyle s.state = true) : s.Turn (s.turn settings) := by
  rcases isOpenStyle_cases hopen with h | h | h | h | h | h | h | h
  . rw [turn_of_default h]
    exact turn_default h
  . rw [turn_of_word h]
    exact turn_word h _
  . rw [turn_of_token h (by decide)]
    exact turn_comment h
  . rw [turn_of_token h (by decide)]
    exact turn_commentDoc h
  . rw [turn_of_token rfl (ne_of_isLineStyle h)]
    exact turn_line h
  . rw [turn_of_token h (by decide)]
    exact turn_docKeyword h
  . rw [turn_of_token h (by decide)]
    exact turn_string h
  . rw [turn_of_token h (by decide)]
    exact turn_character h

/--
What a turn does, whichever token is open.
-/
theorem turn_spec (s : Scan) (settings : Settings) : s.Turn (s.turn settings) := by
  cases hopen : isOpenStyle s.state with
  | true => exact turn_of_open hopen
  | false =>
    rw [turn_of_not_open hopen]
    exact .stay (fun h => absurd (hopen.symm.trans h) (by decide))

section Starting

theorem or_eq_some {α : Type} {a b : Option α} {x : α} (h : (a <|> b) = some x) : a = some x ∨ b = some x := by
  cases a with
  | none => exact .inr h
  | some _ => exact .inl h

theorem abbreviatedAt_first {doc : Document} {pos : Nat} {pattern : String} {first : Code} {rest : List Code}
    (hpattern : (Utf8.encode pattern).map UInt8.toNat = first :: rest) (h : abbreviatedAt doc pos pattern = true) :
    (lowerAt doc pos == first) = true := by
  unfold abbreviatedAt at h
  rw [hpattern] at h
  exact (Bool.and_eq_true _ _ ▸ h).1

/--
A line that starts with a word of a pattern is not empty.
-/
theorem isLineEnd_of_abbreviatedAt {pattern : String} {first : Code} {rest : List Code}
    (hpattern : (Utf8.encode pattern).map UInt8.toNat = first :: rest) (hfirst : first.isLower = true)
    (h : abbreviatedAt s.doc s.pos pattern = true) : s.cur.isLineEnd = false := by
  refine isLineEnd_of_test (fun c => c.toLower == first) ?_ ?_ (abbreviatedAt_first hpattern h)
  . rw [Bool.eq_false_iff]
    intro heq
    rw [← beq_iff_eq.mp heq] at hfirst
    cases hfirst
  . rw [Bool.eq_false_iff]
    intro heq
    rw [← beq_iff_eq.mp heq] at hfirst
    cases hfirst

theorem startingLine?_spec {style : Highlight.Style} (h : s.startingLine? = some style) :
    s.cur.isLineEnd = false ∧ isLineStyle style = true := by
  unfold startingLine? at h
  split at h
  . next hword =>
    cases h
    exact ⟨isLineEnd_of_abbreviatedAt (show _ = 0x72 :: _ by rfl) rfl hword, rfl⟩
  . split at h
    . next hword =>
      cases h
      exact ⟨isLineEnd_of_abbreviatedAt (show _ = 0x70 :: _ by rfl) rfl hword, rfl⟩
    . cases h

theorem startingComment?_spec {style : Highlight.Style} (h : s.startingComment? = some style) :
    s.cur.isLineEnd = false ∧ (isLineStyle style = true
      ∨ (style = Style.comment ∨ style = Style.commentDoc) ∧ s.next.isLineEnd = false) := by
  unfold startingComment? at h
  split at h
  . next hcur =>
    rw [Bool.and_eq_true] at hcur
    refine ⟨isLineEnd_of_test (fun c => Code.is c '/') rfl rfl hcur.1, .inr ⟨?_, ?_⟩⟩
    . split at h
      . cases h
        exact .inr rfl
      . cases h
        exact .inl rfl
    . exact isLineEnd_of_test (fun c => Code.is c '*') rfl rfl hcur.2
  . split at h
    . next hcur =>
      cases h
      rw [Bool.and_eq_true] at hcur
      exact ⟨isLineEnd_of_test (fun c => Code.is c '-') rfl rfl hcur.1, .inl rfl⟩
    . split at h
      . next hcur =>
        cases h
        exact ⟨isLineEnd_of_test (fun c => Code.is c '#') rfl rfl hcur, .inl rfl⟩
      . cases h

theorem startingString?_spec {style : Highlight.Style} (h : s.startingString? = some style) :
    s.cur.isLineEnd = false ∧ (style = Style.string ∨ style = Style.character) := by
  unfold startingString? at h
  split at h
  . next hcur =>
    cases h
    rw [beq_iff_eq] at hcur
    exact ⟨by rw [hcur]; rfl, .inr rfl⟩
  . split at h
    . next hcur =>
      cases h
      rw [beq_iff_eq] at hcur
      exact ⟨by rw [hcur]; rfl, .inl rfl⟩
    . cases h

theorem startingWord?_spec {style : Highlight.Style} (h : s.startingWord? = some style) :
    s.cur.isLineEnd = false ∧ style = Style.word := by
  unfold startingWord? at h
  split at h
  . next hcur =>
    cases h
    exact ⟨isLineEnd_of_test isWordStart rfl rfl hcur, rfl⟩
  . cases h

/--
No token starts at the end of a line. A comment that can span lines takes two characters to start.
-/
structure Starts (s : Scan) (style : Highlight.Style) : Prop where
  cur : s.cur.isLineEnd = false
  opened : isOpenStyle style = true
  ne_keyword : style ≠ Style.docKeyword
  next : style = Style.comment ∨ style = Style.commentDoc → s.next.isLineEnd = false

theorem starts_of_isLineStyle {style : Highlight.Style} (hcur : s.cur.isLineEnd = false) (h : isLineStyle style = true) :
    s.Starts style where
  cur := hcur
  opened := by
    rw [isOpenStyle, h, Bool.or_true]
    rfl
  ne_keyword := by
    rintro rfl
    cases h
  next := by
    rintro (rfl | rfl)
    . cases h
    . cases h

theorem starts_of_starting? {betweenTokens : Bool} {style : Highlight.Style} (h : s.starting? betweenTokens = some style) :
    s.Starts style := by
  have hline (h : s.startingLine? = some style) : s.Starts style :=
    starts_of_isLineStyle (startingLine?_spec h).1 (startingLine?_spec h).2
  have hcomment (h : s.startingComment? = some style) : s.Starts style := by
    obtain ⟨hcur, hstyle | ⟨hstyle, hnext⟩⟩ := startingComment?_spec h
    . exact starts_of_isLineStyle hcur hstyle
    . rcases hstyle with rfl | rfl
      . exact ⟨hcur, rfl, by decide, fun _ => hnext⟩
      . exact ⟨hcur, rfl, by decide, fun _ => hnext⟩
  have hstring (h : s.startingString? = some style) : s.Starts style := by
    obtain ⟨hcur, rfl | rfl⟩ := startingString?_spec h
    . exact ⟨hcur, rfl, by decide, by rintro (h | h) <;> cases h⟩
    . exact ⟨hcur, rfl, by decide, by rintro (h | h) <;> cases h⟩
  have hword (h : s.startingWord? = some style) : s.Starts style := by
    obtain ⟨hcur, rfl⟩ := startingWord?_spec h
    exact ⟨hcur, rfl, by decide, by rintro (h | h) <;> cases h⟩
  unfold starting? at h
  split at h
  . rcases or_eq_some h with h | h
    . exact hline h
    . rcases or_eq_some h with h | h
      . exact hword h
      . rcases or_eq_some h with h | h
        . exact hcomment h
        . exact hstring h
  . rcases or_eq_some h with h | h
    . exact hcomment h
    . rcases or_eq_some h with h | h
      . exact hline h
      . rcases or_eq_some h with h | h
        . exact hstring h
        . exact hword h

end Starting

end Scan

end Highlight.Sql
