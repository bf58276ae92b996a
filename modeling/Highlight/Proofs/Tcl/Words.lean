import Highlight.Proofs.Document.Word
import Highlight.Proofs.Tcl.Unseen
import Highlight.Proofs.WholeText

/-!
Steps over the characters of a word.
-/

namespace Highlight.Tcl

open Cursor LineIndex

variable {doc : Document} {keywords : Keywords} {settings : Settings} {c : Cursor} {s t u : Scan} {x : Char} {i : Nat}

/--
The ASCII characters that neither end a word nor have a meaning of their own between words.
-/
def isPlain (x : Code) : Bool :=
  x.isAscii && !x.isSpace && !x.isOneOf "\x7b\x7d[]()\"$\\;#"

/--
A cursor on an ASCII byte that ends no line.
-/
theorem sight_of_ascii (h : c.OnText doc) (hascii : x.toNat < 0x80) (hline : Code.isLineEnd x.toNat = false)
    (hbyte : doc.byteAt? c.pos = some x.toUInt8) :
    c.cur = x.toNat ∧ c.width = 1 ∧ c.atLineEnd = false ∧ c.pos < doc.size := by
  have hnat := IsAscii.toNat_toUInt8 hascii
  have hread : c.doc.decodeAt c.pos = (x.toNat, 1) := by
    rw [h.decodeAt_eq, Document.decodeAt, doc.encoding.decodeAt_of_ascii hbyte (by rw [hnat]; exact hascii), hnat]
  have hsize : c.pos < doc.size := (Array.getElem?_eq_some_iff.mp hbyte).1
  have hwidth : c.width = 1 := by rw [h.settled.width_eq, hread]
  refine ⟨by rw [h.settled.cur_eq, hread], hwidth, ?_, hsize⟩
  rw [h.settled.atLineEnd, hwidth, Nat.add_sub_cancel, h.source.text, h.size_eq, decide_eq_false (by omega), Bool.or_false,
    Bool.eq_false_iff]
  intro hends
  obtain ⟨b, hb, hbreak⟩ := ascii_of_endsLine hends
  obtain rfl : x.toUInt8 = b := Option.some.inj (hbyte.symm.trans hb)
  rw [hnat] at hbreak
  rw [Code.isLineEnd, Bool.or_eq_false_iff, beq_eq_false_iff_ne, beq_eq_false_iff_ne] at hline
  rcases hbreak with hfeed | hreturn
  . exact hline.2 hfeed
  . exact hline.1 hreturn

namespace Scan

/--
A scan on a character of a line that is in no substitution with braces and behind no backslash.
-/
structure InLine (doc : Document) (s : Scan) : Prop where
  onText : s.cursor.OnText doc
  inBraces : s.inBraces = false
  escaped : s.escaped = false
  inner : s.cursor.atLineStart = false

theorem step_of_leave (hbraces : s.inBraces = false) (hleave : s.leave settings.keywords = u)
    (hend : u.cursor.atLineEnd = false) (hescaped : u.escaped = false) (hinner : u.cursor.atLineStart = false) :
    s.step settings false = u.stepInState := by
  unfold step stepInLine
  simp only [hleave, hbraces, hend, hescaped, hinner, Bool.false_and, Bool.false_eq_true, if_false]

/--
The style of the token that a plain character starts.
-/
def plainStyle? (c : Cursor) (commandExpected : Bool) : Option Style :=
  if c.cur.isDigit || (c.sees '.' && c.next.isDigit) then
    some Style.number
  else if isWordStart c.cur && commandExpected then
    some Style.identifier
  else if c.sees '-' && !c.next.isDigit then
    some Style.modifier
  else
    none

theorem start_of_isPlain (hplain : isPlain s.cursor.cur = true) :
    s.start = (s.withCursor ((plainStyle? s.cursor s.commandExpected).elim s.cursor s.cursor.setState), .forward) := by
  have hnone : "\x7b\x7d[]();$\"".toList.all (fun y => !isPlain y.toNat) = true := by decide
  have hsees : ∀ y ∈ "\x7b\x7d[]();$\"".toList, s.cursor.sees y = false := by
    intro y hy
    rw [Bool.eq_false_iff, Cursor.sees, Code.is, beq_iff_eq.ne]
    rintro heq
    have hother := List.all_eq_true.mp hnone y hy
    rw [← heq, hplain] at hother
    cases hother
  have hquote : (s.cursor.cur == Code.quote) = false := hsees '"' (by decide)
  have hbrackets : s.cursor.cur.isOneOf "[]" = false := by
    show (s.cursor.sees '[' || (s.cursor.sees ']' || false)) = false
    rw [hsees '[' (by decide), hsees ']' (by decide)]
    rfl
  have hparens : s.cursor.cur.isOneOf "()" = false := by
    show (s.cursor.sees '(' || (s.cursor.sees ')' || false)) = false
    rw [hsees '(' (by decide), hsees ')' (by decide)]
    rfl
  unfold start plainStyle?
  dsimp only
  simp only [hquote, hsees '\x7b' (by decide), hsees '\x7d' (by decide), hbrackets, hparens, hsees ';' (by decide),
    hsees '$' (by decide), Bool.false_eq_true, if_false]
  split
  . rfl
  . split
    . rfl
    . split
      . rfl
      . rfl

theorem start_of_close (hcur : s.cursor.cur = 0x7D) :
    s.start = ({ s with cursor := s.cursor.setState Style.operator, depth := s.depth - 1 }, .forward) := by
  unfold start
  dsimp only
  simp only [Cursor.sees, hcur]
  rfl

theorem start_of_open (hcur : s.cursor.cur = 0x7B) :
    s.start = ({ s with cursor := s.cursor.setState Style.operator, commandExpected := true, depth := s.depth + 1 }, .forward) := by
  unfold start
  dsimp only
  simp only [Cursor.sees, hcur]
  rfl

theorem enter_of_default (hcur : s.cursor.sees '#' = false ∧ (s.cursor.cur == Code.backslash) = false)
    (hstate : s.cursor.state = Style.default) :
    s.enter = { s with visible := s.visible || !s.cursor.cur.isSpace }.start := by
  unfold enter startComment
  simp only [hcur, hstate, Bool.false_eq_true, if_false, beq_self_eq_true, if_true]

theorem enter_of_token (hcur : s.cursor.sees '#' = false ∧ (s.cursor.cur == Code.backslash) = false)
    (hstate : s.cursor.state ≠ Style.default) :
    s.enter = ({ s with visible := s.visible || !s.cursor.cur.isSpace }, .forward) := by
  have hstate : (s.cursor.state == Style.default) = false := Bool.eq_false_iff.mpr (beq_iff_eq.not.mpr hstate)
  unfold enter startComment
  simp only [hcur, hstate, Bool.false_eq_true, if_false]

/--
What a character of a word makes of a scan, or of one whose token it has ended.
-/
def goOn (s : Scan) (c : Cursor) : Scan :=
  { s with cursor := c.forward, visible := true }

/--
The cursor with the token that a plain character starts.
-/
def startPlain (s : Scan) : Cursor :=
  (plainStyle? s.cursor s.commandExpected).elim s.cursor s.cursor.setState

section Enter

theorem ne_of_isPlain {x y : Code} (hx : isPlain x = true) (hy : isPlain y = false) : (x == y) = false := by
  rw [Bool.eq_false_iff, beq_iff_eq.ne]
  rintro rfl
  exact absurd (hx.symm.trans hy) (by decide)

theorem isSpace_of_isPlain {x : Code} (hx : isPlain x = true) : x.isSpace = false := by
  simp only [isPlain, Bool.and_eq_true, Bool.not_eq_true'] at hx
  exact hx.1.2

theorem enter_of_isPlain (hplain : isPlain s.cursor.cur = true) :
    after s.enter = s.goOn (if s.cursor.state = Style.default then s.startPlain else s.cursor) := by
  have hcur : s.cursor.sees '#' = false ∧ (s.cursor.cur == Code.backslash) = false :=
    ⟨ne_of_isPlain hplain (by decide), ne_of_isPlain hplain (by decide)⟩
  have hseen : (s.visible || !s.cursor.cur.isSpace) = true := by
    rw [isSpace_of_isPlain hplain]
    exact Bool.or_true _
  split
  . next hstate =>
    rw [enter_of_default hcur hstate, hseen, start_of_isPlain (by exact hplain)]
    rfl
  . next hstate =>
    rw [enter_of_token hcur hstate, hseen]
    rfl

theorem enter_of_close (hclose : s.cursor.cur = 0x7D) :
    (after s.enter).cursor = (if s.cursor.state = Style.default then s.cursor.setState Style.operator else s.cursor).forward := by
  have hcur : s.cursor.sees '#' = false ∧ (s.cursor.cur == Code.backslash) = false := by
    rw [Cursor.sees, hclose]
    decide
  split
  . next hstate =>
    rw [enter_of_default hcur hstate, start_of_close (by exact hclose)]
    rfl
  . next hstate =>
    rw [enter_of_token hcur hstate]
    rfl

/--
What is painted stays where a token starts.
-/
theorem painted_enter (hcur : isPlain s.cursor.cur = true ∨ s.cursor.cur = 0x7D) {x : Style}
    (h : s.cursor.pen.Painted i x) : (after s.enter).cursor.pen.Painted i x := by
  rcases hcur with hplain | hclose
  . rw [enter_of_isPlain hplain, goOn, forward_pen]
    split
    . unfold startPlain
      cases plainStyle? s.cursor s.commandExpected with
      | none => exact h
      | some style => exact h.colourTo _ _
    . exact h
  . rw [enter_of_close hclose, forward_pen]
    split
    . exact h.colourTo _ _
    . exact h

end Enter

/--
The open token is a number, or none: what stands there is no word.
-/
structure Loose (doc : Document) (i : Nat) (s : Scan) : Prop extends s.InLine doc where
  segment_le : s.cursor.pen.segment ≤ i
  lt_pos : i < s.cursor.pos
  state : s.cursor.state = Style.default ∨ s.cursor.state = Style.number
  commandExpected : s.commandExpected = false

/--
The open token is a word that starts at the byte `i`.
-/
structure InWord (doc : Document) (i : Nat) (s : Scan) : Prop extends s.InLine doc where
  segment : s.cursor.pen.segment = i
  lt_pos : i < s.cursor.pos
  state : s.cursor.state = Style.identifier ∨ s.cursor.state = Style.modifier

theorem InWord.state_ne (h : s.InWord doc i) {style : Style} (hne : style ≠ Style.identifier ∧ style ≠ Style.modifier) :
    s.cursor.state ≠ style := by
  rcases h.state with hstate | hstate
  . rw [hstate]
    exact hne.1.symm
  . rw [hstate]
    exact hne.2.symm

theorem InLine.goOn (h : s.InLine doc) {c : Cursor} (hc : c.OnText doc) (hpos : c.pos ≤ doc.size) (hend : c.atLineEnd = false) :
    (s.goOn c).InLine doc where
  onText := hc.forward hpos
  inBraces := h.inBraces
  escaped := h.escaped
  inner := (atLineStart_forward (hc.more_iff.mpr hpos)).trans hend

section Leave

variable (hbraces : s.inBraces = false)
include hbraces

theorem leave_of_between (hstate : s.cursor.state = Style.default ∨ s.cursor.state = Style.operator) (keywords : Keywords) :
    s.leave keywords
      = { s with commandExpected := s.commandExpected && (s.cursor.cur.isSpace || isWordStart s.cursor.cur) } := by
  unfold leave
  dsimp only
  rw [if_neg (by rw [hbraces]; decide), if_pos]
  rcases hstate with hstate | hstate
  . rw [hstate]
    rfl
  . rw [hstate]
    rfl

theorem leave_of_number (hstate : s.cursor.state = Style.number) (hcommand : s.commandExpected = false) (keywords : Keywords) :
    s.leave keywords = s := by
  unfold leave
  dsimp only
  rw [if_neg (by rw [hbraces]; decide), if_neg (by rw [hstate]; decide), if_neg (by rw [hstate]; decide),
    if_neg]
  rw [hstate, hcommand, show (Style.number == Style.identifier || Style.number == Style.modifier || false) = false from rfl,
    Bool.and_false]
  exact Bool.false_ne_true

theorem leave_of_word (hstate : s.cursor.state = Style.identifier ∨ s.cursor.state = Style.modifier) (keywords : Keywords) :
    s.leave keywords = if isWord s.cursor.cur then s else s.leaveWord keywords := by
  have hword : (s.cursor.state == Style.identifier || s.cursor.state == Style.modifier) = true := by
    rcases hstate with hstate | hstate
    . rw [hstate]
      rfl
    . rw [hstate]
      rfl
  have hother : (s.cursor.state == Style.default || s.cursor.state == Style.operator) = false
      ∧ (s.cursor.state == Style.substitution) = false := by
    rcases hstate with hstate | hstate
    . rw [hstate]
      decide
    . rw [hstate]
      decide
  unfold leave
  simp only [hbraces, hword, hother, Bool.false_eq_true, if_false, Bool.true_or, Bool.and_true]
  cases isWord s.cursor.cur with
  | true => rfl
  | false => rfl

end Leave

theorem stepInState_of_number (h : s.cursor.state = Style.number) :
    s.stepInState = (if isNumber s.cursor.cur then s else s.withCursor (s.cursor.setState Style.default)).enter := by
  unfold stepInState
  dsimp only
  rw [h]
  rfl

theorem stepInState_of_operator (h : s.cursor.state = Style.operator) :
    s.stepInState = (s.withCursor (s.cursor.setState Style.default)).enter := by
  unfold stepInState
  dsimp only
  rw [h]
  rfl

theorem stepInState_of_ne
    (h : s.cursor.state ≠ Style.inQuote ∧ s.cursor.state ≠ Style.number ∧ s.cursor.state ≠ Style.operator) :
    s.stepInState = s.enter := by
  unfold stepInState
  dsimp only
  split
  . next hstate => exact absurd hstate h.1
  . next hstate => exact absurd hstate h.2.1
  . next hstate => exact absurd hstate h.2.2
  . rfl

theorem Loose.leave (h : s.Loose doc i) (keywords : Keywords) : s.leave keywords = s := by
  rcases h.state with hstate | hstate
  . have hcommand : (s.commandExpected && (s.cursor.cur.isSpace || isWordStart s.cursor.cur)) = s.commandExpected := by
      rw [h.commandExpected, Bool.false_and]
    rw [leave_of_between h.inBraces (.inl hstate), hcommand]
  . exact leave_of_number h.inBraces hstate h.commandExpected keywords

/--
Where the open token ends, its bytes are painted with its style.
-/
theorem Loose.painted (h : s.Loose doc i) (hi : i < doc.size) (style : Style) :
    ∃ x, x ≠ Style.expand ∧ (s.cursor.setState style).pen.Painted i x := by
  refine ⟨s.cursor.state, ?_, Pen.painted_colourTo h.onText.settled.wellFormed h.segment_le h.lt_pos ?_ _⟩
  . rcases h.state with hstate | hstate
    . rw [hstate]
      decide
    . rw [hstate]
      decide
  . exact Nat.lt_of_lt_of_eq hi h.onText.size_eq.symm

section Step

variable (hend : s.cursor.atLineEnd = false) (hin : s.cursor.pos < doc.size)
include hend hin

theorem Loose.step (h : s.Loose doc i) (hplain : isPlain s.cursor.cur = true) (settings : Settings) :
    (∃ x, x ≠ Style.expand ∧ (s.advance settings).cursor.pen.Painted i x)
      ∨ (s.advance settings).Loose doc i ∧ (s.advance settings).cursor.pos = s.cursor.pos + s.cursor.width := by
  have hlt := h.lt_pos
  have hpos : s.cursor.forward.pos = s.cursor.pos + s.cursor.width := pos_forward (h.onText.more_iff.mpr (Nat.le_of_lt hin))
  have hstay : s.advance settings = s.goOn s.cursor → (s.advance settings).Loose doc i
      ∧ (s.advance settings).cursor.pos = s.cursor.pos + s.cursor.width := by
    rintro heq
    rw [heq]
    refine ⟨⟨h.toInLine.goOn h.onText (Nat.le_of_lt hin) hend, ?_, ?_, ?_, h.commandExpected⟩, hpos⟩
    . rw [goOn, forward_pen]
      exact h.segment_le
    . rw [goOn, hpos]
      exact Nat.lt_add_right _ hlt
    . rw [goOn, state_forward (h.onText.more_iff.mpr (Nat.le_of_lt hin))]
      exact h.state
  have hstep : s.advance settings = after s.stepInState := by
    rw [advance, step_of_leave h.inBraces (h.leave _) hend h.escaped h.inner]
  rw [hstep] at hstay ⊢
  -- The byte is painted where a token starts behind it, or where its number ends; else it stays in the open token.
  rcases h.state with hstate | hstate
  . rw [stepInState_of_ne (by rw [hstate]; decide), enter_of_isPlain hplain, if_pos hstate, startPlain] at hstay ⊢
    cases hstyle : plainStyle? s.cursor s.commandExpected with
    | none =>
      rw [hstyle] at hstay
      exact .inr (hstay rfl)
    | some style =>
      obtain ⟨x, hx, hpainted⟩ := h.painted (by omega) style
      refine .inl ⟨x, hx, ?_⟩
      rw [goOn, forward_pen]
      exact hpainted
  . rw [stepInState_of_number hstate] at hstay ⊢
    cases hnumber : isNumber s.cursor.cur with
    | true =>
      rw [hnumber, if_pos rfl, enter_of_isPlain hplain, if_neg (by rw [hstate]; decide)] at hstay
      rw [if_pos rfl, enter_of_isPlain hplain, if_neg (by rw [hstate]; decide)]
      exact .inr (hstay rfl)
    | false =>
      obtain ⟨x, hx, hpainted⟩ := h.painted (by omega) Style.default
      rw [if_neg Bool.false_ne_true]
      refine .inl ⟨x, hx, painted_enter (.inl ?_) hpainted⟩
      exact hplain

theorem Loose.close (h : s.Loose doc i) (hclose : s.cursor.cur = 0x7D) (settings : Settings) :
    ∃ x, x ≠ Style.expand ∧ (s.advance settings).cursor.pen.Painted i x := by
  have hlt := h.lt_pos
  rw [advance, step_of_leave h.inBraces (h.leave _) hend h.escaped h.inner]
  rcases h.state with hstate | hstate
  . obtain ⟨x, hx, hpainted⟩ := h.painted (by omega) Style.operator
    rw [stepInState_of_ne (by rw [hstate]; decide), enter_of_close hclose, if_pos hstate, forward_pen]
    exact ⟨x, hx, hpainted⟩
  . obtain ⟨x, hx, hpainted⟩ := h.painted (by omega) Style.default
    rw [stepInState_of_number hstate, if_neg (by rw [hclose]; decide)]
    refine ⟨x, hx, painted_enter (.inr ?_) hpainted⟩
    exact hclose

theorem InWord.step (h : s.InWord doc i) (hplain : isPlain s.cursor.cur = true) (hword : isWord s.cursor.cur = true)
    (settings : Settings) : s.advance settings = s.goOn s.cursor ∧ (s.goOn s.cursor).InWord doc i
      ∧ (s.goOn s.cursor).cursor.pos = s.cursor.pos + s.cursor.width
      ∧ (s.goOn s.cursor).cursor.state = s.cursor.state := by
  have hmore := h.onText.more_iff.mpr (Nat.le_of_lt hin)
  have hlt := h.lt_pos
  have hleave : s.leave settings.keywords = s := by rw [leave_of_word h.inBraces h.state, if_pos hword]
  have hne : s.cursor.state ≠ Style.inQuote ∧ s.cursor.state ≠ Style.number ∧ s.cursor.state ≠ Style.operator :=
    ⟨h.state_ne (by decide), h.state_ne (by decide), h.state_ne (by decide)⟩
  have hpos : s.cursor.forward.pos = s.cursor.pos + s.cursor.width := pos_forward hmore
  refine ⟨?_, ⟨h.toInLine.goOn h.onText (Nat.le_of_lt hin) hend, ?_, ?_, ?_⟩, hpos, state_forward hmore⟩
  . rw [advance, step_of_leave h.inBraces hleave hend h.escaped h.inner, stepInState_of_ne hne, enter_of_isPlain hplain,
      if_neg (h.state_ne (by decide))]
  . rw [goOn, forward_pen]
    exact h.segment
  . rw [goOn, hpos]
    exact Nat.lt_add_right _ hlt
  . rw [goOn, state_forward hmore]
    exact h.state

/--
The style of the word that ends in front of the cursor, if a list has it.
-/
def endingStyle? (keywords : Keywords) (s : Scan) : Option Style :=
  if s.inCommentBlock || s.commandExpected then
    userStyle? keywords (s.cursor.token 99) <|> commandStyle? keywords s.cursor (s.cursor.token 99)
  else
    none

theorem InWord.close (h : s.InWord doc i) (hcur : isPlain s.cursor.cur = true ∨ s.cursor.cur = 0x7D)
    (hword : isWord s.cursor.cur = false) (settings : Settings) {j : Nat} (hle : i ≤ j) (hlt : j < s.cursor.pos) :
    (s.advance settings).cursor.pen.Painted j ((s.endingStyle? settings.keywords).getD s.cursor.state) := by
  have hleave : s.leave settings.keywords = s.leaveWord settings.keywords := by
    rw [leave_of_word h.inBraces h.state, hword, if_neg Bool.false_ne_true]
  have hquote : (s.cursor.state == Style.inQuote) = false := beq_eq_false_iff_ne.mpr (h.state_ne (by decide))
  have hafter : (s.leaveWord settings.keywords).cursor
      = (s.cursor.changeState ((s.endingStyle? settings.keywords).getD s.cursor.state)).setState Style.default := by
    unfold leaveWord
    simp only [hquote, Bool.false_eq_true, if_false]
    rfl
  have hescaped : (s.leaveWord settings.keywords).escaped = false := h.escaped
  have hpainted : (s.leaveWord settings.keywords).cursor.pen.Painted j
      ((s.endingStyle? settings.keywords).getD s.cursor.state) := by
    rw [hafter]
    have hin : j < s.cursor.doc.size := by
      rw [h.onText.size_eq]
      omega
    exact Pen.painted_colourTo h.onText.settled.wellFormed (Nat.le_trans (Nat.le_of_eq h.segment) hle) hlt hin _
  have hstate : (s.leaveWord settings.keywords).cursor.state = Style.default := by
    rw [hafter]
    rfl
  rw [advance, step_of_leave h.inBraces hleave (by rw [hafter]; exact hend) hescaped (by rw [hafter]; exact h.inner),
    stepInState_of_ne (by rw [hstate]; decide)]
  apply painted_enter _ hpainted
  rw [hafter]
  exact hcur

end Step

theorem ascii_of_isPlain {x : Code} (h : isPlain x = true) : x < 0x80 ∧ x.isLineEnd = false := by
  simp only [isPlain, Bool.and_eq_true, Bool.not_eq_true'] at h
  refine ⟨of_decide_eq_true h.1.1, ?_⟩
  cases hline : x.isLineEnd with
  | false => rfl
  | true =>
    rw [Code.isLineEnd, Bool.or_eq_true, beq_iff_eq, beq_iff_eq] at hline
    rcases hline with rfl | rfl
    . exact absurd h.1.2 (by decide)
    . exact absurd h.1.2 (by decide)

/--
The first character of a word decides whether it is read as a word at all: as one that can be a command, or as one with a dash in
front.
-/
inductive Begins (doc : Document) (i : Nat) (s t : Scan) : Prop where
  | command : isWordStart s.cursor.cur = true → t.InWord doc i → t.cursor.state = Style.identifier → t.commandExpected = true
    → Begins doc i s t
  | dashed : s.cursor.sees '-' = true → s.cursor.next.isDigit = false → t.InWord doc i → t.cursor.state = Style.modifier
    → t.commandExpected = false → Begins doc i s t
  | loose : isWordStart s.cursor.cur = false → (s.cursor.sees '-' && !s.cursor.next.isDigit) = false → t.Loose doc i
    → Begins doc i s t

/--
The cursor with the token that a plain character starts.
-/
structure StartsToken (doc : Document) (style : Style) (c c' : Cursor) : Prop where
  onText : c'.OnText doc
  place : c' = { c with pen := c'.pen, state := style }
  segment : c'.pen.segment = c.pos

theorem startsToken_startPlain (hc : s.cursor.OnText doc) (hin : s.cursor.pos < doc.size) (hsegment : s.cursor.pen.segment = s.cursor.pos)
    (hstate : s.cursor.state = Style.default) :
    StartsToken doc ((plainStyle? s.cursor s.commandExpected).getD Style.default) s.cursor s.startPlain := by
  unfold startPlain
  cases plainStyle? s.cursor s.commandExpected with
  | none =>
    refine ⟨hc, ?_, hsegment⟩
    rw [Option.getD_none, ← hstate]
    rfl
  | some style =>
    refine ⟨hc.setState style, rfl, ?_⟩
    show (s.cursor.pen.colourTo s.cursor.pos s.cursor.state).segment = s.cursor.pos
    have hsize : s.cursor.pen.doc.size = doc.size := hc.size_eq
    rw [Pen.segment_colourTo]
    omega

theorem plainStyle?_of_isWordStart (hplain : isPlain c.cur = true) (h : isWordStart c.cur = true) :
    plainStyle? c true = some Style.identifier := by
  have hnone : ∀ x : Nat, x < 0x80 → isWordStart x = true → Code.isDigit x = false ∧ Code.is x '.' = false := by decide
  obtain ⟨hdigit, hpoint⟩ := hnone c.cur (ascii_of_isPlain hplain).1 h
  rw [plainStyle?, hdigit, Cursor.sees, hpoint, h]
  rfl

theorem plainStyle?_of_dash (hdash : c.sees '-' = true) (hnext : c.next.isDigit = false) :
    plainStyle? c false = some Style.modifier := by
  have hcur : c.cur = 0x2D := beq_iff_eq.mp hdash
  unfold plainStyle?
  simp only [Cursor.sees, hcur, hnext]
  rfl

theorem plainStyle?_of_other (hother : (c.sees '-' && !c.next.isDigit) = false) :
    plainStyle? c false = none ∨ plainStyle? c false = some Style.number := by
  unfold plainStyle?
  rw [hother, Bool.and_false, if_neg Bool.false_ne_true, if_neg Bool.false_ne_true]
  split
  . exact .inr rfl
  . exact .inl rfl

/--
The scan behind an operator after which a command is expected.
-/
def behindOperator (s : Scan) : Scan :=
  { s with cursor := s.cursor.setState Style.default, commandExpected := isWordStart s.cursor.cur }

section BehindOperator

variable (h : s.InLine doc) (hend : s.cursor.atLineEnd = false) (hin : s.cursor.pos < doc.size)
include h

theorem InLine.startsToken_behindOperator (hin : s.cursor.pos < doc.size) :
    StartsToken doc ((plainStyle? s.cursor (isWordStart s.cursor.cur)).getD Style.default) s.behindOperator.cursor
      s.behindOperator.startPlain := by
  refine startsToken_startPlain (s := s.behindOperator) (h.onText.setState _) hin ?_ rfl
  have hsize : s.cursor.pen.doc.size = doc.size := h.onText.size_eq
  have hle := h.onText.settled.segment_le
  show (s.cursor.pen.colourTo s.cursor.pos s.cursor.state).segment = s.cursor.pos
  rw [Pen.segment_colourTo]
  omega

include hend

theorem InLine.advance_of_operator (hplain : isPlain s.cursor.cur = true) (hstate : s.cursor.state = Style.operator)
    (hcommand : s.commandExpected = true) (settings : Settings) :
    s.advance settings = s.behindOperator.goOn s.behindOperator.startPlain := by
  have hexpected : (s.commandExpected && (s.cursor.cur.isSpace || isWordStart s.cursor.cur)) = isWordStart s.cursor.cur := by
    rw [hcommand, isSpace_of_isPlain hplain]
    rfl
  have hleave := leave_of_between h.inBraces (.inr hstate) settings.keywords
  rw [hexpected] at hleave
  have hstep : s.step settings false = s.behindOperator.enter := by
    rw [step_of_leave h.inBraces hleave hend h.escaped h.inner, stepInState_of_operator (by exact hstate)]
    rfl
  rw [advance, hstep, enter_of_isPlain (by exact hplain)]
  exact congrArg s.behindOperator.goOn (if_pos rfl)

include hin

/--
The character behind a brace.
-/
theorem InLine.begins (hplain : isPlain s.cursor.cur = true) (hstate : s.cursor.state = Style.operator)
    (hcommand : s.commandExpected = true) (settings : Settings) :
    Begins doc s.cursor.pos s (s.advance settings) ∧ (s.advance settings).cursor.pos = s.cursor.pos + s.cursor.width
      ∧ (s.advance settings).inCommentBlock = s.inCommentBlock := by
  have hopened := h.startsToken_behindOperator hin
  have hwidth := h.onText.settled.width_pos
  have hmore : s.behindOperator.startPlain.more = true := by
    rw [hopened.place]
    exact h.onText.more_iff.mpr (Nat.le_of_lt hin)
  rw [h.advance_of_operator hend hplain hstate hcommand]
  generalize ht : s.behindOperator.goOn s.behindOperator.startPlain = t
  have hpos : t.cursor.pos = s.cursor.pos + s.cursor.width := by
    rw [← ht, Scan.goOn, pos_forward hmore, hopened.place]
    rfl
  have hline : t.InLine doc := by
    have hbehind : s.behindOperator.InLine doc := ⟨h.onText.setState _, h.inBraces, h.escaped, h.inner⟩
    rw [← ht]
    apply hbehind.goOn hopened.onText
    . rw [hopened.place]
      exact Nat.le_of_lt hin
    . rw [hopened.place]
      exact hend
  have hsegment : t.cursor.pen.segment = s.cursor.pos := by
    rw [← ht, Scan.goOn, forward_pen, hopened.segment]
    rfl
  have hnew : t.cursor.state = (plainStyle? s.cursor (isWordStart s.cursor.cur)).getD Style.default := by
    rw [← ht, Scan.goOn, state_forward hmore, hopened.place]
  have hexpected : t.commandExpected = isWordStart s.cursor.cur := by
    rw [← ht]
    rfl
  refine ⟨?_, hpos, by rw [← ht]; rfl⟩
  cases hword : isWordStart s.cursor.cur with
  | true =>
    rw [hword, plainStyle?_of_isWordStart hplain hword] at hnew
    exact .command hword ⟨hline, hsegment, by omega, .inl hnew⟩ hnew (hexpected.trans hword)
  | false =>
    rw [hword] at hnew
    cases hother : s.cursor.sees '-' && !s.cursor.next.isDigit with
    | true =>
      obtain ⟨hdash, hnext⟩ := Bool.and_eq_true_iff.mp hother
      rw [Bool.not_eq_true'] at hnext
      rw [plainStyle?_of_dash hdash hnext] at hnew
      exact .dashed hdash hnext ⟨hline, hsegment, by omega, .inr hnew⟩ hnew (hexpected.trans hword)
    | false =>
      refine .loose hword hother ⟨hline, Nat.le_of_eq hsegment, by omega, ?_, hexpected.trans hword⟩
      rcases plainStyle?_of_other hother with hstyle | hstyle
      . rw [hstyle] at hnew
        exact .inl hnew
      . rw [hstyle] at hnew
        exact .inr hnew

end BehindOperator

theorem state_after (r : Scan × Flow) : (after r).cursor.state = r.1.cursor.state := by
  obtain ⟨s, flow⟩ := r
  cases flow with
  | forward => exact s.cursor.state_forwardBy 1
  | again => rfl
  | stop => rfl

/--
What a step makes of a scan that takes an opening brace for an operator.
-/
def openBrace (s : Scan) (c : Cursor) (opened : Opened) : Scan :=
  { s with cursor := c.setState Style.operator, opened, visible := true, commandExpected := true, depth := s.depth + 1 }

section OpenBrace

variable (hopen : s.cursor.cur = 0x7B)
include hopen

theorem enter_of_open : s.enter = if s.cursor.state = Style.default then (s.openBrace s.cursor s.opened, .forward)
    else ({ s with visible := true }, .forward) := by
  have hcur : s.cursor.sees '#' = false ∧ (s.cursor.cur == Code.backslash) = false := by
    rw [Cursor.sees, hopen]
    decide
  have hseen : (s.visible || !s.cursor.cur.isSpace) = true := by
    rw [hopen]
    exact Bool.or_true _
  split
  . next hstate =>
    rw [enter_of_default hcur hstate, hseen, start_of_open (by exact hopen)]
    rfl
  . next hstate => rw [enter_of_token hcur hstate, hseen]

theorem stepInState_of_open (hoperator : s.stepInState.1.cursor.state = Style.operator) :
    ∃ c : Cursor, (c = s.cursor ∨ c = s.cursor.setState Style.default)
      ∧ s.stepInState = (s.openBrace c s.opened, .forward) := by
  -- In quotes, a brace opens nothing. A number and an operator end in front of it, and all other tokens go over it.
  by_cases hquote : s.cursor.state = Style.inQuote
  . have hstep : s.stepInState = ({ s with escaped := false }, .forward) := by
      unfold stepInState stepInQuote
      dsimp only
      rw [hquote, hopen]
      rfl
    rw [hstep, hquote] at hoperator
    cases hoperator
  . by_cases hbetween : s.cursor.state = Style.number ∨ s.cursor.state = Style.operator
    . have hstep : s.stepInState = (s.withCursor (s.cursor.setState Style.default)).enter := by
        rcases hbetween with hstate | hstate
        . rw [stepInState_of_number hstate, if_neg (by rw [hopen]; decide)]
        . exact stepInState_of_operator hstate
      refine ⟨_, .inr rfl, ?_⟩
      rw [hstep, enter_of_open (by exact hopen)]
      exact if_pos rfl
    . obtain ⟨hnumber, hstate⟩ := not_or.mp hbetween
      have hstep := stepInState_of_ne ⟨hquote, hnumber, hstate⟩
      rw [hstep, enter_of_open hopen] at hoperator ⊢
      split at hoperator
      . next hdefault => exact ⟨_, .inl rfl, if_pos hdefault⟩
      . exact absurd hoperator hstate

theorem stepInLine_of_open (h : s.cursor.OnText doc) (hoperator : s.stepInLine.1.cursor.state = Style.operator) :
    ∃ (c : Cursor) (opened : Opened), c.OnText doc ∧ c = { s.cursor with pen := c.pen, state := c.state }
      ∧ s.stepInLine = (s.openBrace c opened, .forward) := by
  have hplace : ∀ (c₀ : Cursor) {c : Cursor}, c₀.OnText doc → c₀ = { s.cursor with pen := c₀.pen, state := c₀.state }
      → c = c₀ ∨ c = c₀.setState Style.default → c.OnText doc ∧ c = { s.cursor with pen := c.pen, state := c.state } := by
    rintro c₀ c htext hsame (rfl | rfl)
    . exact ⟨htext, hsame⟩
    . refine ⟨htext.setState _, ?_⟩
      rw [hsame]
      rfl
  unfold stepInLine at hoperator ⊢
  dsimp only at hoperator ⊢
  split at hoperator
  . next hstart =>
    rw [if_pos hstart]
    cases hopened : s.opened with
    | comment =>
      rw [hopened] at hoperator
      cases hoperator
    | quote =>
      rw [hopened] at hoperator
      dsimp only at hoperator ⊢
      obtain ⟨c, hc, hstep⟩ := stepInState_of_open (by exact hopen) hoperator
      obtain ⟨htext, hsame⟩ := hplace (s.cursor.setState Style.inQuote) (h.setState _) rfl hc
      exact ⟨c, .nothing, htext, hsame, hstep⟩
    | nothing =>
      rw [hopened] at hoperator
      dsimp only at hoperator ⊢
      obtain ⟨c, hc, hstep⟩ := stepInState_of_open (by exact hopen) hoperator
      obtain ⟨htext, hsame⟩ := hplace (s.cursor.setState Style.default) (h.setState _) rfl hc
      exact ⟨c, .nothing, htext, hsame, hstep⟩
  . next hstart =>
    rw [if_neg hstart]
    obtain ⟨c, hc, hstep⟩ := stepInState_of_open hopen hoperator
    obtain ⟨htext, hsame⟩ := hplace s.cursor h rfl hc
    exact ⟨c, s.opened, htext, hsame, hstep⟩

/--
Behind a brace that is taken for an operator, a command is expected.
-/
theorem behind_brace (h : s.cursor.OnText doc) (hescaped : s.escaped = false)
    (hoperator : (s.advance settings).cursor.state = Style.operator) :
    (s.advance settings).InLine doc ∧ (s.advance settings).cursor.pos = s.cursor.pos + 1
      ∧ (s.advance settings).commandExpected = true ∧ (s.advance settings).inCommentBlock = s.inCommentBlock := by
  have hinner : s.cursor.cur.isInner = true := by
    rw [hopen]
    decide
  obtain ⟨hin, hforward⟩ := h.pos_forward_of_isInner hinner
  have hend := h.settled.atLineEnd_of_isInner hinner
  rw [advance, state_after] at hoperator
  cases hbraces : s.inBraces with
  | true =>
    -- In a substitution, the brace has no meaning.
    have hleave : s.leave settings.keywords = s.withCursor (s.cursor.setState Style.bracedSubstitution) := by
      rw [leave_of_inBraces hbraces, leaveBraces, Cursor.sees, hopen, if_neg (by decide)]
    have hstep : s.step settings false = (s.withCursor (s.cursor.setState Style.bracedSubstitution), .forward) := by
      unfold step
      simp only [hleave, hbraces, Bool.true_and]
      rw [if_pos]
      show (!s.cursor.atLineEnd) = true
      rw [hend]
      rfl
    rw [hstep] at hoperator
    cases hoperator
  | false =>
    have hleft := left_leave (h.onLine (Nat.le_of_lt hin)) hbraces settings.keywords
    generalize hu : s.leave settings.keywords = u at hleft
    have huEnd : u.cursor.atLineEnd = false := by rw [hleft.place, hend]
    have huEscaped : u.escaped = false := by rw [hleft.rest, hescaped]
    have hstep : s.step settings false = u.stepInLine := by
      unfold step
      simp only [hu, hbraces, huEnd, huEscaped, Bool.false_and, Bool.false_eq_true, if_false]
    rw [hstep] at hoperator
    obtain ⟨c, opened, hc, hsame, hline⟩ :=
      stepInLine_of_open (by rw [hleft.place, hopen]) hleft.cursor.onText hoperator
    have hset := hc.setState Style.operator
    have hpos : (c.setState Style.operator).pos = s.cursor.pos := by
      show c.pos = s.cursor.pos
      rw [hsame, hleft.place]
    have hcur : (c.setState Style.operator).cur.isInner = true := by
      show c.cur.isInner = true
      rw [hsame, hleft.place]
      exact hinner
    have hadvance : s.advance settings = (u.openBrace c opened).withCursor (c.setState Style.operator).forward := by
      rw [advance, hstep, hline]
      rfl
    rw [hadvance, hleft.rest]
    have hle : (c.setState Style.operator).pos ≤ doc.size := Nat.le_of_lt (by rw [hpos]; exact hin)
    have hbehind : (c.setState Style.operator).forward.pos = s.cursor.pos + 1 := by
      rw [(hset.pos_forward_of_isInner hcur).2, hpos]
    refine ⟨⟨hset.forward hle, hbraces, hescaped, ?_⟩, hbehind, rfl, rfl⟩
    exact (atLineStart_forward (hset.more_iff.mpr hle)).trans (hset.settled.atLineEnd_of_isInner hcur)

end OpenBrace

end Scan

end Highlight.Tcl
