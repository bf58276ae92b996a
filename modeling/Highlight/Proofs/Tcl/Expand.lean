import Highlight.Proofs.Tcl.Visits
import Highlight.Proofs.Tcl.Words

/-!
Words between two braces that touch them.
-/

namespace Highlight.Tcl

open Cursor LineIndex

variable {doc : Document} {keywords : Keywords} {c : Cursor} {s : Scan} {rest : List Char} {i : Nat}

/--
A word that can be a command.
-/
def isCommandWord (word : List Char) : Bool :=
  match word with
  | [] => false
  | first :: rest => isWordStart first.toNat && rest.all (isWord ·.toNat)

/--
A word with a dash in front, which is no number.
-/
def isDashedWord (word : List Char) : Bool :=
  match word with
  | [] => false
  | first :: rest => Code.is first.toNat '-' && !Code.isDigit (rest.headD ' ').toNat && rest.all (isWord ·.toNat)

/--
A word that only the list of words that expand has.
-/
structure ListedToExpand (keywords : Keywords) (word : String) : Prop where
  nonempty : word ≠ ""
  plain : ∀ x ∈ word.toList, isPlain x.toNat = true
  short : word.utf8ByteSize ≤ 99
  listed : (keywords.list 4).contains word = true
  unlisted : ∀ index, index < 9 → index ≠ 4 → (keywords.list index).contains word = false

namespace Scan

/--
A word expands only if a closing brace ends it.
-/
theorem endingStyle?_ne_expand (hopen : s.cursor.sees '\x7d' = false) (keywords : Keywords) :
    s.endingStyle? keywords ≠ some Style.expand := by
  have huser : ∀ token, userStyle? keywords token ≠ some Style.expand := by
    intro token
    unfold userStyle?
    dsimp only
    repeat' split
    all_goals decide
  have hcommand : ∀ token, commandStyle? keywords s.cursor token ≠ some Style.expand := by
    intro token
    unfold commandStyle?
    dsimp only
    rw [hopen, Bool.and_false]
    repeat' split
    all_goals first | decide | contradiction
  unfold endingStyle?
  split
  . intro hstyle
    cases hfound : userStyle? keywords (s.cursor.token 99) with
    | some style =>
      rw [hfound] at hstyle
      exact huser _ (hfound.trans hstyle)
    | none =>
      rw [hfound] at hstyle
      exact hcommand _ hstyle
  . exact nofun

/--
Behind its brace and in front of the other one, a word that is listed so expands where a command is expected, and in a block of
comment lines.
-/
theorem endingStyle?_of_listed {word : String} (hlisted : ListedToExpand keywords word) (htoken : s.cursor.token 99 = word)
    (hbrace : openedByBrace s.cursor word = true) (hclose : s.cursor.sees '\x7d' = true) :
    s.endingStyle? keywords = if s.inCommentBlock || s.commandExpected then some Style.expand else none := by
  have hnone (index : Nat) (hindex : index < 9) (hne : index ≠ 4) : (keywords.list index).contains word = false :=
    hlisted.unlisted index hindex hne
  have huser : userStyle? keywords word = none := by
    unfold userStyle?
    simp only [hnone 5 (by decide) (by decide), hnone 6 (by decide) (by decide), hnone 7 (by decide) (by decide),
      hnone 8 (by decide) (by decide), Bool.false_eq_true, if_false]
  have hcommand : commandStyle? keywords s.cursor word = some Style.expand := by
    unfold commandStyle?
    simp only [hnone 0 (by decide) (by decide), hnone 1 (by decide) (by decide), hnone 2 (by decide) (by decide),
      hnone 3 (by decide) (by decide), hbrace, hlisted.listed, hclose, Bool.false_eq_true, if_false, Bool.and_self, if_true]
  rw [endingStyle?, htoken, huser, hcommand]
  rfl

section Run

/--
A cursor on a character of a word, or on the brace behind it.
-/
theorem sight_of_holdsAt (h : c.OnText doc) {b : Char} {bytes : List UInt8} (hb : isPlain b.toNat = true ∨ b = '\x7d')
    (hholds : doc.holdsAt c.pos (b.toUInt8 :: bytes) = true) :
    c.cur = b.toNat ∧ c.width = 1 ∧ c.atLineEnd = false ∧ c.pos < doc.size := by
  have hbyte := (Document.holdsAt_cons.mp hholds).1
  rcases hb with hplain | rfl
  . obtain ⟨hascii, hline⟩ := ascii_of_isPlain hplain
    exact sight_of_ascii h hascii hline hbyte
  . exact sight_of_ascii h (by decide) (by decide) hbyte

theorem Loose.exists_painted (hcomes : Comes keywords doc s) (h : s.Loose doc i) (hplain : ∀ b ∈ rest, isPlain b.toNat = true)
    (hholds : doc.holdsAt s.cursor.pos (rest.map Char.toUInt8 ++ [0x7D]) = true) :
    ∃ t, Comes keywords doc t ∧ ∃ x, x ≠ Style.expand ∧ t.cursor.pen.Painted i x := by
  induction rest generalizing s with
  | nil =>
    obtain ⟨hcur, _, hend, hin⟩ := sight_of_holdsAt h.onText (.inr rfl) hholds
    exact ⟨_, comes_advance hcomes h.onText hin, h.close hend hin hcur _⟩
  | cons b rest ih =>
    have hb := hplain b List.mem_cons_self
    obtain ⟨hcur, hwidth, hend, hin⟩ := sight_of_holdsAt h.onText (.inl hb) hholds
    have hnext := comes_advance hcomes h.onText hin
    rcases h.step hend hin (by rw [hcur]; exact hb) (.read keywords doc.options) with hpainted | ⟨hloose, hpos⟩
    . exact ⟨_, hnext, hpainted⟩
    . refine ih hnext hloose (fun b' hb' => hplain b' (List.mem_cons_of_mem b hb')) ?_
      rw [hpos, hwidth]
      exact (Document.holdsAt_cons.mp hholds).2

/--
A word goes on up to its brace, unless a character that is none of a word ends it before.
-/
theorem InWord.exists_end (hcomes : Comes keywords doc s) (h : s.InWord doc i) (hplain : ∀ b ∈ rest, isPlain b.toNat = true)
    (hholds : doc.holdsAt s.cursor.pos (rest.map Char.toUInt8 ++ [0x7D]) = true) :
    ∃ t, Comes keywords doc t
      ∧ (rest.all (isWord ·.toNat) = true ∧ t.InWord doc i ∧ t.cursor.pos = s.cursor.pos + rest.length
          ∧ t.cursor.state = s.cursor.state ∧ t.commandExpected = s.commandExpected ∧ t.inCommentBlock = s.inCommentBlock
        ∨ rest.all (isWord ·.toNat) = false ∧ ∃ x, x ≠ Style.expand ∧ t.cursor.pen.Painted i x) := by
  induction rest generalizing s with
  | nil => exact ⟨s, hcomes, .inl ⟨rfl, h, rfl, rfl, rfl, rfl⟩⟩
  | cons b rest ih =>
    have hb := hplain b List.mem_cons_self
    obtain ⟨hcur, hwidth, hend, hin⟩ := sight_of_holdsAt h.onText (.inl hb) hholds
    have hnext := comes_advance hcomes h.onText hin
    have hplainCur : isPlain s.cursor.cur = true := by rw [hcur]; exact hb
    rw [List.all_cons, ← hcur]
    cases hword : isWord s.cursor.cur with
    | true =>
      obtain ⟨hadvance, hin', hpos, hstate⟩ := h.step hend hin hplainCur hword (.read keywords doc.options)
      rw [hadvance] at hnext
      rw [hwidth] at hpos
      obtain ⟨t, ht, hresult⟩ := ih hnext hin' (fun b' hb' => hplain b' (List.mem_cons_of_mem b hb'))
        (by rw [hpos]; exact (Document.holdsAt_cons.mp hholds).2)
      rw [hpos, hstate, Nat.add_assoc, Nat.add_comm 1] at hresult
      exact ⟨t, ht, hresult⟩
    | false =>
      refine ⟨_, hnext, .inr ⟨rfl, _, ?_, h.close hend hin (.inl hplainCur) hword _ (Nat.le_refl i) h.lt_pos⟩⟩
      -- What ends the word here is no brace, so it does not expand.
      have hbrace : s.cursor.sees '\x7d' = false := ne_of_isPlain hplainCur (by decide)
      have hnone := endingStyle?_ne_expand hbrace keywords
      show (s.endingStyle? keywords).getD s.cursor.state ≠ Style.expand
      cases hstyle : s.endingStyle? keywords with
      | some style =>
        rw [hstyle] at hnone
        exact fun heq => hnone (congrArg some heq)
      | none => exact h.state_ne (by decide)

/--
The word between its two braces is read as it stands there.
-/
theorem InWord.token_eq {word : String} (h : s.InWord doc i) (hascii : IsAscii word.toList) (hshort : word.toList.length ≤ 99)
    (hpos : s.cursor.pos = i + word.toList.length) (hholds : doc.holdsAt i (word.toList.map Char.toUInt8) = true) :
    s.cursor.token 99 = word := by
  have hbytes := Document.bytes_of_holdsAt hholds
  rw [List.length_map, ← hpos] at hbytes
  have hread : s.cursor.doc.bytes i s.cursor.pos = doc.bytes i s.cursor.pos := by
    rw [Document.bytes, Document.bytes, h.onText.source.text]
  rw [Cursor.token, h.segment, Nat.min_eq_left (by omega), hread, Utf8.decodeLossy, hbytes, hascii.charsLossy_eq,
    String.ofList_toList]

theorem InWord.openedByBrace (h : s.InWord doc i) {word : String} (hascii : IsAscii word.toList) {brace : Nat}
    (hi : i = brace + 1) (hpos : s.cursor.pos = i + word.toList.length) (hbrace : doc.byteAt? brace = some 0x7B) :
    openedByBrace s.cursor word = true := by
  have hbyte : s.cursor.doc.byteAt brace 0 = 0x7B := by
    rw [Document.byteAt, h.onText.source.text, show doc.text[brace]? = some 0x7B from hbrace]
    rfl
  rw [Scan.openedByBrace, hascii.utf8ByteSize_eq, hpos, hi, show brace + 1 + word.toList.length - (word.toList.length + 1) = brace by omega,
    hbyte, Bool.and_eq_true, decide_eq_true_eq]
  exact ⟨by omega, rfl⟩

end Run

end Scan

/--
What `\x7bword\x7d` consists of.
-/
theorem matchesAt_braced {word : String} (hascii : IsAscii word.toList) {brace : Nat}
    (h : doc.matchesAt brace ("\x7b" ++ word ++ "\x7d") = true) :
    doc.byteAt? brace = some 0x7B ∧ doc.holdsAt (brace + 1) (word.toList.map Char.toUInt8 ++ [0x7D]) = true := by
  have hlist : ("\x7b" ++ word ++ "\x7d").toList = '\x7b' :: word.toList ++ ['\x7d'] := by
    rw [String.toList_append, String.toList_append]
    rfl
  have hall : IsAscii ("\x7b" ++ word ++ "\x7d").toList := by
    rw [hlist]
    intro x hx
    rcases List.mem_append.mp hx with hx | hx
    . rcases List.mem_cons.mp hx with rfl | hx
      . decide
      . exact hascii x hx
    . rw [List.mem_singleton.mp hx]
      decide
  rw [Document.matchesAt, hall.encode_eq, hlist, List.map_append, List.map_cons] at h
  exact Document.holdsAt_cons.mp h

/--
A word is painted at its closing brace, if it has not been before.
-/
theorem Scan.InWord.painted_word (hcomes : Comes keywords doc s) (h : s.InWord doc i) {word : String}
    (hlisted : ListedToExpand keywords word) {brace : Nat} (hi : i = brace + 1) (hpos : s.cursor.pos = i + word.toList.length)
    (hbrace : doc.byteAt? brace = some 0x7B)
    (hholds : doc.holdsAt i (word.toList.map Char.toUInt8 ++ [0x7D]) = true) :
    ∃ t, Comes keywords doc t ∧ ∀ j, i ≤ j → j < s.cursor.pos → t.cursor.pen.Painted j
      (if s.inCommentBlock || s.commandExpected then Style.expand else s.cursor.state) := by
  have hascii : IsAscii word.toList := fun x hx => (Scan.ascii_of_isPlain (hlisted.plain x hx)).1
  rw [Document.holdsAt_append, Bool.and_eq_true, List.length_map, ← hpos] at hholds
  obtain ⟨hcur, _, hend, hin⟩ := Scan.sight_of_holdsAt h.onText (.inr rfl) hholds.2
  have hshort : word.toList.length ≤ 99 := hascii.utf8ByteSize_eq ▸ hlisted.short
  have hstyle := Scan.endingStyle?_of_listed hlisted (h.token_eq hascii hshort hpos hholds.1)
    (h.openedByBrace hascii hi hpos hbrace) (beq_iff_eq.mpr hcur)
  refine ⟨_, Scan.comes_advance hcomes h.onText hin, fun j hle hlt => ?_⟩
  have hpainted := h.close hend hin (.inr hcur) (by rw [hcur]; decide) (.read keywords doc.options) hle hlt
  rw [show (Settings.read keywords doc.options).keywords = keywords from rfl, hstyle] at hpainted
  split at hpainted
  . next hexpected =>
    rw [if_pos hexpected]
    exact hpainted
  . next hexpected =>
    rw [if_neg hexpected]
    exact hpainted

/--
What becomes of a word behind its first character.
-/
theorem Scan.InWord.exists_painted (hcomes : Comes keywords doc s) (h : s.InWord doc i) {word : String} {first : Char}
    (hlisted : ListedToExpand keywords word) (hlist : word.toList = first :: rest) {brace : Nat} (hi : i = brace + 1)
    (hpos : s.cursor.pos = i + 1) (hbrace : doc.byteAt? brace = some 0x7B)
    (hholds : doc.holdsAt i (word.toList.map Char.toUInt8 ++ [0x7D]) = true) :
    ∃ t, Comes keywords doc t
      ∧ if rest.all (isWord ·.toNat) && (s.inCommentBlock || s.commandExpected) then
          ∀ j, i ≤ j → j < i + word.toList.length → t.cursor.pen.Painted j Style.expand
        else
          ∃ x, x ≠ Style.expand ∧ t.cursor.pen.Painted i x := by
  have hrest : ∀ b ∈ rest, isPlain b.toNat = true :=
    fun b hb => hlisted.plain b (by rw [hlist]; exact List.mem_cons_of_mem first hb)
  have hholdsRest : doc.holdsAt s.cursor.pos (rest.map Char.toUInt8 ++ [0x7D]) = true := by
    rw [hlist] at hholds
    rw [hpos]
    exact (Document.holdsAt_cons.mp hholds).2
  obtain ⟨t, ht, ⟨hall, hword, htpos, hstate, hcommand, hblock⟩ | ⟨hall, hpainted⟩⟩ := h.exists_end hcomes hrest hholdsRest
  . have hend : t.cursor.pos = i + word.toList.length := by
      rw [htpos, hpos, hlist, List.length_cons]
      omega
    obtain ⟨t', ht', hpainted⟩ := hword.painted_word ht hlisted hi hend hbrace hholds
    rw [hall, Bool.true_and, ← hblock, ← hcommand]
    refine ⟨t', ht', ?_⟩
    split
    . next hexpected =>
      intro j hle hlt
      have := hpainted j hle (by omega)
      rwa [if_pos hexpected] at this
    . next hexpected =>
      have hfirst := hpainted i (Nat.le_refl i) hword.lt_pos
      rw [if_neg hexpected] at hfirst
      exact ⟨_, hword.state_ne (by decide), hfirst⟩
  . rw [hall]
    exact ⟨t, ht, hpainted⟩

/--
The character behind the first one of a word.
-/
theorem isDigit_next (h : c.OnText doc) (hwidth : c.width = 1) (hplain : ∀ b ∈ rest, isPlain b.toNat = true)
    (hholds : doc.holdsAt (c.pos + 1) (rest.map Char.toUInt8 ++ [0x7D]) = true) :
    c.next.isDigit = Code.isDigit (rest.headD ' ').toNat := by
  have hnext : ∀ {b : UInt8}, doc.byteAt? (c.pos + 1) = some b → b.toNat < 0x80 → c.next = b.toNat := by
    intro b hb hascii
    rw [h.settled.next_eq, hwidth, h.decodeAt_eq, Document.decodeAt, doc.encoding.decodeAt_of_ascii hb hascii]
  cases rest with
  | nil =>
    rw [hnext (Document.holdsAt_cons.mp hholds).1 (by decide)]
    decide
  | cons b rest =>
    have hascii := (Scan.ascii_of_isPlain (hplain b List.mem_cons_self)).1
    have hnat := IsAscii.toNat_toUInt8 hascii
    rw [hnext (Document.holdsAt_cons.mp hholds).1 (by rw [hnat]; exact hascii), hnat]
    rfl

/--
Whether a word is painted as one that expands. The scan stands on its first character.
-/
theorem Scan.InLine.exists_painted (hcomes : Comes keywords doc s) (h : s.InLine doc) (hstate : s.cursor.state = Style.operator)
    (hcommand : s.commandExpected = true) {word : String} (hlisted : ListedToExpand keywords word) {brace : Nat}
    (hpos : s.cursor.pos = brace + 1) (hbrace : doc.byteAt? brace = some 0x7B)
    (hholds : doc.holdsAt s.cursor.pos (word.toList.map Char.toUInt8 ++ [0x7D]) = true) :
    ∃ t, Comes keywords doc t
      ∧ if isCommandWord word.toList || s.inCommentBlock && isDashedWord word.toList then
          ∀ j, s.cursor.pos ≤ j → j < s.cursor.pos + word.toList.length → t.cursor.pen.Painted j Style.expand
        else
          ∃ x, x ≠ Style.expand ∧ t.cursor.pen.Painted s.cursor.pos x := by
  cases hlist : word.toList with
  | nil => exact absurd (String.toList_eq_nil_iff.mp hlist) hlisted.nonempty
  | cons first rest =>
    have hfirst : isPlain first.toNat = true := hlisted.plain first (by rw [hlist]; exact List.mem_cons_self)
    have hrest : ∀ b ∈ rest, isPlain b.toNat = true :=
      fun b hb => hlisted.plain b (by rw [hlist]; exact List.mem_cons_of_mem first hb)
    have hword := hholds
    rw [hlist] at hword
    obtain ⟨hcur, hwidth, hend, hin⟩ := sight_of_holdsAt h.onText (.inl hfirst) hword
    have hdigit := isDigit_next h.onText hwidth hrest (Document.holdsAt_cons.mp hword).2
    obtain ⟨hbegins, hsecond, hblock⟩ := h.begins hend hin (by rw [hcur]; exact hfirst) hstate hcommand (.read keywords doc.options)
    have hnext := comes_advance hcomes h.onText hin
    generalize s.advance (.read keywords doc.options) = t at *
    rw [hwidth] at hsecond
    cases hbegins with
    | command hstart hin _ hexpected =>
      have hread := hin.exists_painted hnext hlisted hlist hpos hsecond hbrace hholds
      rw [hcur] at hstart
      have hdash : Code.is first.toNat '-' = false := by
        rw [Bool.eq_false_iff, Code.is, beq_iff_eq.ne]
        rintro heq
        rw [heq] at hstart
        cases hstart
      rw [isCommandWord, isDashedWord, hstart, hdash]
      rw [hexpected, hlist] at hread
      simpa using hread
    | dashed hdash hnumber hin _ hexpected =>
      have hread := hin.exists_painted hnext hlisted hlist hpos hsecond hbrace hholds
      rw [Cursor.sees, hcur] at hdash
      have hstart : isWordStart first.toNat = false := by
        rw [beq_iff_eq.mp hdash]
        decide
      rw [isCommandWord, isDashedWord, hstart, hdash, ← hdigit, hnumber]
      rw [hexpected, hblock, hlist] at hread
      simpa [and_comm] using hread
    | loose hstart hother hloose =>
      rw [Cursor.sees, hcur, hdigit] at hother
      rw [hcur] at hstart
      obtain ⟨v, hv, hpainted⟩ := hloose.exists_painted hnext hrest (by rw [hsecond]; exact (Document.holdsAt_cons.mp hword).2)
      refine ⟨v, hv, ?_⟩
      rw [isCommandWord, isDashedWord, hstart, hother]
      simpa using hpainted

/--
In a text that is coloured from its start, where a brace is taken for an operator and a listed word and a closing brace touch it, the
word gets the style of words that expand if it can be a command: it starts with a letter or an underscore, and consists of letters,
digits, underscores and colons. In a block of comment lines, it can also have a dash in front. No other word gets it.
-/
theorem style_expand_iff (session : Session) (hsession : session.lexer = lexer) (text : Array UInt8) (encoding : Encoding)
    (options : Options) (w : Walk) (word : String) :
    let doc := Document.fresh text encoding options
    let styled := session.colour doc 0 text.size
    let brace := w.scan.cursor.pos
    Visits session.keywords doc w → w.TakesOperator (.read session.keywords options) → ListedToExpand session.keywords word →
      doc.matchesAt brace ("\x7b" ++ word ++ "\x7d") = true →
      ((∀ i, brace < i → i ≤ brace + word.utf8ByteSize → styled.styleAt i = Style.expand)
        ↔ isCommandWord word.toList = true ∨ w.scan.inCommentBlock = true ∧ isDashedWord word.toList = true) := by
  intro doc styled brace hvisits htakes hlisted hmatch
  have hdoc : doc.WellFormed := Document.wellFormed_fresh text encoding options
  have hascii : IsAscii word.toList := fun x hx => (Scan.ascii_of_isPlain (hlisted.plain x hx)).1
  have hsize : 0 < doc.size := by
    obtain ⟨hopen, _⟩ := matchesAt_braced hascii hmatch
    exact Nat.zero_lt_of_lt (Array.getElem?_eq_some_iff.mp hopen).1
  -- A walk that is at its end takes nothing for an operator any more.
  obtain ⟨s, hcomes, rfl⟩ : ∃ s, Comes session.keywords doc s ∧ w = .ofScan s := by
    apply (hvisits.comes hdoc hsize).resolve_right
    rw [htakes.inSpan]
    exact Bool.false_ne_true
  have htext := hcomes.onText hdoc hsize
  obtain ⟨hbrace, hword⟩ := matchesAt_braced hascii hmatch
  have hoperator : (s.advance (.read session.keywords options)).cursor.state = Style.operator := by
    have hnext := htakes.operator
    rw [Walk.scan_next, htakes.inSpan] at hnext
    exact hnext
  have hopen : s.cursor.cur = 0x7B := beq_iff_eq.mp ((htext.sees_iff (x := '\x7b') (by decide)).mpr hbrace)
  obtain ⟨hline, hpos, hcommand, hblock⟩ := Scan.behind_brace hopen htext htakes.unescaped hoperator
  have hbehind : Comes session.keywords doc (s.advance (.read session.keywords options)) :=
    Scan.comes_advance hcomes htext (Array.getElem?_eq_some_iff.mp hbrace).1
  obtain ⟨t, ht, hpainted⟩ := hline.exists_painted hbehind hoperator hcommand hlisted hpos hbrace (by rw [hpos]; exact hword)
  rw [hblock, hpos] at hpainted
  rw [← Bool.and_eq_true, ← Bool.or_eq_true, hascii.utf8ByteSize_eq]
  split at hpainted
  . next hword =>
    refine iff_of_true (fun i hlt hle => ?_) hword
    exact ht.styleAt_colour hdoc hsize hsession (hpainted i hlt (by rw [Nat.add_right_comm]; exact Nat.lt_succ_of_le hle))
  . next hword =>
    -- The first character of the word is painted as something else.
    refine iff_of_false (fun hall => ?_) hword
    obtain ⟨x, hx, hfirst⟩ := hpainted
    have hlength : 0 < word.toList.length :=
      List.length_pos_iff.mpr fun hnil => hlisted.nonempty (String.toList_eq_nil_iff.mp hnil)
    have hstyle := ht.styleAt_colour hdoc hsize hsession hfirst
    exact hx (hstyle.symm.trans (hall _ (Nat.lt_succ_self _) (Nat.add_le_add_left hlength _)))

/--
An argument list, and a word with a dash in front on the line behind a comment.
-/
theorem style_expand_iff_args :
    let session := ((Session.ofLexer lexer).setKeywords 4 "args -x").1
    let list := Document.fresh "list \x7bargs\x7d".toUTF8.data .utf8 .empty
    let block := Document.fresh "#a\n\x7b-x\x7d".toUTF8.data .singleByte (.ofList [("fold.comment", "1")])
    (∀ i, 5 < i → i ≤ 9 → (session.colour list 0 11).styleAt i = Style.expand)
      ∧ ∀ i, 3 < i → i ≤ 5 → (session.colour block 0 7).styleAt i = Style.expand := by
  intro session list block
  have hargs : ListedToExpand session.keywords "args" :=
    ⟨by decide, List.all_eq_true.mp (by decide), by decide, by decide +kernel, by decide +kernel⟩
  have hdash : ListedToExpand session.keywords "-x" :=
    ⟨by decide, List.all_eq_true.mp (by decide), by decide, by decide +kernel, by decide +kernel⟩
  obtain ⟨w, hvisits, htakes, hpos⟩ : ∃ w, Visits session.keywords list w ∧ w.TakesOperator (.read session.keywords .empty)
      ∧ w.scan.cursor.pos = 5 :=
    ⟨_, visits_repeatWhile _ _ 5 9, ⟨by decide +kernel, by decide +kernel, by decide +kernel⟩, by decide +kernel⟩
  obtain ⟨w', hvisits', htakes', hpos', hblock⟩ : ∃ w, Visits session.keywords block w
      ∧ w.TakesOperator (.read session.keywords (.ofList [("fold.comment", "1")])) ∧ w.scan.cursor.pos = 3
      ∧ w.scan.inCommentBlock = true :=
    ⟨_, visits_repeatWhile _ _ 3 9, ⟨by decide +kernel, by decide +kernel, by decide +kernel⟩, by decide +kernel, by decide +kernel⟩
  have hstyles := (style_expand_iff session rfl "list \x7bargs\x7d".toUTF8.data .utf8 .empty w "args" hvisits htakes hargs
    (by rw [hpos]; decide +kernel)).mpr (.inl (by decide))
  have hstyles' := (style_expand_iff session rfl "#a\n\x7b-x\x7d".toUTF8.data .singleByte (.ofList [("fold.comment", "1")]) w' "-x"
    hvisits' htakes' hdash (by rw [hpos']; decide +kernel)).mpr (.inr ⟨hblock, by decide⟩)
  rw [hpos] at hstyles
  rw [hpos'] at hstyles'
  exact ⟨hstyles, hstyles'⟩

/--
Words that are listed to expand and do not, as they cannot be commands.
-/
theorem style_of_listed_ne_expand :
    let session := ((Session.ofLexer lexer).setKeywords 4 "* -x a-b").1
    let doc (word : String) := Document.fresh ("\x7b" ++ word ++ "\x7d").toUTF8.data .utf8 .empty
    ∀ word ∈ ["*", "-x", "a-b"], ListedToExpand session.keywords word
      ∧ (Walk.ofScan (.ofSpan ((doc word).spanOf 0 (doc word).size) (doc word))).TakesOperator (.read session.keywords .empty)
      ∧ (session.colour (doc word) 0 (doc word).size).styleAt 1 ≠ Style.expand := by
  intro session doc word hmem
  have hlisted : ∀ word ∈ ["*", "-x", "a-b"], ListedToExpand session.keywords word := by
    intro word hmem
    refine ⟨?_, List.all_eq_true.mp ?_, ?_, ?_, ?_⟩ <;> revert word
    . decide
    . decide
    . decide
    . decide +kernel
    . decide +kernel
  have htakes : ∀ word ∈ ["*", "-x", "a-b"],
      (Walk.ofScan (.ofSpan ((doc word).spanOf 0 (doc word).size) (doc word))).TakesOperator (.read session.keywords .empty) := by
    intro word hmem
    refine ⟨?_, ?_, ?_⟩ <;> revert word
    . decide +kernel
    . decide +kernel
    . decide +kernel
  refine ⟨hlisted word hmem, htakes word hmem, ?_⟩
  revert word
  decide +kernel

end Highlight.Tcl
