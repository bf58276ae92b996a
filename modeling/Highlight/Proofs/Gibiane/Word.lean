import Highlight.Gibiane.Colour
import Highlight.Proofs.Cursor.Settled
import Highlight.Proofs.Text.Lossy
import Highlight.Proofs.WordList

/-!
The words of Gibiane. A token is looked up by its first 99 bytes, so what goes on from a line above is no
keyword: these bytes hold a line end, or they are more than any keyword has.
-/

namespace Highlight

theorem WordList.isBlank_of_mem_ofText {text word : String} (h : word ∈ (ofText text).words) :
    ∀ c ∈ word.toList, Blank.isBlank c = false :=
  (Blank.mem_words_iff.mp (mem_ofText.mp h)).noBlank

/--
Only letters change in lower case, and they become letters.
-/
theorem toLower_cases (c : Char) :
    c.toLower = c ∨ c.toNat < 0x80 ∧ 0x61 ≤ c.toLower.toNat ∧ c.toLower.toNat < 0x80 := by
  unfold Char.toLower
  split
  . next h =>
    right
    have hlow := UInt32.le_iff_toNat_le.mp h.1
    have hhigh := UInt32.le_iff_toNat_le.mp h.2
    have hsum : (c.val + ('a'.val - 'A'.val)).toNat = c.val.toNat + 32 := by
      rw [show 'a'.val - 'A'.val = 32 by decide, UInt32.toNat_add]
      have : 'Z'.val.toNat = 90 := rfl
      have : (32 : UInt32).toNat = 32 := rfl
      omega
    have : 'A'.val.toNat = 65 := rfl
    have : 'Z'.val.toNat = 90 := rfl
    show c.val.toNat < 0x80 ∧ 0x61 ≤ (c.val + ('a'.val - 'A'.val)).toNat ∧ (c.val + ('a'.val - 'A'.val)).toNat < 0x80
    omega
  . exact .inl rfl

theorem utf8Size_of_ascii {c : Char} (h : c.toNat < 0x80) : c.utf8Size = 1 :=
  Char.utf8Size_eq_one_iff.mpr (UInt32.le_iff_toNat_le.mpr (Nat.le_of_lt_succ h))

theorem utf8Size_toLower (c : Char) : c.toLower.utf8Size = c.utf8Size := by
  rcases toLower_cases c with heq | ⟨hascii, _, hascii'⟩
  . rw [heq]
  . rw [utf8Size_of_ascii hascii, utf8Size_of_ascii hascii']

/--
A character below the lower case letters is not the lower case of another one.
-/
theorem toLower_eq_iff {c x : Char} (hx : x.toNat < 0x61) (hlower : x.toLower = x) : c.toLower = x ↔ c = x := by
  constructor
  . rintro rfl
    rcases toLower_cases c with heq | ⟨_, hletter, _⟩
    . exact heq.symm
    . omega
  . rintro rfl
    exact hlower

namespace Gibiane

open Highlight.Utf8

/--
Keywords that can be told by the first 99 bytes of a token: in quotes, they are shorter, and they hold no line end.
-/
structure Bounded (keywords : Keywords) : Prop where
  length_lt : ∀ list ∈ keywords, ∀ word ∈ list.words, (encode word).length < 98
  not_mem : ∀ list ∈ keywords, ∀ word ∈ list.words, '\n' ∉ word.toList ∧ '\r' ∉ word.toList

/--
Lists that are read from texts have no line ends in their words.
-/
theorem bounded_of_ofText {keywords : Keywords} (htexts : ∀ list ∈ keywords, ∃ text, list = .ofText text)
    (hlength : ∀ list ∈ keywords, ∀ word ∈ list.words, (encode word).length < 98) : Bounded keywords where
  length_lt := hlength
  not_mem := by
    intro list hlist word hword
    obtain ⟨text, rfl⟩ := htexts list hlist
    have hblank := WordList.isBlank_of_mem_ofText hword
    constructor
    . intro hfeed
      exact absurd (hblank '\n' hfeed) (by decide)
    . intro hreturn
      exact absurd (hblank '\r' hreturn) (by decide)

theorem wordStyle?_eq_none {keywords : Keywords} {word : String} (h : ∀ list ∈ keywords, word ∉ list.words) :
    wordStyle? keywords word = none := by
  unfold wordStyle?
  rw [Option.map_eq_none_iff, List.find?_eq_none]
  intro entry _
  have hlist : word ∉ (keywords.list entry.2).words := by
    unfold Keywords.list
    cases hget : keywords[entry.2]? with
    | none => exact List.not_mem_nil
    | some list => exact h list (Array.mem_of_getElem? hget)
  rwa [WordList.contains_iff]

theorem getD_wordStyle?_mem (keywords : Keywords) (word : String) (style : Highlight.Style) :
    (wordStyle? keywords word).getD style ∈ style :: Style.words := by
  cases hword : wordStyle? keywords word with
  | none => exact List.mem_cons_self
  | some found =>
    obtain ⟨entry, hfind, rfl⟩ := Option.map_eq_some_iff.mp hword
    exact List.mem_cons_of_mem _ (List.fst_mem_of_mem_zipIdx (List.mem_of_find?_eq_some hfind))

theorem getD_quotedStyle?_mem (keywords : Keywords) (token : String) (style : Highlight.Style) :
    (Scan.quotedStyle? keywords token).getD style ∈ style :: Style.words := by
  unfold Scan.quotedStyle?
  split
  . split
    . exact getD_wordStyle?_mem _ _ _
    . exact List.mem_cons_self
  . exact List.mem_cons_self

/--
A byte that ends a line, or is a part of what does.
-/
def isBreak (b : UInt8) : Bool :=
  b == 0x0A || b == 0x0D

section Token

variable {keywords : Keywords} {c : Cursor} {i : Nat} {b : UInt8}

/--
The bytes of the open token that a word is looked up by.
-/
def tokenBytes (c : Cursor) : List UInt8 :=
  (c.doc.bytes c.pen.segment (min c.pos (c.pen.segment + 99))).toList

theorem toList_tokenLower (c : Cursor) : (c.tokenLower 99).toList = (charsLossy (tokenBytes c)).map Char.toLower := by
  show ((c.token 99).map Char.toLower).toList = _
  rw [String.toList_map, Cursor.token, decodeLossy, String.toList_ofList]
  rfl

theorem getElem?_tokenBytes (hi : i < 99) (hpos : c.pen.segment + i < c.pos) :
    (tokenBytes c)[i]? = c.doc.byteAt? (c.pen.segment + i) := by
  unfold tokenBytes Document.bytes Document.byteAt?
  rw [Array.getElem?_toList, Array.getElem?_extract]
  split
  . rfl
  . rw [Array.getElem?_eq_none (by omega)]

theorem tokenBytes_eq_nil (h : c.pos ≤ c.pen.segment) : tokenBytes c = [] := by
  apply List.eq_nil_of_length_eq_zero
  rw [tokenBytes, Document.bytes, Array.length_toList, Array.size_extract]
  omega

theorem length_tokenBytes (hpos : c.pen.segment + 99 ≤ c.pos) (hsize : c.pen.segment + 99 ≤ c.doc.size) :
    (tokenBytes c).length = 99 := by
  rw [Document.size] at hsize
  rw [tokenBytes, Document.bytes, Array.length_toList, Array.size_extract]
  omega

theorem head?_tokenLower (x : Char) (hx : x.toNat < 0x61) (hlower : x.toLower = x) (hpos : c.pen.segment < c.pos) :
    (c.tokenLower 99).toList.head? = some x ↔ c.doc.byteAt? c.pen.segment = some (UInt8.ofNat x.toNat) := by
  have hget := getElem?_tokenBytes (show 0 < 99 by decide) (show c.pen.segment + 0 < c.pos from hpos)
  rw [Nat.add_zero] at hget
  rw [← hget, ← List.head?_eq_getElem?, ← head?_charsLossy (Nat.lt_trans hx (by decide)), toList_tokenLower, List.head?_map,
    Option.map_eq_some_iff]
  constructor
  . rintro ⟨y, hy, heq⟩
    rwa [← (toLower_eq_iff hx hlower).mp heq]
  . intro hy
    exact ⟨x, hy, hlower⟩

/--
A word that ends with its first character, if there is one.
-/
def Ended (c : Cursor) : Prop :=
  c.pen.segment < c.pos → ∃ b, c.doc.byteAt? c.pen.segment = some b ∧ isBreak b = true

/--
A string that goes on from the line above, as far as it is known.
-/
def Carried (c : Cursor) : Prop :=
  c.pen.segment < c.pos → c.doc.byteAt? c.pen.segment ≠ some 0x27
    ∨ ∃ i b, c.pen.segment ≤ i ∧ i < c.pos ∧ c.doc.byteAt? i = some b ∧ isBreak b = true

theorem startsWithSeparator_of_ended (h : Ended c) (hpos : c.pen.segment < c.pos) :
    Scan.startsWithSeparator (c.tokenLower 99) = true := by
  obtain ⟨b, hb, hbreak⟩ := h hpos
  have hhead : ∃ x, (c.tokenLower 99).toList.head? = some x ∧ isSeparator x.toNat = true := by
    rw [isBreak, Bool.or_eq_true, beq_iff_eq, beq_iff_eq] at hbreak
    rcases hbreak with rfl | rfl
    . exact ⟨'\n', (head?_tokenLower '\n' (by decide) (by decide) hpos).mpr hb, by decide⟩
    . exact ⟨'\r', (head?_tokenLower '\r' (by decide) (by decide) hpos).mpr hb, by decide⟩
  obtain ⟨x, hx, hseparator⟩ := hhead
  unfold Scan.startsWithSeparator
  cases htoken : (c.tokenLower 99).toList with
  | nil =>
    rw [htoken] at hx
    cases hx
  | cons y rest =>
    rw [htoken, List.head?_cons, Option.some_inj] at hx
    rw [← hx] at hseparator
    exact hseparator

theorem mem_tokenLower_of_isBreak (hi : c.pen.segment ≤ i) (hshort : i < c.pen.segment + 99) (hpos : i < c.pos)
    (hb : c.doc.byteAt? i = some b) (hbreak : isBreak b = true) :
    '\n' ∈ (c.tokenLower 99).toList ∨ '\r' ∈ (c.tokenLower 99).toList := by
  have hbyte : b ∈ tokenBytes c := by
    have hget := getElem?_tokenBytes (show i - c.pen.segment < 99 by omega)
      (show c.pen.segment + (i - c.pen.segment) < c.pos by omega)
    rw [show c.pen.segment + (i - c.pen.segment) = i by omega, hb] at hget
    exact List.mem_of_getElem? hget
  rw [isBreak, Bool.or_eq_true, beq_iff_eq, beq_iff_eq] at hbreak
  rw [toList_tokenLower]
  rcases hbreak with rfl | rfl
  . exact .inl (List.mem_map.mpr ⟨'\n', mem_charsLossy_of_ascii (by decide) hbyte, by decide⟩)
  . exact .inr (List.mem_map.mpr ⟨'\r', mem_charsLossy_of_ascii (by decide) hbyte, by decide⟩)

theorem le_length_encode_tokenLower (hpos : c.pen.segment + 99 ≤ c.pos) (hsize : c.pen.segment + 99 ≤ c.doc.size) :
    99 ≤ (encode (c.tokenLower 99)).length := by
  have hlength := length_le_encodedLength_charsLossy (tokenBytes c)
  rw [length_tokenBytes hpos hsize] at hlength
  rwa [length_encode, toList_tokenLower, encodedLength_map utf8Size_toLower]

/--
What goes on from the line above is no keyword in quotes.
-/
theorem quotedStyle?_of_carried (hkeywords : Bounded keywords) (h : Carried c) :
    Scan.quotedStyle? keywords (c.tokenLower 99) = none := by
  unfold Scan.quotedStyle?
  cases htoken : (c.tokenLower 99).toList with
  | nil => rfl
  | cons x rest =>
    dsimp only
    split
    . next hquote =>
      have hx : x = '\'' := Char.toNat_inj.mp (beq_iff_eq.mp hquote)
      subst hx
      have hpos : c.pen.segment < c.pos := by
        apply Nat.lt_of_not_le
        intro hle
        rw [toList_tokenLower, tokenBytes_eq_nil hle, charsLossy] at htoken
        cases htoken
      have hfirst : c.doc.byteAt? c.pen.segment = some 0x27 :=
        (head?_tokenLower '\'' (by decide) (by decide) hpos).mp (by rw [htoken]; rfl)
      obtain ⟨i, b, hi, hi', hb, hbreak⟩ := (h hpos).resolve_left (fun hne => hne hfirst)
      apply wordStyle?_eq_none
      intro list hlist hmem
      by_cases hshort : i < c.pen.segment + 99
      . obtain ⟨hfeed, hreturn⟩ := hkeywords.not_mem list hlist _ hmem
        have hchar := mem_tokenLower_of_isBreak hi hshort hi' hb hbreak
        rw [String.toList_ofList] at hfeed hreturn
        rw [htoken, List.mem_cons, List.mem_cons] at hchar
        rcases hchar with (heq | hchar) | (heq | hchar)
        . exact absurd heq (by decide)
        . exact hfeed hchar
        . exact absurd heq (by decide)
        . exact hreturn hchar
      . have hsize : i < c.doc.size := (Array.getElem?_eq_some_iff.mp hb).1
        have hlong := le_length_encode_tokenLower (show c.pen.segment + 99 ≤ c.pos by omega) (by omega)
        have hbound := hkeywords.length_lt list hlist _ hmem
        rw [length_encode, htoken, encodedLength, show '\''.utf8Size = 1 from rfl] at hlong
        rw [length_encode, String.toList_ofList] at hbound
        omega
    . rfl

end Token

end Gibiane

end Highlight
