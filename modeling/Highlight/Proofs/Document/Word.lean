import Highlight.Document.Basic
import Highlight.Proofs.Text.Lossy

/-!
Words of ASCII characters, which stand in a text as the bytes of the same numbers.
-/

namespace Highlight

def IsAscii (word : List Char) : Prop :=
  ∀ x ∈ word, x.toNat < 0x80

namespace IsAscii

variable {x : Char} {word : List Char} {text : String}

theorem of_cons (h : IsAscii (x :: word)) : x.toNat < 0x80 ∧ IsAscii word :=
  ⟨h x List.mem_cons_self, fun y hy => h y (List.mem_cons_of_mem x hy)⟩

theorem toNat_toUInt8 (h : x.toNat < 0x80) : x.toUInt8.toNat = x.toNat := by
  show x.val.toNat % 256 = x.val.toNat
  apply Nat.mod_eq_of_lt
  exact Nat.lt_trans h (by decide)

theorem utf8EncodeChar_eq (h : x.toNat < 0x80) : String.utf8EncodeChar x = [x.toUInt8] := by
  apply String.utf8EncodeChar_eq_singleton
  rw [Char.utf8Size_eq_one_iff, UInt32.le_iff_toNat_le]
  exact Nat.le_of_lt_succ h

theorem encode_eq (h : IsAscii text.toList) : Utf8.encode text = text.toList.map Char.toUInt8 := by
  unfold Utf8.encode
  revert h
  induction text.toList with
  | nil => exact fun _ => rfl
  | cons x word ih =>
    intro h
    obtain ⟨hx, hword⟩ := h.of_cons
    rw [List.flatMap_cons, utf8EncodeChar_eq hx, ih hword]
    rfl

theorem charsLossy_eq (h : IsAscii word) : Utf8.charsLossy (word.map Char.toUInt8) = word := by
  induction word with
  | nil => simp [Utf8.charsLossy]
  | cons x word ih =>
    obtain ⟨hx, hword⟩ := h.of_cons
    have hnext : Utf8.nextLossy x.toUInt8 (word.map Char.toUInt8) = (x, 0) := by
      rw [Utf8.nextLossy, if_pos (UInt8.lt_iff_toNat_lt.mpr (by rw [toNat_toUInt8 hx]; exact hx)), toNat_toUInt8 hx, Char.ofNat_toNat]
    rw [List.map_cons, Utf8.charsLossy_cons, hnext, List.drop_zero, ih hword]

theorem utf8ByteSize_eq (h : IsAscii text.toList) : text.utf8ByteSize = text.toList.length := by
  have hencode := congrArg List.length (encode_eq h)
  rw [List.length_map, Utf8.encode] at hencode
  rw [← hencode, ← String.ofList_toList (s := text), String.utf8ByteSize, String.toByteArray_ofList, List.utf8Encode]
  simp

end IsAscii

namespace Utf8

section Encode

variable {x : Char} {n : Nat}

/--
The bytes of a character that is encoded with two of them.
-/
theorem utf8EncodeChar_of_two (hx : x.toNat = n) (hle : 0x80 ≤ n) (hlt : n < 0x800) :
    (String.utf8EncodeChar x).map UInt8.toNat = [n / 64 + 0xC0, n % 64 + 0x80] := by
  have hval : x.val.toNat = n := hx
  simp only [String.utf8EncodeChar, hval]
  rw [if_neg (by omega), if_pos (by omega)]
  simp only [List.map_cons, List.map_nil, UInt8.toNat_ofNat', List.cons.injEq, and_true]
  omega

theorem utf8EncodeChar_of_three (hx : x.toNat = n) (hle : 0x800 ≤ n) (hlt : n < 0x10000) :
    (String.utf8EncodeChar x).map UInt8.toNat = [n / 4096 + 0xE0, n / 64 % 64 + 0x80, n % 64 + 0x80] := by
  have hval : x.val.toNat = n := hx
  simp only [String.utf8EncodeChar, hval]
  rw [if_neg (by omega), if_neg (by omega), if_pos (by omega)]
  simp only [List.map_cons, List.map_nil, UInt8.toNat_ofNat', List.cons.injEq, and_true]
  omega

theorem utf8EncodeChar_of_four (hx : x.toNat = n) (hle : 0x10000 ≤ n) :
    (String.utf8EncodeChar x).map UInt8.toNat
      = [n / 262144 + 0xF0, n / 4096 % 64 + 0x80, n / 64 % 64 + 0x80, n % 64 + 0x80] := by
  have hval : x.val.toNat = n := hx
  have hvalid : n < 0xD800 ∨ 0xDFFF < n ∧ n < 0x110000 := hx ▸ x.valid
  simp only [String.utf8EncodeChar, hval]
  rw [if_neg (by omega), if_neg (by omega), if_neg (by omega)]
  simp only [List.map_cons, List.map_nil, UInt8.toNat_ofNat', List.cons.injEq, and_true]
  omega

end Encode

variable {x c : Char} {text : String}

/--
The bytes of a character that is not ASCII are none of the ASCII bytes.
-/
theorem toNat_of_mem_utf8EncodeChar {b : UInt8} (h : b ∈ String.utf8EncodeChar c) : b.toNat = c.toNat ∨ 0x80 ≤ b.toNat := by
  rcases Nat.lt_or_ge c.toNat 0x80 with hascii | hlarge
  . rw [IsAscii.utf8EncodeChar_eq hascii, List.mem_singleton] at h
    rw [h]
    exact .inl (IsAscii.toNat_toUInt8 hascii)
  . right
    have hmem : b.toNat ∈ (String.utf8EncodeChar c).map UInt8.toNat := List.mem_map_of_mem h
    rcases Nat.lt_or_ge c.toNat 0x800 with htwo | hlarger
    . rw [utf8EncodeChar_of_two rfl hlarge htwo] at hmem
      simp only [List.mem_cons, List.not_mem_nil, or_false] at hmem
      omega
    . rcases Nat.lt_or_ge c.toNat 0x10000 with hthree | hfour
      . rw [utf8EncodeChar_of_three rfl hlarger hthree] at hmem
        simp only [List.mem_cons, List.not_mem_nil, or_false] at hmem
        omega
      . rw [utf8EncodeChar_of_four rfl hfour] at hmem
        simp only [List.mem_cons, List.not_mem_nil, or_false] at hmem
        omega

theorem eq_of_mem_utf8EncodeChar (hx : x.toNat < 0x80) (h : x.toNat ∈ (String.utf8EncodeChar c).map UInt8.toNat) : c = x := by
  obtain ⟨b, hb, heq⟩ := List.mem_map.mp h
  rcases toNat_of_mem_utf8EncodeChar hb with hsame | hlarge
  . exact Char.toNat_inj.mp (hsame.symm.trans heq)
  . omega

theorem map_utf8EncodeChar_ne_nil (c : Char) : (String.utf8EncodeChar c).map UInt8.toNat ≠ [] := by
  rw [ne_eq, List.map_eq_nil_iff, ← List.length_eq_zero_iff, String.length_utf8EncodeChar]
  exact Nat.ne_of_gt c.utf8Size_pos

/--
An ASCII character stands in the bytes of a text as often as in the text.
-/
theorem count_encode (hx : x.toNat < 0x80) : ((encode text).map UInt8.toNat).count x.toNat = text.toList.count x := by
  unfold encode
  induction text.toList with
  | nil => rfl
  | cons c chars ih =>
    rw [List.flatMap_cons, List.map_append, List.count_append, ih, List.count_cons, Nat.add_comm]
    congr 1
    split
    . next heq =>
      rw [beq_iff_eq.mp heq, IsAscii.utf8EncodeChar_eq hx, List.map_singleton, IsAscii.toNat_toUInt8 hx, List.count_singleton_self]
    . next hne =>
      rw [List.count_eq_zero]
      intro hmem
      exact hne (beq_iff_eq.mpr (eq_of_mem_utf8EncodeChar hx hmem))

theorem head?_encode (hx : x.toNat < 0x80) (h : ((encode text).map UInt8.toNat).head? = some x.toNat) :
    text.toList.head? = some x := by
  unfold encode at h
  cases hchars : text.toList with
  | nil =>
    rw [hchars] at h
    cases h
  | cons c chars =>
    rw [hchars, List.flatMap_cons, List.map_append, List.head?_append, List.head?_eq_some_head (map_utf8EncodeChar_ne_nil c),
      Option.some_or, Option.some.injEq] at h
    have hc : c = x := eq_of_mem_utf8EncodeChar hx (h ▸ List.head_mem _)
    rw [hc, List.head?_cons]

theorem getLast?_encode (hx : x.toNat < 0x80) (h : ((encode text).map UInt8.toNat).getLast? = some x.toNat) :
    text.toList.getLast? = some x := by
  unfold encode at h
  rcases List.eq_nil_or_concat text.toList with hchars | ⟨chars, c, hchars⟩
  . rw [hchars] at h
    cases h
  . rw [hchars, List.concat_eq_append, List.flatMap_append, List.map_append, List.flatMap_singleton, List.getLast?_append,
      List.getLast?_eq_some_getLast (map_utf8EncodeChar_ne_nil c), Option.some_or, Option.some.injEq] at h
    have hc : c = x := eq_of_mem_utf8EncodeChar hx (h ▸ List.getLast_mem _)
    rw [hchars, hc, List.concat_eq_append, List.getLast?_concat]

end Utf8

namespace Document

variable {doc : Document} {pos : Nat}

theorem holdsAt_append (doc : Document) (pos : Nat) (bytes bytes' : List UInt8) :
    doc.holdsAt pos (bytes ++ bytes') = (doc.holdsAt pos bytes && doc.holdsAt (pos + bytes.length) bytes') := by
  induction bytes generalizing pos with
  | nil => simp [holdsAt]
  | cons b bytes ih =>
    rw [List.cons_append, holdsAt, holdsAt, ih, Bool.and_assoc, List.length_cons, Nat.add_right_comm, Nat.add_assoc]

theorem holdsAt_cons {b : UInt8} {bytes : List UInt8} :
    doc.holdsAt pos (b :: bytes) = true ↔ doc.byteAt? pos = some b ∧ doc.holdsAt (pos + 1) bytes = true := by
  rw [holdsAt, Bool.and_eq_true, beq_iff_eq]

theorem holdsAt_iff {bytes : List UInt8} : doc.holdsAt pos bytes = true ↔ bytes <+: doc.text.toList.drop pos := by
  induction bytes generalizing pos with
  | nil => exact ⟨fun _ => List.nil_prefix, fun _ => rfl⟩
  | cons b bytes ih =>
    rw [holdsAt_cons, ih]
    constructor
    . rintro ⟨hb, hrest⟩
      rw [Utf8.drop_eq_cons hb]
      exact List.cons_prefix_cons.mpr ⟨rfl, hrest⟩
    . intro h
      have hb := Utf8.getElem?_of_startsWith h
      rw [Utf8.drop_eq_cons hb] at h
      exact ⟨hb, (List.cons_prefix_cons.mp h).2⟩

/--
The bytes that stand at a position are read there.
-/
theorem bytes_of_holdsAt {bytes : List UInt8} (h : doc.holdsAt pos bytes = true) :
    (doc.bytes pos (pos + bytes.length)).toList = bytes := by
  rw [Document.bytes, Array.toList_extract, List.extract_eq_take_drop, Nat.add_sub_cancel_left]
  exact (List.prefix_iff_eq_take.mp (holdsAt_iff.mp h)).symm

end Document

end Highlight
