import Highlight.Proofs.Text.Encoding
import Highlight.Text.Utf8

/-!
What is left of bytes that are read as text: an ASCII byte is the character that it stands for, and no part of
the bytes has a shorter text.
-/

namespace Highlight.Utf8

variable {b : UInt8} {rest bytes : List UInt8}

theorem toNat_ofNat_of_lt {n : Nat} (h : n < 0xD800) : (Char.ofNat n).toNat = n := by
  have hvalid : n.isValidChar := .inl h
  rw [Char.ofNat, dif_pos hvalid]
  rfl

theorem prefix_tail (b : UInt8) (following : Nat) (rest : List UInt8) : tail b following rest <+: rest := by
  cases rest with
  | nil => exact List.nil_prefix
  | cons second rest =>
    unfold tail
    dsimp only
    split
    . exact List.cons_prefix_cons.mpr ⟨rfl, (List.takeWhile_prefix _).trans (List.take_prefix _ _)⟩
    . exact List.nil_prefix

theorem length_tail_le (b : UInt8) {following : Nat} (hfollowing : 0 < following) (rest : List UInt8) :
    (tail b following rest).length ≤ following := by
  cases rest with
  | nil => exact Nat.zero_le _
  | cons second rest =>
    unfold tail
    dsimp only
    split
    . have := (List.takeWhile_prefix (p := isContinuation) (l := rest.take (following - 1))).length_le
      have := List.length_take_le (following - 1) rest
      rw [List.length_cons]
      omega
    . exact Nat.zero_le _

/--
The second byte excludes values that need fewer bytes, surrogates, and values beyond U+10FFFF.
-/
theorem secondByteRange_spec (b : UInt8) :
    0x80 ≤ (secondByteRange b).1.toNat ∧ (secondByteRange b).2.toNat ≤ 0xBF
      ∧ (b.toNat = 0xE0 → 0xA0 ≤ (secondByteRange b).1.toNat) ∧ (b.toNat = 0xED → (secondByteRange b).2.toNat ≤ 0x9F)
      ∧ (b.toNat = 0xF0 → 0x90 ≤ (secondByteRange b).1.toNat) ∧ (b.toNat = 0xF4 → (secondByteRange b).2.toNat ≤ 0x8F) := by
  have hne : ∀ {x : UInt8}, ¬ (b == x) = true → b.toNat ≠ x.toNat := by
    intro x hx heq
    exact hx (beq_iff_eq.mpr (UInt8.toNat_inj.mp heq))
  unfold secondByteRange
  split
  . next h =>
    rw [beq_iff_eq.mp h]
    decide
  . next h1 =>
    split
    . next h =>
      rw [beq_iff_eq.mp h]
      decide
    . next h2 =>
      split
      . next h =>
        rw [beq_iff_eq.mp h]
        decide
      . next h3 =>
        split
        . next h =>
          rw [beq_iff_eq.mp h]
          decide
        . next h4 =>
          exact ⟨by decide, by decide, fun h => absurd h (hne h1), fun h => absurd h (hne h2), fun h => absurd h (hne h3),
            fun h => absurd h (hne h4)⟩

theorem mem_range_of_tail_eq_cons {following : Nat} {second : UInt8} {more : List UInt8}
    (h : tail b following rest = second :: more) :
    (secondByteRange b).1.toNat ≤ second.toNat ∧ second.toNat ≤ (secondByteRange b).2.toNat := by
  cases rest with
  | nil => cases h
  | cons x rest =>
    unfold tail at h
    dsimp only at h
    split at h
    . next hrange =>
      obtain ⟨rfl, _⟩ := List.cons_eq_cons.mp h
      rw [Bool.and_eq_true, decide_eq_true_eq, decide_eq_true_eq] at hrange
      exact ⟨UInt8.le_iff_toNat_le.mp hrange.1, UInt8.le_iff_toNat_le.mp hrange.2⟩
    . cases h

/--
The bytes behind a lead byte are continuation bytes.
-/
theorem bounds_of_mem_tail {following : Nat} {x : UInt8} (h : x ∈ tail b following rest) : 0x80 ≤ x.toNat ∧ x.toNat ≤ 0xBF := by
  cases htail : tail b following rest with
  | nil =>
    rw [htail] at h
    cases h
  | cons second more =>
    have hrange := mem_range_of_tail_eq_cons htail
    obtain ⟨hlow, hhigh, _⟩ := secondByteRange_spec b
    rw [htail] at h
    rcases List.mem_cons.mp h with rfl | hmem
    . omega
    . have hmore : more.all isContinuation = true := by
        cases rest with
        | nil => cases htail
        | cons x rest =>
          unfold tail at htail
          dsimp only at htail
          split at htail
          . obtain ⟨_, rfl⟩ := List.cons_eq_cons.mp htail
            exact List.all_takeWhile
          . cases htail
      have hcontinuation := List.all_eq_true.mp hmore x hmem
      exact isContinuation_iff.mp hcontinuation

/--
The least values that need sequences of two, three and four bytes.
-/
theorem le_utf8Size_ofNat {n : Nat} (hvalid : n.isValidChar) :
    (0x80 ≤ n → 2 ≤ (Char.ofNat n).utf8Size) ∧ (0x800 ≤ n → 3 ≤ (Char.ofNat n).utf8Size)
      ∧ (0x10000 ≤ n → 4 ≤ (Char.ofNat n).utf8Size) := by
  have hval : (Char.ofNat n).val.toNat = n := by
    rw [Char.ofNat, dif_pos hvalid]
    rfl
  unfold Char.utf8Size
  simp only [UInt32.le_iff_toNat_le, hval, UInt32.toNat_ofNatLT]
  refine ⟨fun h => ?_, fun h => ?_, fun h => ?_⟩
  all_goals
    repeat' split
    all_goals omega

theorem length_eq_two {α : Type} {entries : List α} (h : entries.length = 2) : ∃ x y, entries = [x, y] := by
  obtain ⟨x, rest, rfl⟩ := List.exists_cons_of_length_eq_add_one h
  obtain ⟨y, rfl⟩ := List.length_eq_one_iff.mp (Nat.succ.inj h)
  exact ⟨x, y, rfl⟩

theorem length_eq_three {α : Type} {entries : List α} (h : entries.length = 3) : ∃ x y z, entries = [x, y, z] := by
  obtain ⟨x, rest, rfl⟩ := List.exists_cons_of_length_eq_add_one h
  obtain ⟨y, z, rfl⟩ := length_eq_two (Nat.succ.inj h)
  exact ⟨x, y, z, rfl⟩

/--
A well-formed sequence is as long as its value needs.
-/
theorem length_le_utf8Size_of_lead {lead : Lead} {seq : List UInt8} (hlead : Lead.ofByte? b = some lead)
    (hseq : tail b lead.following rest = seq) (hlength : seq.length = lead.following) :
    lead.following + 1 ≤ (Char.ofNat (seq.foldl (fun value b => value * 64 + (b.toNat - 0x80)) lead.bits)).utf8Size := by
  have hbounds : ∀ x ∈ seq, 0x80 ≤ x.toNat ∧ x.toNat ≤ 0xBF := by
    intro x hx
    rw [← hseq] at hx
    exact bounds_of_mem_tail hx
  rcases ofByte?_eq_some_iff.mp hlead with ⟨hb, rfl⟩ | ⟨hb, rfl⟩ | ⟨hb, rfl⟩
  . obtain ⟨second, rfl⟩ := List.length_eq_one_iff.mp hlength
    have := hbounds second List.mem_cons_self
    refine (le_utf8Size_ofNat ?_).1 ?_
    . left
      show (b.toNat - 0xC0) * 64 + (second.toNat - 0x80) < 0xD800
      omega
    . show 0x80 ≤ (b.toNat - 0xC0) * 64 + (second.toNat - 0x80)
      omega
  . obtain ⟨second, third, rfl⟩ := length_eq_two hlength
    have hthird := hbounds third (by simp)
    have hsecond := mem_range_of_tail_eq_cons hseq
    obtain ⟨hlow, hhigh, hleast, hsurrogate, _, _⟩ := secondByteRange_spec b
    refine (le_utf8Size_ofNat ?_).2.1 ?_
    . show ((b.toNat - 0xE0) * 64 + (second.toNat - 0x80)) * 64 + (third.toNat - 0x80) < 0xD800
        ∨ (0xDFFF < ((b.toNat - 0xE0) * 64 + (second.toNat - 0x80)) * 64 + (third.toNat - 0x80)
          ∧ ((b.toNat - 0xE0) * 64 + (second.toNat - 0x80)) * 64 + (third.toNat - 0x80) < 0x110000)
      omega
    . show 0x800 ≤ ((b.toNat - 0xE0) * 64 + (second.toNat - 0x80)) * 64 + (third.toNat - 0x80)
      omega
  . obtain ⟨second, third, fourth, rfl⟩ := length_eq_three hlength
    have hthird := hbounds third (by simp)
    have hfourth := hbounds fourth (by simp)
    have hsecond := mem_range_of_tail_eq_cons hseq
    obtain ⟨hlow, hhigh, _, _, hleast, hlast⟩ := secondByteRange_spec b
    have hvalue : 0x10000 ≤ (((b.toNat - 0xF0) * 64 + (second.toNat - 0x80)) * 64 + (third.toNat - 0x80)) * 64
          + (fourth.toNat - 0x80)
        ∧ (((b.toNat - 0xF0) * 64 + (second.toNat - 0x80)) * 64 + (third.toNat - 0x80)) * 64 + (fourth.toNat - 0x80)
          < 0x110000 := by
      omega
    exact (le_utf8Size_ofNat (.inr ⟨by omega, hvalue.2⟩)).2.2 hvalue.1

/--
What is read first: an ASCII byte as the character that it stands for, and other bytes as a character that is no
shorter than they are.
-/
theorem nextLossy_cases (b : UInt8) (rest : List UInt8) :
    b.toNat < 0x80 ∧ nextLossy b rest = (Char.ofNat b.toNat, 0)
      ∨ 0x80 ≤ b.toNat ∧ 2 ≤ (nextLossy b rest).1.utf8Size ∧ (nextLossy b rest).2 + 1 ≤ (nextLossy b rest).1.utf8Size
        ∧ ∀ x ∈ rest.take (nextLossy b rest).2, 0x80 ≤ x.toNat := by
  have hreplaced : replacementCharacter.utf8Size = 3 := rfl
  by_cases hb : b < 0x80
  . left
    exact ⟨UInt8.lt_iff_toNat_lt.mp hb, if_pos hb⟩
  . right
    have hascii : 0x80 ≤ b.toNat := Nat.le_of_not_lt fun h => hb (UInt8.lt_iff_toNat_lt.mpr h)
    rw [nextLossy, if_neg hb]
    cases hlead : Lead.ofByte? b with
    | none =>
      exact ⟨hascii, show 2 ≤ replacementCharacter.utf8Size by decide, show 0 + 1 ≤ replacementCharacter.utf8Size by decide,
        fun x hx => absurd hx List.not_mem_nil⟩
    | some lead =>
      have hlength := length_tail_le b (following_pos_of_ofByte? hlead) rest
      have hfollowing := following_le_of_ofByte? hlead
      have hpos := following_pos_of_ofByte? hlead
      have htail : ∀ x ∈ rest.take (tail b lead.following rest).length, 0x80 ≤ x.toNat := by
        intro x hx
        rw [← List.prefix_iff_eq_take.mp (prefix_tail b lead.following rest)] at hx
        exact (bounds_of_mem_tail hx).1
      dsimp only
      split
      . next heq =>
        rw [beq_iff_eq] at heq
        have hsize := length_le_utf8Size_of_lead hlead rfl heq
        exact ⟨hascii, by dsimp only; omega, by dsimp only; omega, htail⟩
      . next hne =>
        rw [beq_iff_eq] at hne
        exact ⟨hascii, by dsimp only; omega, by dsimp only; omega, htail⟩

/--
The characters of some bytes, one after the other.
-/
theorem charsLossy_cons (b : UInt8) (rest : List UInt8) :
    charsLossy (b :: rest) = (nextLossy b rest).1 :: charsLossy (rest.drop (nextLossy b rest).2) := by
  rw [charsLossy]

/--
The number of bytes that characters take.
-/
def encodedLength (chars : List Char) : Nat :=
  match chars with
  | [] => 0
  | c :: chars => c.utf8Size + encodedLength chars

theorem length_encode (text : String) : (encode text).length = encodedLength text.toList := by
  rw [encode]
  induction text.toList with
  | nil => rfl
  | cons c chars ih => rw [List.flatMap_cons, List.length_append, ih, String.length_utf8EncodeChar, encodedLength]

theorem encodedLength_map {f : Char → Char} (hf : ∀ c, (f c).utf8Size = c.utf8Size) (chars : List Char) :
    encodedLength (chars.map f) = encodedLength chars := by
  induction chars with
  | nil => rfl
  | cons c chars ih => rw [List.map_cons, encodedLength, encodedLength, ih, hf]

/--
The text of some bytes is no shorter than they are.
-/
theorem length_le_encodedLength_charsLossy (bytes : List UInt8) : bytes.length ≤ encodedLength (charsLossy bytes) := by
  induction hlength : bytes.length using Nat.strongRecOn generalizing bytes with
  | ind length ih =>
    cases bytes with
    | nil =>
      rw [← hlength]
      exact Nat.zero_le _
    | cons b rest =>
      rw [List.length_cons] at hlength
      have hrest := ih (rest.drop (nextLossy b rest).2).length (by rw [List.length_drop]; omega) _ rfl
      rw [List.length_drop] at hrest
      rw [charsLossy_cons, encodedLength]
      rcases nextLossy_cases b rest with ⟨_, heq⟩ | ⟨_, _, hsize, _⟩
      . have := Char.utf8Size_pos (nextLossy b rest).1
        rw [heq] at this hrest ⊢
        dsimp only at *
        omega
      . omega

/--
An ASCII byte is read as the character that it stands for, whatever is in front of it.
-/
theorem mem_charsLossy_of_ascii (hb : b.toNat < 0x80) (hmem : b ∈ bytes) : Char.ofNat b.toNat ∈ charsLossy bytes := by
  induction hlength : bytes.length using Nat.strongRecOn generalizing bytes with
  | ind length ih =>
    cases bytes with
    | nil => cases hmem
    | cons first rest =>
      rw [List.length_cons] at hlength
      rw [charsLossy_cons]
      rcases nextLossy_cases first rest with ⟨_, heq⟩ | ⟨hfirst, _, _, htaken⟩
      . rw [heq]
        rcases List.mem_cons.mp hmem with rfl | hrest
        . exact List.mem_cons_self
        . exact List.mem_cons_of_mem _ (ih rest.length (by omega) hrest rfl)
      . have hrest : b ∈ rest := by
          rcases List.mem_cons.mp hmem with rfl | hrest
          . omega
          . exact hrest
        rw [← List.take_append_drop (nextLossy first rest).2 rest] at hrest
        rcases List.mem_append.mp hrest with htake | hdrop
        . have := htaken b htake
          omega
        . exact List.mem_cons_of_mem _ (ih _ (by rw [List.length_drop]; omega) hdrop rfl)

/--
The first character is ASCII only if the first byte is.
-/
theorem head?_charsLossy {c : Char} (hc : c.toNat < 0x80) :
    (charsLossy bytes).head? = some c ↔ bytes.head? = some (UInt8.ofNat c.toNat) := by
  cases bytes with
  | nil =>
    rw [charsLossy, List.head?_nil, List.head?_nil]
    exact ⟨fun h => absurd h.symm (Option.some_ne_none c), fun h => absurd h.symm (Option.some_ne_none _)⟩
  | cons b rest =>
    rw [charsLossy_cons, List.head?_cons, List.head?_cons, Option.some_inj, Option.some_inj]
    have hnat : (UInt8.ofNat c.toNat).toNat = c.toNat := UInt8.toNat_ofNat_of_lt' (Nat.lt_trans hc (by decide))
    rcases nextLossy_cases b rest with ⟨hascii, heq⟩ | ⟨hascii, hsize, _, _⟩
    . rw [heq]
      constructor
      . rintro rfl
        rw [toNat_ofNat_of_lt (Nat.lt_trans hascii (by decide)), UInt8.ofNat_toNat]
      . rintro rfl
        rw [hnat, Char.ofNat_toNat]
    . constructor
      . rintro rfl
        have hone : (nextLossy b rest).1.utf8Size = 1 := Char.utf8Size_eq_one_iff.mpr (by
          rw [UInt32.le_iff_toNat_le]
          exact Nat.le_of_lt_succ hc)
        omega
      . rintro rfl
        omega

end Highlight.Utf8
