import Highlight.Proofs.Document.Lines

/-!
Pairs of bytes that open and close comments that nest: how many more of them open than close when a text is read from left
to right, and no byte is part of two pairs.
-/

namespace Highlight

structure Brackets where
  opener : UInt8 × UInt8
  closer : UInt8 × UInt8

namespace Brackets

/--
The number of openers minus that of closers.
-/
def balance (brackets : Brackets) : List UInt8 → Int
  | x :: y :: rest =>
    if (x, y) = brackets.opener then
      brackets.balance rest + 1
    else if (x, y) = brackets.closer then
      brackets.balance rest - 1
    else
      brackets.balance (y :: rest)
  | _ => 0

/--
Whether the pair stands at `pos`.
-/
def StandsAt (pair : UInt8 × UInt8) (doc : Document) (pos : Nat) : Prop :=
  doc.byteAt? pos = some pair.1 ∧ doc.byteAt? (pos + 1) = some pair.2

/--
Reading from `q` on, one pair after the other, comes to `p` with `depth` pairs open, and never closes more than are open.
-/
inductive Reads (brackets : Brackets) (doc : Document) (q : Nat) : Nat → Nat → Prop where
  | refl : Reads brackets doc q q 0
  | opens {p depth : Nat} : Reads brackets doc q p depth → StandsAt brackets.opener doc p → Reads brackets doc q (p + 2) (depth + 1)
  | closes {p depth : Nat} : Reads brackets doc q p (depth + 1) → ¬ StandsAt brackets.opener doc p → StandsAt brackets.closer doc p
    → Reads brackets doc q (p + 2) depth
  | skips {p depth : Nat} : Reads brackets doc q p depth → ¬ StandsAt brackets.opener doc p → ¬ StandsAt brackets.closer doc p
    → Reads brackets doc q (p + 1) depth

variable {brackets : Brackets} {doc : Document} {pair : UInt8 × UInt8} {p q r depth : Nat}

theorem bytes_eq_cons {b : UInt8} (hb : doc.byteAt? p = some b) (hlt : p < r) :
    (doc.bytes p r).toList = b :: (doc.bytes (p + 1) r).toList :=
  LineIndex.extract_eq_cons hb hlt

theorem bytes_eq_nil (h : r ≤ p ∨ doc.size ≤ p) : (doc.bytes p r).toList = [] := by
  have hempty : (doc.bytes p r).size = 0 := by
    rw [Document.bytes, Array.size_extract]
    rcases h with h | h
    . omega
    . rw [Document.size] at h
      omega
  rw [Array.eq_empty_of_size_eq_zero hempty]

theorem StandsAt.add_two_le (h : StandsAt pair doc p) : p + 2 ≤ doc.size :=
  (Array.getElem?_eq_some_iff.mp h.2).1

theorem StandsAt.bytes_eq (h : StandsAt pair doc p) (hle : p + 2 ≤ r) :
    (doc.bytes p r).toList = pair.1 :: pair.2 :: (doc.bytes (p + 2) r).toList := by
  rw [bytes_eq_cons h.1 (by omega), bytes_eq_cons h.2 (by omega)]

/--
A byte that is in no pair tells nothing.
-/
theorem balance_bytes_succ (hopener : ¬ StandsAt brackets.opener doc p) (hcloser : ¬ StandsAt brackets.closer doc p) (hlt : p < r) :
    brackets.balance (doc.bytes p r).toList = brackets.balance (doc.bytes (p + 1) r).toList := by
  cases hx : doc.byteAt? p with
  | none =>
    have hsize : doc.size ≤ p := Array.getElem?_eq_none_iff.mp hx
    rw [bytes_eq_nil (.inr hsize), bytes_eq_nil (.inr (Nat.le_succ_of_le hsize))]
  | some x =>
    rw [bytes_eq_cons hx hlt]
    cases hy : doc.byteAt? (p + 1) with
    | none =>
      rw [bytes_eq_nil (.inr (Array.getElem?_eq_none_iff.mp hy))]
      rfl
    | some y =>
      rcases Nat.lt_or_ge (p + 1) r with hin | hout
      . rw [bytes_eq_cons hy hin, balance, if_neg, if_neg]
        . intro heq
          exact hcloser (by rw [StandsAt, ← heq]; exact ⟨hx, hy⟩)
        . intro heq
          exact hopener (by rw [StandsAt, ← heq]; exact ⟨hx, hy⟩)
      . rw [bytes_eq_nil (.inl hout)]
        rfl

/--
What has been read goes into the balance as the number of open pairs.
-/
theorem Reads.balance_append (h : Reads brackets doc q p depth) (hle : p ≤ r) :
    brackets.balance (doc.bytes q r).toList = depth + brackets.balance (doc.bytes p r).toList := by
  induction h with
  | refl => omega
  | @opens p depth _ hopener ih =>
    have heq : brackets.balance (doc.bytes p r).toList = brackets.balance (doc.bytes (p + 2) r).toList + 1 := by
      rw [hopener.bytes_eq hle, balance, if_pos rfl]
    have := ih (by omega)
    omega
  | @closes p depth _ hopener hcloser ih =>
    have hne : (brackets.closer.1, brackets.closer.2) ≠ brackets.opener := by
      intro heq
      exact hopener (heq ▸ hcloser)
    have heq : brackets.balance (doc.bytes p r).toList = brackets.balance (doc.bytes (p + 2) r).toList - 1 := by
      rw [hcloser.bytes_eq hle, balance, if_neg hne, if_pos rfl]
    have := ih (by omega)
    omega
  | @skips p depth _ hopener hcloser ih =>
    rw [ih (by omega), balance_bytes_succ hopener hcloser (by omega)]

theorem Reads.balance_eq (h : Reads brackets doc q p depth) : brackets.balance (doc.bytes q p).toList = depth := by
  rw [h.balance_append (Nat.le_refl p), bytes_eq_nil (.inl (Nat.le_refl p))]
  exact Int.add_zero _

/--
An open pair takes two bytes.
-/
theorem Reads.two_mul_le (h : Reads brackets doc q p depth) : q + 2 * depth ≤ p := by
  induction h with
  | refl => omega
  | opens _ _ ih => omega
  | closes _ _ _ ih => omega
  | skips _ _ _ ih => omega

theorem Reads.two_mul_le_size (h : Reads brackets doc q p depth) : 2 * depth ≤ doc.size := by
  induction h with
  | refl => omega
  | opens h hopener _ =>
    have := h.two_mul_le
    have := hopener.add_two_le
    omega
  | closes _ _ _ ih => omega
  | skips _ _ _ ih => omega

/--
A character outside of the pairs is skipped as a whole: none of its other bytes is ASCII.
-/
theorem Reads.skipsCharacter (h : Reads brackets doc q p depth) (hsingle : ∀ page, doc.encoding ≠ .doubleByte page)
    (hascii : brackets.opener.1.toNat < 0x80 ∧ brackets.closer.1.toNat < 0x80) (hopener : ¬ StandsAt brackets.opener doc p)
    (hcloser : ¬ StandsAt brackets.closer doc p) : Reads brackets doc q (p + (doc.decodeAt p).2) depth := by
  have hnone {pair : UInt8 × UInt8} (hpair : pair.1.toNat < 0x80) {i : Nat} (hpos : 0 < i) (hi : i < (doc.decodeAt p).2) :
      ¬ StandsAt pair doc (p + i) := by
    intro hstands
    have hle := doc.encoding.decodeAt_le_of_ascii_of_single hsingle (Nat.lt_add_of_pos_right hpos) hstands.1 hpair
    rw [Document.decodeAt] at hi
    omega
  have hskips (i : Nat) (hi : i ≤ (doc.decodeAt p).2) : Reads brackets doc q (p + i) depth := by
    induction i with
    | zero => exact h
    | succ i ih =>
      rcases Nat.eq_zero_or_pos i with rfl | hpos
      . exact .skips (ih (by omega)) hopener hcloser
      . exact .skips (ih (by omega)) (hnone hascii.1 hpos hi) (hnone hascii.2 hpos hi)
  exact hskips _ (Nat.le_refl _)

end Brackets

end Highlight
