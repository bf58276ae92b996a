import Highlight.Proofs.Text.LineIndex
import Highlight.Text.Encoding

/-!
Where characters end. What stands at a position is decided by the bytes up to the first ASCII byte,
and no character reaches over one that is not its last byte. So no character reaches over the end of
a line.
-/

namespace Highlight

namespace Utf8

variable {text text' : Array UInt8}

theorem drop_eq_cons {pos : Nat} {b : UInt8} (hb : text[pos]? = some b) : text.toList.drop pos = b :: text.toList.drop (pos + 1) := by
  obtain ⟨hsize, hget⟩ := Array.getElem?_eq_some_iff.mp hb
  rw [List.drop_eq_getElem_cons (by simpa using hsize), Array.getElem_toList, hget]

theorem getElem?_of_startsWith {pos : Nat} {b : UInt8} {bytes : List UInt8} (h : b :: bytes <+: text.toList.drop pos) : text[pos]? = some b := by
  obtain ⟨rest, hrest⟩ := h
  rw [← Array.getElem?_toList, ← List.head?_drop, ← hrest]
  rfl

theorem continuation_of_continue? {pos value count result : Nat}
    (h : continue? text pos value count = some result) :
    ∀ i, i < count → ∃ b, text[pos + i]? = some b ∧ isContinuation b = true := by
  induction count generalizing pos value with
  | zero =>
    intro i hi
    omega
  | succ count ih =>
    unfold continue? at h
    split at h
    . next b hb =>
      split at h
      . next hcont =>
        intro i hi
        cases i with
        | zero => exact ⟨b, hb, hcont⟩
        | succ i =>
          have := ih h i (by omega)
          rwa [Nat.add_assoc, Nat.add_comm 1 i] at this
      . simp at h
    . simp at h

section Lead

variable {b : UInt8} {lead : Lead}

theorem isContinuation_iff : isContinuation b = true ↔ 0x80 ≤ b.toNat ∧ b.toNat ≤ 0xBF := by
  simp only [isContinuation, Bool.and_eq_true, decide_eq_true_eq, UInt8.le_iff_toNat_le, UInt8.reduceToNat]

theorem le_toNat_of_isContinuation (h : isContinuation b = true) : 0x80 ≤ b.toNat :=
  (isContinuation_iff.mp h).1

/--
The lead bytes of sequences of two, three and four bytes.
-/
theorem ofByte?_eq_some_iff : Lead.ofByte? b = some lead
    ↔ (0xC2 ≤ b.toNat ∧ b.toNat ≤ 0xDF) ∧ lead = ⟨1, b.toNat - 0xC0, 0x80⟩
      ∨ (0xE0 ≤ b.toNat ∧ b.toNat ≤ 0xEF) ∧ lead = ⟨2, b.toNat - 0xE0, 0x800⟩
      ∨ (0xF0 ≤ b.toNat ∧ b.toNat ≤ 0xF4) ∧ lead = ⟨3, b.toNat - 0xF0, 0x10000⟩ := by
  simp only [Lead.ofByte?, Bool.and_eq_true, decide_eq_true_eq, UInt8.le_iff_toNat_le, UInt8.reduceToNat]
  grind

theorem le_toNat_of_ofByte? (h : Lead.ofByte? b = some lead) : 0x80 ≤ b.toNat := by
  rcases ofByte?_eq_some_iff.mp h with ⟨hb, _⟩ | ⟨hb, _⟩ | ⟨hb, _⟩
  all_goals omega

theorem following_pos_of_ofByte? (h : Lead.ofByte? b = some lead) : 0 < lead.following := by
  rcases ofByte?_eq_some_iff.mp h with ⟨_, rfl⟩ | ⟨_, rfl⟩ | ⟨_, rfl⟩
  all_goals exact Nat.succ_pos _

theorem following_le_of_ofByte? (h : Lead.ofByte? b = some lead) : lead.following ≤ 3 := by
  rcases ofByte?_eq_some_iff.mp h with ⟨_, rfl⟩ | ⟨_, rfl⟩ | ⟨_, rfl⟩
  . exact (by decide : 1 ≤ 3)
  . exact (by decide : 2 ≤ 3)
  . exact Nat.le_refl 3

theorem le_least_of_ofByte? (h : Lead.ofByte? b = some lead) : 0x80 ≤ lead.least := by
  rcases ofByte?_eq_some_iff.mp h with ⟨_, rfl⟩ | ⟨_, rfl⟩ | ⟨_, rfl⟩
  . exact Nat.le_refl 0x80
  . exact (by decide : 0x80 ≤ 0x800)
  . exact (by decide : 0x80 ≤ 0x10000)

end Lead

/--
A well-formed sequence has a lead byte and continuation bytes behind it.
-/
theorem decodeAt?_bytes {pos value width : Nat} (h : decodeAt? text pos = some (value, width)) :
    2 ≤ width ∧ ∀ i, i < width → ∃ b, text[pos + i]? = some b ∧ 0x80 ≤ b.toNat := by
  unfold decodeAt? at h
  simp only [Option.bind_eq_bind, Option.bind_eq_some_iff] at h
  obtain ⟨b, hb, lead, hlead, value', hvalue, h⟩ := h
  split at h
  . simp at h
  . simp only [Option.some.injEq, Prod.mk.injEq] at h
    have := following_pos_of_ofByte? hlead
    refine ⟨by omega, ?_⟩
    intro i hi
    cases i with
    | zero => exact ⟨b, hb, le_toNat_of_ofByte? hlead⟩
    | succ i =>
      obtain ⟨b', hb', hcont⟩ := continuation_of_continue? hvalue i (by omega)
      refine ⟨b', ?_, le_toNat_of_isContinuation hcont⟩
      rwa [Nat.add_assoc, Nat.add_comm 1 i] at hb'

/--
A well-formed sequence is no longer than needed.
-/
theorem le_of_decodeAt? {pos value width : Nat} (h : decodeAt? text pos = some (value, width)) : 0x80 ≤ value := by
  unfold decodeAt? at h
  simp only [Option.bind_eq_bind, Option.bind_eq_some_iff] at h
  obtain ⟨b, _, lead, hlead, value', _, h⟩ := h
  split at h
  . simp at h
  . next hleast =>
    simp only [Option.some.injEq, Prod.mk.injEq] at h
    simp only [Bool.or_eq_true, decide_eq_true_eq, not_or, Nat.not_lt] at hleast
    have := le_least_of_ofByte? hlead
    omega

theorem continue?_congr {shift pos value count : Nat}
    (h : ∀ j, pos ≤ j → (∀ i, pos ≤ i → i < j → ∀ b, text[i]? = some b → 0x80 ≤ b.toNat) →
      text'[j + shift]? = text[j]?) :
    continue? text' (pos + shift) value count = continue? text pos value count := by
  induction count generalizing pos value with
  | zero => rfl
  | succ count ih =>
    unfold continue?
    rw [h pos (Nat.le_refl _) (by intros; omega)]
    split
    . next b hb =>
      split
      . next hcont =>
        rw [Nat.add_right_comm]
        apply ih
        intro j hj hbefore
        apply h j (by omega)
        intro i hi hij b' hb'
        by_cases hpos : i = pos
        . rw [hpos, hb, Option.some.injEq] at hb'
          rw [← hb']
          exact le_toNat_of_isContinuation hcont
        . exact hbefore i (by omega) hij b' hb'
      . rfl
    . rfl

theorem decodeAt?_congr {shift pos : Nat}
    (h : ∀ j, pos ≤ j → (∀ i, pos ≤ i → i < j → ∀ b, text[i]? = some b → 0x80 ≤ b.toNat) →
      text'[j + shift]? = text[j]?) :
    decodeAt? text' (pos + shift) = decodeAt? text pos := by
  unfold decodeAt?
  rw [h pos (Nat.le_refl _) (by intros; omega)]
  cases hb : text[pos]? with
  | none => rfl
  | some b =>
    simp only [Option.bind_eq_bind, Option.bind_some]
    cases hlead : Lead.ofByte? b with
    | none => rfl
    | some lead =>
      simp only [Option.bind_some]
      rw [Nat.add_right_comm, continue?_congr]
      intro j hj hbefore
      apply h j (by omega)
      intro i hi hij b' hb'
      by_cases hpos : i = pos
      . rw [hpos, hb, Option.some.injEq] at hb'
        rw [← hb']
        exact le_toNat_of_ofByte? hlead
      . exact hbefore i (by omega) hij b' hb'

end Utf8

theorem CodePage.le_toNat_of_isLeadByte {page : CodePage} {b : UInt8} (h : page.isLeadByte b = true) :
    0x81 ≤ b.toNat := by
  have h1 : (0x81 : UInt8).toNat = 0x81 := rfl
  have h2 : (0x84 : UInt8).toNat = 0x84 := rfl
  have h3 : (0xD8 : UInt8).toNat = 0xD8 := rfl
  have h4 : (0xE0 : UInt8).toNat = 0xE0 := rfl
  cases page
  all_goals
    simp only [isLeadByte, Bool.or_eq_true, Bool.and_eq_true, decide_eq_true_eq,
      UInt8.le_iff_toNat_le, h1, h2, h3, h4] at h
    omega

namespace Encoding

variable {text text' : Array UInt8} (encoding : Encoding)

theorem le_toNat_of_isLeadByte {b : UInt8} (h : encoding.isLeadByte b = true) : 0x81 ≤ b.toNat := by
  cases encoding with
  | singleByte => cases h
  | utf8 => cases h
  | doubleByte page => exact CodePage.le_toNat_of_isLeadByte h

theorem decodeAt_of_size_le {pos : Nat} (h : text.size ≤ pos) : encoding.decodeAt text pos = (0, 1) := by
  unfold decodeAt
  rw [Array.getElem?_eq_none h]

/--
The four ways a character is read: past the end, one byte, a well-formed sequence, two bytes.
-/
theorem decodeAt_cases (text : Array UInt8) (pos : Nat) :
    (text[pos]? = none ∧ encoding.decodeAt text pos = (0, 1))
    ∨ (∃ b, text[pos]? = some b ∧ encoding.decodeAt text pos = (b.toNat, 1))
    ∨ (∃ value width, encoding = .utf8 ∧ Utf8.decodeAt? text pos = some (value, width)
      ∧ encoding.decodeAt text pos = (value, width))
    ∨ (∃ page b trail, encoding = .doubleByte page ∧ text[pos]? = some b ∧ text[pos + 1]? = some trail
      ∧ page.isLeadByte b = true ∧ encoding.decodeAt text pos = (b.toNat * 256 + trail.toNat, 2)) := by
  unfold decodeAt
  cases hb : text[pos]? with
  | none => simp
  | some b =>
    cases encoding with
    | singleByte => simp
    | utf8 =>
      cases h : Utf8.decodeAt? text pos with
      | none => simp
      | some read =>
        right; right; left
        exact ⟨read.1, read.2, rfl, rfl, rfl⟩
    | doubleByte page =>
      cases ht : text[pos + 1]? with
      | none => simp
      | some trail =>
        cases hlead : page.isLeadByte b with
        | false => simp
        | true =>
          right; right; right
          refine ⟨page, b, trail, rfl, rfl, rfl, hlead, ?_⟩
          simp only [hlead, ↓reduceIte]

/--
A character lies in the text.
-/
theorem decodeAt_le_size {pos : Nat} (h : pos < text.size) :
    pos + (encoding.decodeAt text pos).2 ≤ text.size := by
  rcases encoding.decodeAt_cases text pos with
    ⟨_, heq⟩ | ⟨b, _, heq⟩ | ⟨value, width, _, hread, heq⟩ | ⟨page, b, trail, _, _, htrail, _, heq⟩
  . rw [heq]
    exact h
  . rw [heq]
    exact h
  . obtain ⟨hwidth, hbytes⟩ := Utf8.decodeAt?_bytes hread
    obtain ⟨b, hb, _⟩ := hbytes (width - 1) (by omega)
    have := (Array.getElem?_eq_some_iff.mp hb).1
    rw [heq]
    dsimp
    omega
  . have := (Array.getElem?_eq_some_iff.mp htrail).1
    rw [heq]
    dsimp
    omega

/--
A character does not reach over an ASCII byte.
-/
theorem decodeAt_le_of_ascii {pos i : Nat} {b : UInt8} (hpos : pos ≤ i) (hb : text[i]? = some b)
    (hascii : b.toNat < 0x80) : pos + (encoding.decodeAt text pos).2 ≤ i + 1 := by
  rcases encoding.decodeAt_cases text pos with
    ⟨_, heq⟩ | ⟨b', _, heq⟩ | ⟨value, width, _, hread, heq⟩ | ⟨page, b', trail, _, hb', _, hlead, heq⟩
  . rw [heq]
    exact Nat.succ_le_succ hpos
  . rw [heq]
    exact Nat.succ_le_succ hpos
  . rw [heq]
    apply Decidable.byContradiction
    intro hover
    obtain ⟨b', hb', hcont⟩ := (Utf8.decodeAt?_bytes hread).2 (i - pos) (by dsimp at hover; omega)
    rw [show pos + (i - pos) = i by omega, hb, Option.some.injEq] at hb'
    subst hb'
    omega
  . rw [heq]
    by_cases heq' : i = pos
    . rw [heq', hb', Option.some.injEq] at hb
      have := CodePage.le_toNat_of_isLeadByte hlead
      subst hb
      omega
    . dsimp
      omega

/--
Outside of the double-byte code pages, a character ends in front of the next ASCII byte.
-/
theorem decodeAt_le_of_ascii_of_single (hsingle : ∀ page, encoding ≠ .doubleByte page) {pos i : Nat} {b : UInt8} (hlt : pos < i)
    (hb : text[i]? = some b) (hascii : b.toNat < 0x80) : pos + (encoding.decodeAt text pos).2 ≤ i := by
  rcases encoding.decodeAt_cases text pos with
    ⟨_, heq⟩ | ⟨_, _, heq⟩ | ⟨value, width, _, hread, heq⟩ | ⟨page, _, _, hpage, _⟩
  . rw [heq]
    exact hlt
  . rw [heq]
    exact hlt
  . rw [heq]
    apply Nat.le_of_not_lt
    intro hover
    obtain ⟨b', hb', hhigh⟩ := (Utf8.decodeAt?_bytes hread).2 (i - pos) (by dsimp at hover; omega)
    rw [show pos + (i - pos) = i by omega, hb, Option.some.injEq] at hb'
    subst hb'
    omega
  . exact absurd hpage (hsingle page)

/--
Reading a character takes no more than the bytes up to the first ASCII byte.
-/
theorem decodeAt_congr {shift pos : Nat}
    (h : ∀ j, pos ≤ j → (∀ i, pos ≤ i → i < j → ∀ b, text[i]? = some b → 0x80 ≤ b.toNat) →
      text'[j + shift]? = text[j]?) :
    encoding.decodeAt text' (pos + shift) = encoding.decodeAt text pos := by
  unfold decodeAt
  rw [h pos (Nat.le_refl _) (by intros; omega), Utf8.decodeAt?_congr h]
  cases hb : text[pos]? with
  | none => rfl
  | some b =>
    cases encoding with
    | singleByte => rfl
    | utf8 => rfl
    | doubleByte page =>
      dsimp
      cases hlead : page.isLeadByte b with
      | true =>
        have := CodePage.le_toNat_of_isLeadByte hlead
        rw [Nat.add_right_comm, h (pos + 1) (by omega)]
        intro i hi hi' b' hb'
        rw [show i = pos by omega, hb, Option.some.injEq] at hb'
        subst hb'
        omega
      | false =>
        simp only [Bool.false_eq_true, ↓reduceIte]
        split <;> split <;> rfl

end Encoding

namespace LineIndex

variable {text : Array UInt8}

theorem ascii_of_endsLine {pos : Nat} (h : endsLine text pos = true) :
    ∃ b, text[pos]? = some b ∧ (b.toNat = 0x0A ∨ b.toNat = 0x0D) := by
  unfold endsLine at h
  split at h
  . next heq => exact ⟨_, heq, .inl rfl⟩
  . next heq => exact ⟨_, heq, .inr rfl⟩
  . simp at h

end LineIndex

namespace Encoding

open LineIndex

variable {text : Array UInt8} (encoding : Encoding)

/--
A character ends at the end of its line at the latest.
-/
theorem decodeAt_le_of_startsLine {pos next : Nat} (hstart : startsLine text next = true) (hpos : pos < next) :
    pos + (encoding.decodeAt text pos).2 ≤ next := by
  obtain ⟨b, hb, hbreak⟩ := ascii_of_endsLine (endsLine_of_startsLine hstart (by omega))
  have := encoding.decodeAt_le_of_ascii (show pos ≤ next - 1 by omega) hb (by omega)
  omega

/--
The last character of a line is a line feed or a carriage return, or it has two bytes.
-/
theorem decodeAt_of_endsLine {pos : Nat} (h : endsLine text (pos + (encoding.decodeAt text pos).2 - 1) = true) :
    (encoding.decodeAt text pos).1 = 0x0A ∨ (encoding.decodeAt text pos).1 = 0x0D
      ∨ 0x100 ≤ (encoding.decodeAt text pos).1 := by
  obtain ⟨b, hb, hbreak⟩ := ascii_of_endsLine h
  rcases encoding.decodeAt_cases text pos with
    ⟨hnone, heq⟩ | ⟨b', hb', heq⟩ | ⟨value, width, _, hread, heq⟩ | ⟨page, b', trail, _, _, _, hlead, heq⟩
  . rw [heq, Nat.add_sub_cancel, hnone] at hb
    simp at hb
  . rw [heq, Nat.add_sub_cancel, hb', Option.some.injEq] at hb
    rw [heq, hb]
    rcases hbreak with hfeed | hreturn
    . exact .inl hfeed
    . exact .inr (.inl hreturn)
  . obtain ⟨hwidth, hbytes⟩ := Utf8.decodeAt?_bytes hread
    obtain ⟨b', hb', hcont⟩ := hbytes (width - 1) (by omega)
    rw [heq, Nat.add_sub_assoc (by omega), hb', Option.some.injEq] at hb
    subst hb
    omega
  . have := CodePage.le_toNat_of_isLeadByte hlead
    have : 0x100 ≤ b'.toNat * 256 + trail.toNat := by omega
    rw [heq]
    exact .inr (.inr this)

/--
Outside of the double-byte code pages, the last character of a line is one byte.
-/
theorem decodeAt_eq_of_endsLine {pos : Nat} (hsingle : ∀ page, encoding ≠ .doubleByte page)
    (h : endsLine text (pos + (encoding.decodeAt text pos).2 - 1) = true) :
    ∃ b, text[pos]? = some b ∧ encoding.decodeAt text pos = (b.toNat, 1) := by
  obtain ⟨b, hb, hbreak⟩ := ascii_of_endsLine h
  rcases encoding.decodeAt_cases text pos with
    ⟨hnone, heq⟩ | ⟨b', hb', heq⟩ | ⟨value, width, _, hread, heq⟩ | ⟨page, b', trail, hpage, _⟩
  . rw [heq, Nat.add_sub_cancel, hnone] at hb
    simp at hb
  . exact ⟨b', hb', heq⟩
  . obtain ⟨hwidth, hbytes⟩ := Utf8.decodeAt?_bytes hread
    obtain ⟨b', hb', hcont⟩ := hbytes (width - 1) (by omega)
    rw [heq, Nat.add_sub_assoc (by omega), hb', Option.some.injEq] at hb
    subst hb
    omega
  . exact absurd hpage (hsingle page)

/--
An ASCII byte where a character starts is a character.
-/
theorem decodeAt_of_ascii {pos : Nat} {b : UInt8} (hb : text[pos]? = some b) (hascii : b.toNat < 0x80) :
    encoding.decodeAt text pos = (b.toNat, 1) := by
  rcases encoding.decodeAt_cases text pos with
    ⟨hnone, _⟩ | ⟨b', hb', heq⟩ | ⟨value, width, _, hread, _⟩ | ⟨page, b', trail, _, hb', _, hlead, _⟩
  . rw [hnone] at hb
    cases hb
  . rw [hb', Option.some.injEq] at hb
    rw [heq, hb]
  . obtain ⟨hwidth, hbytes⟩ := Utf8.decodeAt?_bytes hread
    obtain ⟨b', hb', hcont⟩ := hbytes 0 (by omega)
    rw [Nat.add_zero, hb, Option.some.injEq] at hb'
    subst hb'
    omega
  . have := CodePage.le_toNat_of_isLeadByte hlead
    rw [hb', Option.some.injEq] at hb
    subst hb
    omega

/--
An ASCII character but the one that stands for the end of the text is one byte.
-/
theorem ascii_of_decodeAt {pos : Nat} (hascii : (encoding.decodeAt text pos).1 < 0x80)
    (hzero : (encoding.decodeAt text pos).1 ≠ 0) :
    ∃ b, text[pos]? = some b ∧ encoding.decodeAt text pos = (b.toNat, 1) := by
  rcases encoding.decodeAt_cases text pos with
    ⟨_, heq⟩ | ⟨b, hb, heq⟩ | ⟨value, width, _, hread, heq⟩ | ⟨page, b, trail, _, _, _, hlead, heq⟩
  . rw [heq] at hzero
    exact absurd rfl hzero
  . exact ⟨b, hb, heq⟩
  . have := Utf8.le_of_decodeAt? hread
    rw [heq] at hascii
    have hascii : value < 0x80 := hascii
    omega
  . have := CodePage.le_toNat_of_isLeadByte hlead
    rw [heq] at hascii
    have hascii : b.toNat * 256 + trail.toNat < 0x80 := hascii
    omega

end Encoding

end Highlight
