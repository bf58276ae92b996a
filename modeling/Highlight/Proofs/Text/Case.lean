import Mathlib.Data.List.Forall2
import Highlight.Text.Case

/-!
Texts are the same without regard to case if their characters are, one by one.
-/

namespace Highlight

/--
The same character, or a capital letter of ASCII and its small letter.
-/
def SameLetter (c d : Char) : Prop :=
  c = d ∨ (c.isUpper ∧ d.toNat = c.toNat + 32) ∨ (d.isUpper ∧ c.toNat = d.toNat + 32)

instance (c d : Char) : Decidable (SameLetter c d) :=
  inferInstanceAs (Decidable (_ ∨ _))

/--
Texts that differ at most in the case of ASCII letters.
-/
def SameButForCase (s t : String) : Prop :=
  List.Forall₂ SameLetter s.toList t.toList

instance (s t : String) : Decidable (SameButForCase s t) :=
  inferInstanceAs (Decidable (List.Forall₂ SameLetter s.toList t.toList))

variable {s t u : String} {c d : Char}

theorem isUpper_iff : c.isUpper ↔ 65 ≤ c.toNat ∧ c.toNat ≤ 90 := by
  have hval : c.isUpper = true ↔ 65 ≤ c.val ∧ c.val ≤ 90 := decide_eq_true_iff
  rw [hval, UInt32.le_iff_toNat_le, UInt32.le_iff_toNat_le, Char.toNat_val]
  rfl

theorem toNat_toLower (c : Char) : c.toLower.toNat = if c.isUpper then c.toNat + 32 else c.toNat := by
  unfold Char.toLower
  split
  . next h =>
    have hupper : c.isUpper = true := decide_eq_true h
    have hle := (isUpper_iff.mp hupper).2
    have hshift : ('a'.val - 'A'.val).toNat = 32 := by decide
    rw [if_pos hupper, ← Char.toNat_val, UInt32.toNat_add, Char.toNat_val, hshift]
    apply Nat.mod_eq_of_lt
    omega
  . next h =>
    have hupper : ¬ c.isUpper := fun hupper => h (of_decide_eq_true hupper)
    rw [if_neg hupper]

theorem toLower_eq_toLower_iff : c.toLower = d.toLower ↔ SameLetter c d := by
  unfold SameLetter
  rw [← Char.toNat_inj, ← Char.toNat_inj, toNat_toLower, toNat_toLower]
  by_cases hc : c.isUpper <;> by_cases hd : d.isUpper
    <;> simp only [hc, hd, if_true, if_false, true_and, false_and, or_false, false_or, Bool.false_eq_true]
  all_goals
    rw [isUpper_iff] at hc hd
    omega

theorem sameIgnoringCase_iff : sameIgnoringCase s t = true ↔ SameButForCase s t := by
  unfold sameIgnoringCase SameButForCase String.toLower
  rw [beq_iff_eq, ← String.toList_inj, String.toList_map, String.toList_map, ← List.forall₂_eq_eq_eq,
    List.forall₂_map_left_iff, List.forall₂_map_right_iff]
  simp only [toLower_eq_toLower_iff]

theorem sameIgnoringCase_eq_false_iff : sameIgnoringCase s t = false ↔ ¬ SameButForCase s t := by
  rw [← sameIgnoringCase_iff, Bool.not_eq_true]

namespace SameButForCase

theorem symm (h : SameButForCase s t) : SameButForCase t s := by
  rw [← sameIgnoringCase_iff, sameIgnoringCase, beq_iff_eq] at h ⊢
  exact h.symm

theorem trans (h : SameButForCase s t) (h' : SameButForCase t u) : SameButForCase s u := by
  rw [← sameIgnoringCase_iff, sameIgnoringCase, beq_iff_eq] at h h' ⊢
  exact h.trans h'

end SameButForCase

/--
Where names differ in more than case, a search by name finds the one item that has it.
-/
theorem find?_sameIgnoringCase_iff {α : Type} {nameOf : α → String} {items : List α} {item : α}
    (hnames : items.Pairwise fun x y => ¬ SameButForCase (nameOf x) (nameOf y)) :
    items.find? (fun x => sameIgnoringCase (nameOf x) s) = some item ↔ item ∈ items ∧ SameButForCase (nameOf item) s := by
  constructor
  . intro h
    have hsame := List.find?_some h
    exact ⟨List.mem_of_find?_eq_some h, sameIgnoringCase_iff.mp hsame⟩
  . rintro ⟨hmem, hsame⟩
    induction items with
    | nil => cases hmem
    | cons first rest ih =>
      obtain ⟨hfirst, hrest⟩ := List.pairwise_cons.mp hnames
      rcases List.mem_cons.mp hmem with rfl | hmem
      . rw [List.find?_cons_of_pos]
        exact sameIgnoringCase_iff.mpr hsame
      . rw [List.find?_cons_of_neg]
        . exact ih hrest hmem
        . rw [sameIgnoringCase_iff]
          intro hother
          exact hfirst item hmem (hother.trans hsame.symm)

end Highlight
