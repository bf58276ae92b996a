/-!
Line states: what a language keeps about a line in order to go on after it, in one word.
-/

namespace Highlight

abbrev LineState := Int32

/--
The largest value of at most `value` that fits into an unsigned field of `bits` bits, so that a
field never runs over into the one above it.
-/
def LineState.saturate (value bits : Nat) : Nat :=
  min value ((1 <<< bits) - 1)

theorem LineState.saturate_lt (value bits : Nat) : saturate value bits < 1 <<< bits :=
  have hbits : 0 < 1 <<< bits := (Nat.one_shiftLeft bits).symm ▸ Nat.two_pow_pos bits
  Nat.lt_of_le_of_lt (Nat.min_le_right _ _) (Nat.sub_lt hbits Nat.one_pos)

theorem LineState.saturate_of_lt {value bits : Nat} (h : value < 1 <<< bits) : saturate value bits = value :=
  Nat.min_eq_left (Nat.le_sub_one_of_lt h)

end Highlight
