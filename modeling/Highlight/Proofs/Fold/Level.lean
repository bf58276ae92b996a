import Mathlib.Algebra.Group.Int.Defs
import Mathlib.Data.Nat.Bitwise
import Highlight.Fold.Level

/-!
What is packed into a level word can be read back, as long as the numbers fit into their halves of the word.
-/

namespace Highlight.Level

theorem toNat_shiftCount {bits : Nat} (hbits : bits < 32) : ((Int32.ofNat bits).toBitVec.smod 32).toNat = bits := by
  revert bits
  decide

theorem toInt_shiftRight (x : Int32) {bits : Nat} (hbits : bits < 32) :
    (x >>> Int32.ofNat bits).toInt = x.toInt / 2 ^ bits := by
  show (x >>> Int32.ofNat bits).toBitVec.toInt = _
  rw [Int32.toBitVec_shiftRight, BitVec.toInt_sshiftRight', Int.shiftRight_eq_div_pow, toNat_shiftCount hbits]
  rfl

theorem toInt_shiftLeft (x : Int32) {bits : Nat} (hbits : bits < 32) (hlow : -2 ^ 31 ≤ x.toInt * 2 ^ bits)
    (hhigh : x.toInt * 2 ^ bits < 2 ^ 31) : (x <<< Int32.ofNat bits).toInt = x.toInt * 2 ^ bits := by
  have hint : x.toInt = (x.toBitVec.toNat : Int).bmod (2 ^ 32) := BitVec.toInt_eq_toNat_bmod x.toBitVec
  show (x <<< Int32.ofNat bits).toBitVec.toInt = _
  rw [Int32.toBitVec_shiftLeft]
  show (x.toBitVec <<< ((Int32.ofNat bits).toBitVec.smod 32).toNat).toInt = _
  rw [toNat_shiftCount hbits, BitVec.toInt_shiftLeft, Nat.shiftLeft_eq, Int.natCast_mul, Int.natCast_pow,
    ← Int.bmod_mul_bmod, ← hint]
  exact Int.bmod_eq_of_le hlow (by simpa using hhigh)

/--
A bit below the sign, as a digit of the number.
-/
theorem and_twoPow_ne_zero (x : Int32) {bit : Nat} (hbit : bit < 31) :
    (x &&& Int32.ofNat (2 ^ bit) != 0) = decide (x.toInt / 2 ^ bit % 2 = 1) := by
  have hmask : (Int32.ofNat (2 ^ bit)).toBitVec.toNat = 2 ^ bit :=
    (BitVec.toNat_ofNat _ _).trans (Nat.mod_eq_of_lt (Nat.pow_lt_pow_right (by decide) (by omega)))
  have hzero : x &&& Int32.ofNat (2 ^ bit) = 0 ↔ x.toBitVec.toNat.testBit bit = false := by
    rw [← Int32.toBitVec_inj, ← BitVec.toNat_inj, Int32.toBitVec_and, BitVec.toNat_and, hmask, Nat.and_two_pow]
    show _ = 0 ↔ _
    simp
  -- the sign counts an even number of times as much as the bit, so it leaves the digit alone
  have hsign : x.toInt / 2 ^ bit % 2 = (x.toBitVec.toNat / 2 ^ bit % 2 : Nat) := by
    have hint : x.toInt = x.toBitVec.toInt := rfl
    rw [hint, BitVec.toInt_eq_toNat_cond]
    split
    . rfl
    . have hsplit : (x.toBitVec.toNat : Int) - (2 ^ 32 : Nat) = x.toBitVec.toNat + -(2 * 2 ^ (31 - bit)) * 2 ^ bit := by
        rw [Int.neg_mul, Int.mul_assoc, ← Int.pow_add, Nat.sub_add_cancel (Nat.le_of_lt hbit)]
        rfl
      rw [hsplit, Int.add_mul_ediv_right _ _ (Int.pow_ne_zero (by decide)), ← Int.mul_neg, Int.add_mul_emod_self_left]
      rfl
  rw [hsign, Bool.eq_iff_iff, bne_iff_ne, ne_eq, hzero, Nat.testBit_eq_decide_div_mod_eq, decide_eq_true_iff,
    decide_eq_false_iff_not, Decidable.not_not]
  omega

theorem isWhite_eq_decide (level : Level) : level.isWhite = decide (level.toInt / 0x1000 % 2 = 1) :=
  @and_twoPow_ne_zero level 12 (by decide)

theorem isHeader_eq_decide (level : Level) : level.isHeader = decide (level.toInt / 0x2000 % 2 = 1) :=
  @and_twoPow_ne_zero level 13 (by decide)

/--
The upper half of a number is read back from above it.
-/
theorem shiftLeft_shiftRight_16 {x : Int32} (hlow : -2 ^ 15 ≤ x.toInt) (hhigh : x.toInt < 2 ^ 15) : x <<< 16 >>> 16 = x := by
  have hleft : (x <<< 16).toInt = x.toInt * 2 ^ 16 := @toInt_shiftLeft x 16 (by decide) (by omega) (by omega)
  have hright : (x <<< 16 >>> 16).toInt = (x <<< 16).toInt / 2 ^ 16 := @toInt_shiftRight _ 16 (by decide)
  rw [← Int32.toInt_inj, hright, hleft]
  omega

theorem shiftRight_16_eq_zero {x : Int32} (hlow : 0 ≤ x.toInt) (hhigh : x.toInt < 2 ^ 16) : x >>> 16 = 0 := by
  have hright : (x >>> 16).toInt = x.toInt / 2 ^ 16 := @toInt_shiftRight x 16 (by decide)
  rw [← Int32.toInt_inj, hright, show (0 : Int32).toInt = 0 by decide]
  omega

/--
The flags leave the upper half of a level alone.
-/
theorem next_compose {own next : Int} (hown : 0 ≤ own) (hown' : own < 2 ^ 16) (hnext : -2 ^ 15 ≤ next) (hnext' : next < 2 ^ 15)
    (visible : Nat) (compact : Bool) : (compose (Int32.ofInt own) (Int32.ofInt next) visible compact).next = Int32.ofInt next := by
  have hownInt : (Int32.ofInt own).toInt = own := Int32.toInt_ofInt_of_le (by omega) (by omega)
  have hnextInt : (Int32.ofInt next).toInt = next := Int32.toInt_ofInt_of_le (by omega) (by omega)
  have hlevel : (Int32.ofInt own ||| Int32.ofInt next <<< 16) >>> 16 = Int32.ofInt next := by
    rw [Int32.shiftRight_or, shiftRight_16_eq_zero (by omega) (by omega), shiftLeft_shiftRight_16 (by omega) (by omega),
      Int32.zero_or]
  have hflag {level flag : Level} (hflag : flag >>> 16 = 0) : (level ||| flag) >>> 16 = level >>> 16 := by
    rw [Int32.shiftRight_or, hflag, Int32.or_zero]
  have hwhite : whiteFlag >>> 16 = 0 := by decide
  have hheader : headerFlag >>> 16 = 0 := by decide
  unfold compose Level.next
  dsimp only
  split
  . rw [hflag hheader]
    split
    . rw [hflag hwhite, hlevel]
    . exact hlevel
  . split
    . rw [hflag hwhite, hlevel]
    . exact hlevel

/--
The flags leave the depth of a level alone.
-/
theorem number_or_flag (level : Level) {flag : Level} (hflag : flag &&& 0x0FFF = 0) : (level ||| flag).number = level.number := by
  have hflag' : flag.toBitVec &&& (0x0FFF : Int32).toBitVec = 0#32 := by
    rw [← Int32.toBitVec_and, hflag]
    rfl
  unfold number
  rw [← Int32.toBitVec_inj, Int32.toBitVec_and, Int32.toBitVec_or, BitVec.and_or_distrib_right, hflag', BitVec.or_zero,
    Int32.toBitVec_and]

/--
A depth is stored without the bits that do not fit.
-/
theorem number_ofInt_eq_emod (depth : Int) : (number (Int32.ofInt depth)).toInt = depth % 0x1000 := by
  have hbits : (Int32.ofInt depth).toBitVec.toNat = (depth % 2 ^ 32).toNat := BitVec.toNat_ofInt depth
  have hand : (number (Int32.ofInt depth)).toBitVec.toNat = (depth % 2 ^ 32).toNat % 2 ^ 12 := by
    unfold number
    rw [Int32.toBitVec_and, BitVec.toNat_and, hbits]
    exact Nat.and_two_pow_sub_one_eq_mod _ 12
  show (number (Int32.ofInt depth)).toBitVec.toInt = _
  rw [BitVec.toInt_eq_toNat_of_lt (by rw [hand]; omega), hand]
  omega

theorem toInt_number (level : Level) : level.number.toInt = level.toInt % 0x1000 := by
  rw [← number_ofInt_eq_emod, Int32.ofInt_toInt]

theorem number_bounds (level : Level) : 0 ≤ level.number.toInt ∧ level.number.toInt ≤ 0x0FFF := by
  rw [toInt_number]
  omega

theorem number_ofInt {depth : Int} (hlow : 0 ≤ depth) (hhigh : depth ≤ 0x0FFF) : (number (Int32.ofInt depth)).toInt = depth := by
  rw [number_ofInt_eq_emod]
  omega

/--
The depth of the next line is above the flags.
-/
theorem shiftLeft_16_and {mask : Int32} (hmask : ∀ i < 32, ¬ i < 16 → mask.toBitVec.getLsbD i = false) (next : Level) :
    next <<< 16 &&& mask = 0 := by
  rw [← Int32.toBitVec_inj, Int32.toBitVec_and, Int32.toBitVec_shiftLeft]
  show next.toBitVec <<< 16 &&& mask.toBitVec = 0#32
  ext i hi
  simp only [BitVec.getElem_and, BitVec.getElem_shiftLeft, BitVec.getElem_zero]
  by_cases hlower : i < 16
  . simp [hlower]
  . simp [hlower, ← BitVec.getLsbD_eq_getElem, hmask i hi hlower]

/--
The depth of the line is read back from below the flags and the other depth.
-/
theorem number_compose {own : Int} (hlow : 0 ≤ own) (hhigh : own ≤ 0x0FFF) (next : Level) (visible : Nat) (compact : Bool) :
    (compose (Int32.ofInt own) next visible compact).number.toInt = own := by
  have hupper : next <<< 16 &&& 0x0FFF = 0 := shiftLeft_16_and (by decide) next
  have hwhite : whiteFlag &&& 0x0FFF = 0 := by decide
  have hheader : headerFlag &&& 0x0FFF = 0 := by decide
  have hown : (number (Int32.ofInt own ||| next <<< 16)).toInt = own := by
    rw [number_or_flag _ hupper, number_ofInt hlow hhigh]
  unfold compose
  dsimp only
  split
  . rw [number_or_flag _ hheader]
    split
    . rw [number_or_flag _ hwhite, hown]
    . exact hown
  . split
    . rw [number_or_flag _ hwhite, hown]
    . exact hown

/--
The depths that the low twelve bits of a level word hold.
-/
def InField (depth : Int) : Prop :=
  0 ≤ depth ∧ depth ≤ 0x0FFF

instance (depth : Int) : Decidable (InField depth) :=
  inferInstanceAs (Decidable (_ ∧ _))

section Flags

variable {own next : Int}

theorem compose_eq (own next : Level) (visible : Nat) (compact : Bool) :
    compose own next visible compact
      = own ||| next <<< 16 ||| (if visible == 0 && compact then whiteFlag else 0) ||| (if own < next then headerFlag else 0) := by
  unfold compose
  dsimp only
  split
  . split
    . rfl
    . rw [Int32.or_zero]
  . split
    . rw [Int32.or_zero]
    . rw [Int32.or_zero, Int32.or_zero]

theorem or_and_ne_zero (level level' flag : Level) :
    ((level ||| level') &&& flag != 0) = (level &&& flag != 0 || level' &&& flag != 0) := by
  have hdistrib : (level ||| level') &&& flag = level &&& flag ||| level' &&& flag := by
    rw [← Int32.toBitVec_inj, Int32.toBitVec_and, Int32.toBitVec_or, BitVec.and_or_distrib_right, Int32.toBitVec_or,
      Int32.toBitVec_and, Int32.toBitVec_and]
  rw [hdistrib, Bool.eq_iff_iff]
  simp only [bne_iff_ne, ne_eq, Int32.or_eq_zero_iff, Bool.or_eq_true, Decidable.not_and_iff_not_or_not]

/--
A depth that fits sets no flag.
-/
theorem ofInt_and_flag (hown : InField own) {flag : Level} (hflag : 0x0FFF &&& flag = 0) : Int32.ofInt own &&& flag = 0 := by
  obtain ⟨hlow, hhigh⟩ := hown
  have hnumber : Int32.ofInt own &&& 0x0FFF = Int32.ofInt own := by
    rw [← Int32.toInt_inj, Int32.toInt_ofInt_of_le (by omega) (by omega)]
    exact number_ofInt hlow hhigh
  rw [← hnumber, Int32.and_assoc, hflag, Int32.and_zero]

/--
A line is white if it has no visible character and blank lines are white.
-/
theorem isWhite_compose (hown : InField own) (next : Level) (visible : Nat) (compact : Bool) :
    (compose (Int32.ofInt own) next visible compact).isWhite = (visible == 0 && compact) := by
  have hown : Int32.ofInt own &&& whiteFlag = 0 := ofInt_and_flag hown (by decide)
  have hupper : next <<< 16 &&& whiteFlag = 0 := shiftLeft_16_and (by decide) next
  have hwhite : ((if visible == 0 && compact then whiteFlag else 0) &&& whiteFlag != 0) = (visible == 0 && compact) := by
    cases visible == 0 && compact <;> decide
  have hheader : ((if Int32.ofInt own < next then headerFlag else 0) &&& whiteFlag != 0) = false := by
    split <;> decide
  rw [isWhite, compose_eq, or_and_ne_zero, or_and_ne_zero, or_and_ne_zero, hown, hupper, hwhite, hheader]
  simp

/--
A line is a header if the depth rises behind it.
-/
theorem isHeader_compose_eq (hown : InField own) (next : Level) (visible : Nat) (compact : Bool) :
    (compose (Int32.ofInt own) next visible compact).isHeader = decide (Int32.ofInt own < next) := by
  have hown : Int32.ofInt own &&& headerFlag = 0 := ofInt_and_flag hown (by decide)
  have hupper : next <<< 16 &&& headerFlag = 0 := shiftLeft_16_and (by decide) _
  have hwhite : ((if visible == 0 && compact then whiteFlag else 0) &&& headerFlag != 0) = false := by
    split <;> decide
  have hheader : ((if Int32.ofInt own < next then headerFlag else 0) &&& headerFlag != 0) = decide (Int32.ofInt own < next) := by
    split
    . next h => rw [decide_eq_true h]; decide
    . next h => rw [decide_eq_false h]; decide
  rw [isHeader, compose_eq, or_and_ne_zero, or_and_ne_zero, or_and_ne_zero, hown, hupper, hwhite, hheader]
  simp

theorem ofInt_lt_ofInt {a b : Int} (ha : -2 ^ 31 ≤ a) (ha' : a < 2 ^ 31) (hb : -2 ^ 31 ≤ b) (hb' : b < 2 ^ 31) :
    Int32.ofInt a < Int32.ofInt b ↔ a < b := by
  rw [Int32.lt_iff_toInt_lt, Int32.toInt_ofInt_of_le ha ha', Int32.toInt_ofInt_of_le hb hb']

theorem isHeader_compose (hown : InField own) (hnext : InField next) (visible : Nat) (compact : Bool) :
    (compose (Int32.ofInt own) (Int32.ofInt next) visible compact).isHeader = decide (own < next) := by
  rw [isHeader_compose_eq hown]
  obtain ⟨hown, hown'⟩ := hown
  obtain ⟨hnext, hnext'⟩ := hnext
  exact decide_eq_decide.mpr (ofInt_lt_ofInt (by omega) (by omega) (by omega) (by omega))

end Flags

end Highlight.Level
