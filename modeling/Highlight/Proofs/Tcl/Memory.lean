import Highlight.Proofs.Fold.Level
import Highlight.Tcl.Memory

/-!
What the line state and the level word of Tcl keep can be read back, as long as the numbers of open
braces fit into the level word.
-/

namespace Highlight.Tcl

theorem Memory.unpack_pack (memory : Memory) : unpack memory.pack = memory := by
  obtain ⟨opened, commandExpected, inBraces⟩ := memory
  cases opened <;> cases commandExpected <;> cases inBraces <;> decide

/--
The numbers of open braces at a line end that a level word holds.
-/
def DepthFits (depth : Int) : Prop :=
  -1024 ≤ depth ∧ depth ≤ 16383

instance (depth : Int) : Decidable (DepthFits depth) :=
  inferInstanceAs (Decidable (_ ∧ _))

/--
The numbers that the bits for the next line hold.
-/
def DepthKept (depth : Int) : Prop :=
  -16384 ≤ depth ∧ depth ≤ 16383

theorem DepthFits.kept {depth : Int} (h : DepthFits depth) : DepthKept depth :=
  ⟨Int.le_trans (by decide) h.1, h.2⟩

theorem DepthFits.of_inField {depth : Int} (h : Level.InField (0x400 + depth)) : DepthFits depth :=
  ⟨by have := h.1; omega, by have := h.2; omega⟩

theorem toInt_shiftRight_17 (x : Int32) : (x >>> 17).toInt = x.toInt / 131072 :=
  @Level.toInt_shiftRight x 17 (by decide)

theorem toInt_shiftRight_16 (x : Int32) : (x >>> 16).toInt = x.toInt / 65536 :=
  @Level.toInt_shiftRight x 16 (by decide)

theorem toInt_shiftLeft_17 {x : Int32} (hlow : -16384 ≤ x.toInt) (hhigh : x.toInt ≤ 16383) :
    (x <<< 17).toInt = x.toInt * 131072 :=
  @Level.toInt_shiftLeft x 17 (by decide) (by omega) (by omega)

/--
The mark of a comment is the bit above the flags of a line.
-/
theorem inCommentBlock_eq_decide (level : Level) : inCommentBlock level = decide (level.toInt / 65536 % 2 = 1) := by
  rw [← toInt_shiftRight_16, ← Int.ediv_one (level >>> 16).toInt]
  exact @Level.and_twoPow_ne_zero (level >>> 16) 0 (by decide)

/--
The level word as a number: the flag, the depth of the line above the base level, that of the next one, and the mark of a comment.
-/
theorem toInt_packLevel {own next : Int} (hown : DepthFits own) (hnext : DepthKept next) (comment visible : Bool) :
    (packLevel (Int32.ofInt own) (Int32.ofInt next) comment visible).toInt
      = (if own < next then 8192 else if visible then 0 else 4096) + own + 1024 + next * 131072 + if comment then 65536 else 0 := by
  obtain ⟨hownLow, hownHigh⟩ := hown
  obtain ⟨hnextLow, hnextHigh⟩ := hnext
  have hown : (Int32.ofInt own).toInt = own := Int32.toInt_ofInt_of_le (by omega) (by omega)
  have hnext : (Int32.ofInt next).toInt = next := Int32.toInt_ofInt_of_le (by omega) (by omega)
  have hshift : (Int32.ofInt next <<< 17).toInt = next * 131072 := by
    rw [toInt_shiftLeft_17 (by omega) (by omega), hnext]
  have hbase : Level.base.toInt = 1024 := by decide
  unfold packLevel
  simp only
  generalize hflag : (if Int32.ofInt own < Int32.ofInt next then Level.headerFlag else if visible then 0 else Level.whiteFlag)
    = flag
  have hflagInt : flag.toInt = if own < next then 8192 else if visible then 0 else 4096 := by
    have hlt := Level.ofInt_lt_ofInt (a := own) (b := next) (by omega) (by omega) (by omega) (by omega)
    rw [← hflag]
    simp only [hlt]
    split
    . decide
    . split <;> decide
  have hflagBound : 0 ≤ flag.toInt ∧ flag.toInt ≤ 8192 := by
    rw [hflagInt]
    split
    . decide
    . split <;> decide
  generalize hbit : (if comment then (0x10000 : Int32) else 0) = bit
  have hbitInt : bit.toInt = if comment then 65536 else 0 := by
    rw [← hbit]
    split <;> decide
  have hbitBound : 0 ≤ bit.toInt ∧ bit.toInt ≤ 65536 := by
    rw [hbitInt]
    split <;> decide
  rw [← hbitInt, ← hflagInt, Int32.toInt_add, Int32.toInt_add, Int32.toInt_add, Int32.toInt_add, hown, hshift, hbase]
  simp only [Int.bmod_add_bmod]
  rw [Int.bmod_eq_of_le (by omega) (by omega)]

/--
What is below the mark of a comment.
-/
theorem flag_bounds (own next : Int) (visible : Bool) :
    0 ≤ (if own < next then 8192 else if visible then 0 else 4096 : Int)
      ∧ (if own < next then 8192 else if visible then 0 else 4096 : Int) ≤ 8192 := by
  split
  . decide
  . split <;> decide

variable {own next : Int}

theorem depthAfter_packLevel (hown : DepthFits own) (hnext : DepthKept next) (comment visible : Bool) :
    (depthAfter (packLevel (Int32.ofInt own) (Int32.ofInt next) comment visible)).toInt = next := by
  obtain ⟨hlow, hhigh⟩ := flag_bounds own next visible
  obtain ⟨hownLow, hownHigh⟩ := hown
  rw [depthAfter, toInt_shiftRight_17, toInt_packLevel ⟨hownLow, hownHigh⟩ hnext]
  split <;> omega

theorem inCommentBlock_packLevel (hown : DepthFits own) (hnext : DepthKept next) (comment visible : Bool) :
    inCommentBlock (packLevel (Int32.ofInt own) (Int32.ofInt next) comment visible) = comment := by
  obtain ⟨hlow, hhigh⟩ := flag_bounds own next visible
  obtain ⟨hownLow, hownHigh⟩ := hown
  rw [inCommentBlock_eq_decide, toInt_packLevel ⟨hownLow, hownHigh⟩ hnext]
  cases comment
  . simp only [Bool.false_eq_true, ↓reduceIte, decide_eq_false_iff_not]
    omega
  . simp only [↓reduceIte, decide_eq_true_eq]
    omega

section InField

variable (hown : Level.InField (0x400 + own)) (hnext : DepthKept next)
include hown hnext

theorem number_packLevel (comment visible : Bool) :
    (packLevel (Int32.ofInt own) (Int32.ofInt next) comment visible).number.toInt = 0x400 + own := by
  rw [Level.toInt_number, toInt_packLevel (.of_inField hown) hnext]
  obtain ⟨hlow, hhigh⟩ := hown
  split <;> split <;> omega

/--
A line is a header if it opens more braces than it closes.
-/
theorem isHeader_packLevel (comment visible : Bool) :
    (packLevel (Int32.ofInt own) (Int32.ofInt next) comment visible).isHeader = decide (own < next) := by
  rw [Level.isHeader_eq_decide, toInt_packLevel (.of_inField hown) hnext, decide_eq_decide]
  obtain ⟨hlow, hhigh⟩ := hown
  by_cases hlt : own < next
  . simp only [hlt, if_true, iff_true]
    split <;> omega
  . simp only [hlt, if_false, iff_false]
    split <;> split <;> omega

/--
A line is white if it shows nothing and is no header.
-/
theorem isWhite_packLevel (comment visible : Bool) :
    (packLevel (Int32.ofInt own) (Int32.ofInt next) comment visible).isWhite = (!visible && !decide (own < next)) := by
  rw [Level.isWhite_eq_decide, toInt_packLevel (.of_inField hown) hnext, Bool.eq_iff_iff, decide_eq_true_iff]
  obtain ⟨hlow, hhigh⟩ := hown
  by_cases hlt : own < next
  . simp only [hlt, if_true, decide_true, Bool.not_true, Bool.and_false, Bool.false_eq_true, iff_false]
    split <;> omega
  . cases visible
    . simp only [hlt, if_false, Bool.false_eq_true, decide_false, Bool.not_false, Bool.and_self, iff_true]
      split <;> omega
    . simp only [hlt, if_false, if_true, Bool.not_true, Bool.false_and, Bool.false_eq_true, iff_false]
      split <;> omega

end InField

end Highlight.Tcl
