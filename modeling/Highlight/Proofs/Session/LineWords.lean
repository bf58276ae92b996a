import Highlight.Proofs.Haskell.Resume
import Highlight.Proofs.Rust.Resume
import Highlight.Proofs.Scss.Context
import Highlight.Proofs.Tcl.Memory

/-!
The words that a line keeps for the pass over the next one. In the line states of the languages that have one, what colouring
knows at a line end is read back as it was, and a word that no colouring left behind means something, too. In the levels, the
depths and the flags are read back as they were packed.
-/

namespace Highlight

/--
A way to keep values in a line state. Those that fit are read back as they were, and whatever the state is, what is read
fits.
-/
structure LineState.Keeps {α : Type} (pack : α → LineState) (unpack : LineState → α) (Fits : α → Prop) : Prop where
  unpack_pack : ∀ value, Fits value → unpack (pack value) = value
  fits_unpack : ∀ state, Fits (unpack state)

theorem LineState.Keeps.unpack_pack_unpack {α : Type} {pack : α → LineState} {unpack : LineState → α} {Fits : α → Prop}
    (h : Keeps pack unpack Fits) (state : LineState) : unpack (pack (unpack state)) = unpack state := by
  apply h.unpack_pack
  apply h.fits_unpack

theorem Rust.Nesting.keeps : LineState.Keeps pack unpack (· < 1 <<< 31) where
  unpack_pack _ hdepth := unpack_pack hdepth
  fits_unpack state := by
    have hlt := state.toInt_lt
    unfold unpack
    rw [Nat.one_shiftLeft]
    omega

theorem Haskell.Memory.keeps : LineState.Keeps pack unpack (·.extra < 1 <<< 27) where
  unpack_pack _ hextra := unpack_pack hextra
  fits_unpack state := extra_unpack_lt state

theorem Tcl.Memory.keeps : LineState.Keeps pack unpack (fun _ => True) where
  unpack_pack _ _ := unpack_pack _
  fits_unpack _ := trivial

theorem Scss.Context.keeps : LineState.Keeps pack unpack Fits where
  unpack_pack _ hfits := unpack_pack hfits
  fits_unpack := fits_unpack

/--
Line states lose nothing: neither depths of 31 bits in Rust, nor a mode and a number of 27 bits in Haskell, nor what Tcl
leaves open, nor styles up to 30 and an operator of SCSS. What is read of any word is of this kind, and is the same after
it is packed again.
-/
theorem lineStates_keep :
    LineState.Keeps Rust.Nesting.pack Rust.Nesting.unpack (· < 1 <<< 31)
      ∧ LineState.Keeps Haskell.Memory.pack Haskell.Memory.unpack (·.extra < 1 <<< 27)
      ∧ LineState.Keeps Tcl.Memory.pack Tcl.Memory.unpack (fun _ => True)
      ∧ LineState.Keeps Scss.Context.pack Scss.Context.unpack Scss.Context.Fits
      ∧ ∀ state : LineState,
        Rust.Nesting.unpack (Rust.Nesting.pack (Rust.Nesting.unpack state)) = Rust.Nesting.unpack state
          ∧ Haskell.Memory.unpack (Haskell.Memory.unpack state).pack = Haskell.Memory.unpack state
          ∧ Tcl.Memory.unpack (Tcl.Memory.unpack state).pack = Tcl.Memory.unpack state
          ∧ Scss.Context.unpack (Scss.Context.unpack state).pack = Scss.Context.unpack state := by
  refine ⟨Rust.Nesting.keeps, Haskell.Memory.keeps, Tcl.Memory.keeps, Scss.Context.keeps, fun state => ⟨?_, ?_, ?_, ?_⟩⟩
  . apply Rust.Nesting.keeps.unpack_pack_unpack
  . apply Haskell.Memory.keeps.unpack_pack_unpack
  . apply Tcl.Memory.keeps.unpack_pack_unpack
  . apply Scss.Context.keeps.unpack_pack_unpack

/--
A context of SCSS with the largest style in each of its fields and the last of the operators, and a negative word with all
bits of a mode in Haskell.
-/
theorem lineStates_keep_full :
    let context : Scss.Context := ⟨some 30, some 30, some 30, some ⟨0x26, true⟩⟩
    Scss.Context.unpack context.pack = context ∧ Haskell.Memory.unpack (Haskell.Memory.unpack (-1)).pack = ⟨.plain, 0⟩ := by
  intro context
  obtain ⟨_, _, _, hscss, hstate⟩ := lineStates_keep
  have hfits : context.Fits := ⟨by simp [context, Scss.Packable], by simp [context, Scss.Packable],
    by simp [context, Scss.Packable], by simp [context]; decide⟩
  refine ⟨hscss.unpack_pack context hfits, ?_⟩
  rw [(hstate (-1)).2.1]
  decide

section Levels

open Level Tcl

/--
Level words lose nothing of numbers that fit into their bits: twelve for the depth of a line, and for that of the next one
sixteen with a sign. Tcl has fifteen for the latter, above the mark of a comment, and counts from the base level. No number
reaches into a flag, so the flags say whether the depth rises and whether the line shows nothing.
-/
theorem levelWords_keep :
    (∀ own next : Int, 0 ≤ own → own ≤ 0xFFF → -32768 ≤ next → next ≤ 32767 → ∀ (visible : Nat) (compact : Bool),
      let level := compose (.ofInt own) (.ofInt next) visible compact
      level.number.toInt = own ∧ level.next.toInt = next ∧ (level.isHeader = true ↔ own < next)
        ∧ (level.isWhite = true ↔ visible = 0 ∧ compact = true))
      ∧ ∀ own next : Int, -1024 ≤ own → own ≤ 3071 → -16384 ≤ next → next ≤ 16383 → ∀ comment visible : Bool,
        let level := packLevel (.ofInt own) (.ofInt next) comment visible
        level.number.toInt = own + base.toInt ∧ (depthAfter level).toInt = next ∧ inCommentBlock level = comment
          ∧ (level.isHeader = true ↔ next > own) ∧ (level.isWhite = true ↔ level.isHeader = false ∧ visible = false) := by
  constructor
  . intro own next hown hown' hnext hnext' visible compact
    refine ⟨number_compose hown hown' _ _ _, ?_, ?_, ?_⟩
    . rw [next_compose hown (by omega) (by omega) (by omega)]
      exact Int32.toInt_ofInt_of_le (by omega) (by omega)
    . rw [isHeader_compose_eq ⟨hown, hown'⟩, decide_eq_true_iff]
      exact ofInt_lt_ofInt (by omega) (by omega) (by omega) (by omega)
    . rw [isWhite_compose ⟨hown, hown'⟩, Bool.and_eq_true, beq_iff_eq]
  . intro own next hown hown' hnext hnext' comment visible
    have hfield : InField (0x400 + own) := ⟨by omega, by omega⟩
    have hfits : DepthFits own := .of_inField hfield
    have hkept : DepthKept next := ⟨hnext, hnext'⟩
    have hheader := isHeader_packLevel hfield hkept comment visible
    refine ⟨?_, depthAfter_packLevel hfits hkept _ _, inCommentBlock_packLevel hfits hkept _ _, ?_, ?_⟩
    . rw [number_packLevel hfield hkept, Int.add_comm]
      rfl
    . rw [hheader, decide_eq_true_iff]
    . rw [hheader, isWhite_packLevel hfield hkept, Bool.and_eq_true, Bool.not_eq_true', Bool.not_eq_true', and_comm]

/--
The deepest line in front of the smallest depth, and a line of Tcl that closes many braces more than it opens.
-/
theorem levelWords_keep_negative :
    let level := compose 0xFFF (-32768) 0 true
    let level' := packLevel 3071 (-16384) true false
    (level.number.toInt = 0xFFF ∧ level.next.toInt = -32768 ∧ level.isHeader = false ∧ level.isWhite = true)
      ∧ level'.number.toInt = 0xFFF ∧ (depthAfter level').toInt = -16384 ∧ inCommentBlock level' = true
      ∧ level'.isHeader = false ∧ level'.isWhite = true := by
  intro level level'
  obtain ⟨hcompose, hpack⟩ := levelWords_keep
  obtain ⟨hnumber, hnext, hheader, hwhite⟩ :=
    hcompose 0xFFF (-32768) (by decide) (by decide) (by decide) (by decide) 0 true
  obtain ⟨hnumber', hdepth, hcomment, hheader', hwhite'⟩ :=
    hpack 3071 (-16384) (by decide) (by decide) (by decide) (by decide) true false
  have hflat := Bool.eq_false_iff.mpr (hheader.not.mpr (by decide))
  have hflat' := Bool.eq_false_iff.mpr (hheader'.not.mpr (by decide))
  exact ⟨⟨hnumber, hnext, hflat, hwhite.mpr ⟨rfl, rfl⟩⟩, hnumber', hdepth, hcomment, hflat', hwhite'.mpr ⟨hflat', rfl⟩⟩

end Levels

end Highlight
