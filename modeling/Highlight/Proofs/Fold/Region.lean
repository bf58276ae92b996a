import Highlight.Fold.Region
import Mathlib.Data.Nat.Find
import Mathlib.Logic.ExistsUnique

/-!
The blocks that the levels of a text describe. A line opens a block if the next line that shows something is deeper, and
the block goes as far as the lines are deeper or white, up to the last of them that shows something. So where no
header is white, two blocks share no line or one of them holds the other.
-/

namespace Highlight.Region

variable {depth level : Level} {below : List Level} {levels : Array Level} {region other : Region} {line next : Nat}

section Size

/--
Below a header stand its block, white lines that are no part of it, and a line that is not deeper.
-/
theorem exists_split (depth : Level) (below : List Level) : ∃ block gap rest : List Level,
    below = block ++ (gap ++ rest) ∧ block.length = size depth below ∧ (∀ level ∈ block, holds depth level = true)
      ∧ (∀ level, block.getLast? = some level → level.isWhite = false) ∧ (∀ level ∈ gap, level.isWhite = true)
      ∧ ∀ level, rest.head? = some level → holds depth level = false := by
  let extent := below.takeWhile (holds depth)
  refine ⟨(extent.reverse.dropWhile Level.isWhite).reverse, (extent.reverse.takeWhile Level.isWhite).reverse,
    below.dropWhile (holds depth), ?_, ?_, ?_, ?_, ?_, ?_⟩
  . rw [← List.append_assoc, ← List.reverse_append, List.takeWhile_append_dropWhile, List.reverse_reverse,
      List.takeWhile_append_dropWhile]
  . rw [List.length_reverse]
    rfl
  . intro level hlevel
    have hextent : level ∈ extent := by
      have := (List.dropWhile_suffix Level.isWhite).subset (List.mem_reverse.mp hlevel)
      exact List.mem_reverse.mp this
    exact List.all_eq_true.mp List.all_takeWhile level hextent
  . intro level hlast
    rw [List.getLast?_reverse] at hlast
    have := List.head?_dropWhile_not Level.isWhite extent.reverse
    rw [hlast] at this
    simpa using this
  . intro level hlevel
    exact List.all_eq_true.mp List.all_takeWhile level (List.mem_reverse.mp hlevel)
  . intro level hhead
    have := List.head?_dropWhile_not (holds depth) below
    rw [hhead] at this
    simpa using this

theorem size_le_length (depth : Level) (below : List Level) : size depth below ≤ below.length := by
  obtain ⟨block, gap, rest, rfl, hsize, _⟩ := exists_split depth below
  rw [← hsize, List.length_append]
  exact Nat.le_add_right _ _

theorem holds_of_lt_size {i : Nat} (hi : i < size depth below) (hlevel : below[i]? = some level) : holds depth level = true := by
  obtain ⟨block, gap, rest, heq, hsize, hblock, _⟩ := exists_split depth below
  rw [heq, List.getElem?_append_left (hsize ▸ hi)] at hlevel
  exact hblock level (List.mem_of_getElem? hlevel)

/--
A block ends with a line that shows something.
-/
theorem isWhite_of_last (hsize : 0 < size depth below) (hlevel : below[size depth below - 1]? = some level) :
    level.isWhite = false := by
  obtain ⟨block, gap, rest, heq, hlength, _, hlast, _⟩ := exists_split depth below
  rw [← hlength] at hsize
  rw [← hlength, heq, List.getElem?_append_left (Nat.sub_lt hsize Nat.one_pos)] at hlevel
  exact hlast level (List.getLast?_eq_getElem? ▸ hlevel)

/--
Up to a line behind a block that shows something, there is one that the block does not hold.
-/
theorem exists_holds_eq_false {j : Nat} (hj : size depth below ≤ j) (hlevel : below[j]? = some level)
    (hvisible : level.isWhite = false) :
    ∃ i bound, size depth below ≤ i ∧ i ≤ j ∧ below[i]? = some bound ∧ holds depth bound = false := by
  obtain ⟨block, gap, rest, heq, hsize, _, _, hgap, hrest⟩ := exists_split depth below
  have hindex (k : Nat) : below[size depth below + k]? = (gap ++ rest)[k]? := by
    rw [← hsize]
    conv => lhs; rw [heq]
    rw [List.getElem?_append_right (Nat.le_add_right _ _), Nat.add_sub_cancel_left]
  obtain ⟨k, rfl⟩ := Nat.exists_eq_add_of_le hj
  rw [hindex] at hlevel
  by_cases hk : k < gap.length
  . rw [List.getElem?_append_left hk] at hlevel
    have hwhite := hgap level (List.mem_of_getElem? hlevel)
    rw [hvisible] at hwhite
    cases hwhite
  . cases rest with
    | nil =>
      rw [List.append_nil, List.getElem?_eq_none (Nat.le_of_not_lt hk)] at hlevel
      cases hlevel
    | cons bound rest =>
      refine ⟨size depth below + gap.length, bound, Nat.le_add_right _ _, by omega, ?_, hrest bound rfl⟩
      rw [hindex, List.getElem?_append_right (Nat.le_refl _), Nat.sub_self]
      rfl

end Size

/--
The blocks that start at one of the lines `levels`, the first of which is `line`.
-/
theorem mem_ofLevelsFrom {levels : List Level} : region ∈ ofLevelsFrom line levels ↔
    ∃ i level, levels[i]? = some level ∧ level.isHeader = true ∧ 0 < size level.number (levels.drop (i + 1))
      ∧ region = ⟨line + i, line + i + size level.number (levels.drop (i + 1))⟩ := by
  induction levels generalizing line with
  | nil => simp [ofLevelsFrom]
  | cons first below ih =>
    have htail : region ∈ ofLevelsFrom (line + 1) below ↔ ∃ i level, (first :: below)[i + 1]? = some level
        ∧ level.isHeader = true ∧ 0 < size level.number ((first :: below).drop (i + 1 + 1))
        ∧ region = ⟨line + (i + 1), line + (i + 1) + size level.number ((first :: below).drop (i + 1 + 1))⟩ := by
      rw [ih]
      simp only [List.getElem?_cons_succ, List.drop_succ_cons, Nat.add_assoc, Nat.add_comm 1]
    have hhead : region ∈ ofLevelsFrom line (first :: below) ↔ (first.isHeader = true ∧ 0 < size first.number below
        ∧ region = ⟨line, line + size first.number below⟩) ∨ region ∈ ofLevelsFrom (line + 1) below := by
      rw [ofLevelsFrom]
      split
      . next hblock => simp_all
      . next hnone => simp_all
    rw [hhead, htail]
    constructor
    . rintro (⟨hheader, hsize, rfl⟩ | ⟨i, level, hlevel⟩)
      . exact ⟨0, first, rfl, hheader, hsize, rfl⟩
      . exact ⟨i + 1, level, hlevel⟩
    . rintro ⟨i, level, hlevel, hheader, hsize, rfl⟩
      cases i with
      | zero =>
        obtain rfl : first = level := by simpa using hlevel
        exact .inl ⟨hheader, hsize, rfl⟩
      | succ i => exact .inr ⟨i, level, hlevel, hheader, hsize, rfl⟩

theorem pairwise_ofLevelsFrom (line : Nat) (levels : List Level) :
    (ofLevelsFrom line levels).Pairwise (·.header < ·.header) := by
  induction levels generalizing line with
  | nil => exact .nil
  | cons first below ih =>
    rw [ofLevelsFrom]
    split
    . refine .cons ?_ (ih _)
      intro region hregion
      obtain ⟨i, level, _, _, _, rfl⟩ := mem_ofLevelsFrom.mp hregion
      show line < line + 1 + i
      omega
    . exact ih _

/--
The level of a line, as in a document.
-/
def levelAt (levels : Array Level) (line : Nat) : Level :=
  levels[line]?.getD .base

/--
The line `next` is the first one behind `line` that shows something.
-/
structure NextVisible (levels : Array Level) (line next : Nat) : Prop where
  lt : line < next
  lt_size : next < levels.size
  visible : (levelAt levels next).isWhite = false
  white : ∀ i, line < i → i < next → (levelAt levels i).isWhite = true

/--
A header with the lines below it that are deeper or white, up to the last one that shows something.
-/
structure Encloses (levels : Array Level) (region : Region) : Prop where
  lt : region.header < region.last
  lt_size : region.last < levels.size
  isHeader : (levelAt levels region.header).isHeader = true
  visible : (levelAt levels region.last).isWhite = false
  inside : ∀ i, region.header < i → i ≤ region.last →
    (levelAt levels i).isWhite = true ∨ (levelAt levels region.header).number < (levelAt levels i).number
  behind : ∀ next, NextVisible levels region.last next →
    ¬ (levelAt levels region.header).number < (levelAt levels next).number

theorem levelAt_eq (h : levels[line]? = some level) : levelAt levels line = level := by
  rw [levelAt, h]
  rfl

theorem getElem?_eq_levelAt (h : line < levels.size) : levels[line]? = some (levelAt levels line) := by
  rw [levelAt, Array.getElem?_eq_getElem h]
  rfl

/--
What stands below a line.
-/
theorem getElem?_drop_levels (levels : Array Level) (line i : Nat) :
    (levels.toList.drop (line + 1))[i]? = levels[line + 1 + i]? := by
  rw [List.getElem?_drop, Array.getElem?_toList]

theorem holds_iff : holds depth level = true ↔ level.isWhite = true ∨ depth < level.number := by
  rw [holds, Bool.or_eq_true, decide_eq_true_eq]

/--
The number of lines in the block below a line, if the line opens one.
-/
abbrev sizeAt (levels : Array Level) (line : Nat) : Nat :=
  size (levelAt levels line).number (levels.toList.drop (line + 1))

theorem mem_ofLevels : region ∈ ofLevels levels ↔ (levelAt levels region.header).isHeader = true
    ∧ 0 < sizeAt levels region.header ∧ region.last = region.header + sizeAt levels region.header := by
  have hbase : Level.base.isHeader = false := by decide
  rw [ofLevels, mem_ofLevelsFrom]
  constructor
  . rintro ⟨i, level, hlevel, hheader, hsize, rfl⟩
    rw [Array.getElem?_toList] at hlevel
    have hat : levelAt levels (0 + i) = level := by rw [Nat.zero_add, levelAt_eq hlevel]
    dsimp only [sizeAt]
    rw [hat, Nat.zero_add]
    exact ⟨hheader, hsize, rfl⟩
  . rintro ⟨hheader, hsize, hlast⟩
    have hlt : region.header < levels.size := by
      apply Nat.lt_of_not_le
      intro hge
      rw [levelAt, Array.getElem?_eq_none hge] at hheader
      exact absurd hheader (ne_true_of_eq_false hbase)
    refine ⟨region.header, levelAt levels region.header, ?_, hheader, hsize, ?_⟩
    . rw [Array.getElem?_toList, getElem?_eq_levelAt hlt]
    . rw [Nat.zero_add, ← hlast]

/--
If the next line that shows something is deeper, the block goes up to it at least.
-/
theorem le_sizeAt (hnext : next < levels.size) (hvisible : (levelAt levels next).isWhite = false) (hlt : line < next)
    (hinside : ∀ i, line < i → i ≤ next →
      (levelAt levels i).isWhite = true ∨ (levelAt levels line).number < (levelAt levels i).number) :
    next ≤ line + sizeAt levels line := by
  apply Nat.le_of_not_lt
  intro hbehind
  obtain ⟨k, rfl⟩ := Nat.exists_eq_add_of_lt hlt
  have hlevel : (levels.toList.drop (line + 1))[k]? = some (levelAt levels (line + k + 1)) := by
    rw [getElem?_drop_levels, ← getElem?_eq_levelAt hnext]
    congr 1
    omega
  have hsize : sizeAt levels line ≤ k := by omega
  obtain ⟨i, bound, _, hi, hbound, hout⟩ := exists_holds_eq_false hsize hlevel hvisible
  rw [getElem?_drop_levels] at hbound
  have hin := hinside (line + 1 + i) (by omega) (by omega)
  rw [levelAt_eq hbound, ← holds_iff, hout] at hin
  cases hin

theorem encloses_of_mem (h : region ∈ ofLevels levels) : Encloses levels region := by
  obtain ⟨hheader, hsize, hlast⟩ := mem_ofLevels.mp h
  have hlength : sizeAt levels region.header ≤ levels.size - (region.header + 1) := by
    rw [← Array.length_toList, ← List.length_drop]
    exact size_le_length _ _
  have hlt : region.last < levels.size := by omega
  have hbelow {i : Nat} (hi : i < levels.size) (hle : region.header < i) :
      (levels.toList.drop (region.header + 1))[i - region.header - 1]? = some (levelAt levels i) := by
    rw [getElem?_drop_levels, ← getElem?_eq_levelAt hi]
    congr 1
    omega
  refine ⟨by omega, hlt, hheader, ?_, ?_, ?_⟩
  . have hat := hbelow hlt (by omega)
    rw [show region.last - region.header - 1 = sizeAt levels region.header - 1 by omega] at hat
    exact isWhite_of_last hsize hat
  . intro i hi hle
    have hin : i - region.header - 1 < sizeAt levels region.header := by omega
    exact holds_iff.mp (holds_of_lt_size hin (hbelow (by omega) hi))
  . intro next hnext hdeeper
    -- Otherwise all lines up to the next one that shows something belonged to the block.
    have hinside : ∀ i, region.header < i → i ≤ next →
        (levelAt levels i).isWhite = true ∨ (levelAt levels region.header).number < (levelAt levels i).number := by
      intro i hi hle
      by_cases hin : i ≤ region.last
      . have hsize' : i - region.header - 1 < sizeAt levels region.header := by omega
        exact holds_iff.mp (holds_of_lt_size hsize' (hbelow (by omega) hi))
      . rcases Nat.lt_or_eq_of_le hle with hlt' | rfl
        . exact .inl (hnext.white i (by omega) hlt')
        . exact .inr hdeeper
    have := le_sizeAt hnext.lt_size hnext.visible (by have := hnext.lt; omega) hinside
    have := hnext.lt
    omega

/--
A header opens a block if the next line that shows something is deeper.
-/
theorem exists_mem_of_deeper (hheader : (levelAt levels line).isHeader = true) (hnext : NextVisible levels line next)
    (hdeeper : (levelAt levels line).number < (levelAt levels next).number) :
    ∃ region ∈ ofLevels levels, region.header = line := by
  have hle := le_sizeAt hnext.lt_size hnext.visible hnext.lt (by
    intro i hi hle
    rcases Nat.lt_or_eq_of_le hle with hlt | rfl
    . exact .inl (hnext.white i hi hlt)
    . exact .inr hdeeper)
  have hlt := hnext.lt
  have hsize : 0 < sizeAt levels line := by omega
  exact ⟨⟨line, line + sizeAt levels line⟩, mem_ofLevels.mpr ⟨hheader, hsize, rfl⟩, rfl⟩

/--
A header opens one block at most.
-/
theorem eq_of_mem (h : region ∈ ofLevels levels) (h' : other ∈ ofLevels levels) (hheader : other.header = region.header) :
    other = region := by
  obtain ⟨_, _, hlast⟩ := mem_ofLevels.mp h
  obtain ⟨_, _, hlast'⟩ := mem_ofLevels.mp h'
  rw [hheader, ← hlast] at hlast'
  cases other
  cases region
  simp_all

/--
Behind a line, the first one that shows something, if any does.
-/
theorem exists_nextVisible {bound : Nat} (hlt : line < bound) (hbound : bound < levels.size)
    (hvisible : (levelAt levels bound).isWhite = false) : ∃ next, NextVisible levels line next ∧ next ≤ bound := by
  have hexists : ∃ next, line < next ∧ (levelAt levels next).isWhite = false := ⟨bound, hlt, hvisible⟩
  have hfound := Nat.find_spec hexists
  have hle : Nat.find hexists ≤ bound := Nat.find_min' hexists ⟨hlt, hvisible⟩
  refine ⟨Nat.find hexists, ⟨hfound.1, by omega, hfound.2, ?_⟩, hle⟩
  intro i hi hmin
  cases hwhite : (levelAt levels i).isWhite with
  | true => rfl
  | false => exact absurd ⟨hi, hwhite⟩ (Nat.find_min hexists hmin)

/--
A block that starts within another one ends within it.
-/
theorem Encloses.last_le (h : Encloses levels region) (h' : Encloses levels other)
    (hvisible : (levelAt levels other.header).isWhite = false) (hlt : region.header < other.header)
    (hle : other.header ≤ region.last) : other.last ≤ region.last := by
  apply Nat.le_of_not_lt
  intro hbehind
  have hdeeper := (h.inside other.header hlt hle).resolve_left (ne_true_of_eq_false hvisible)
  -- The first line behind the outer block that shows something is in the inner one, and so deeper.
  obtain ⟨next, hnext, hbound⟩ := exists_nextVisible hbehind h'.lt_size h'.visible
  have hinner := (h'.inside next (Nat.lt_of_le_of_lt hle hnext.lt) hbound).resolve_left (ne_true_of_eq_false hnext.visible)
  exact h.behind next hnext (Int32.lt_trans hdeeper hinner)

/--
The lines of `inner` are lines of `region`.
-/
structure Holds (region inner : Region) : Prop where
  header_le : region.header ≤ inner.header
  last_le : inner.last ≤ region.last

/--
The blocks of a text stand in the order of their headers. Each reaches from its header to the last line that shows something
before the next one that is not deeper, and each header with a deeper line below has one. Where no header is white, two
blocks share no line or one of them holds the other.
-/
theorem ofLevels_spec (levels : Array Level) :
    (ofLevels levels).Pairwise (·.header < ·.header)
      ∧ (∀ region ∈ ofLevels levels, Encloses levels region)
      ∧ (∀ line next, (levelAt levels line).isHeader = true → NextVisible levels line next →
        (levelAt levels line).number < (levelAt levels next).number → ∃! region, region ∈ ofLevels levels ∧ region.header = line)
      ∧ ((∀ level ∈ levels, level.isHeader = true → level.isWhite = false) →
        ∀ region ∈ ofLevels levels, ∀ other ∈ ofLevels levels,
          region.last < other.header ∨ other.last < region.header ∨ region.Holds other ∨ other.Holds region) := by
  refine ⟨pairwise_ofLevelsFrom 0 levels.toList, fun region => encloses_of_mem, ?_, ?_⟩
  . intro line next hheader hnext hdeeper
    obtain ⟨region, hregion, rfl⟩ := exists_mem_of_deeper hheader hnext hdeeper
    exact ⟨region, ⟨hregion, rfl⟩, fun other hother => eq_of_mem hregion hother.1 hother.2⟩
  . intro hvisible region hregion other hother
    have h := encloses_of_mem hregion
    have h' := encloses_of_mem hother
    have hshows {region : Region} (h : Encloses levels region) : (levelAt levels region.header).isWhite = false :=
      hvisible _ (Array.mem_of_getElem? (getElem?_eq_levelAt (Nat.lt_trans h.lt h.lt_size))) h.isHeader
    rcases Nat.lt_trichotomy region.header other.header with hlt | heq | hlt
    . by_cases hle : other.header ≤ region.last
      . exact .inr (.inr (.inl ⟨Nat.le_of_lt hlt, h.last_le h' (hshows h') hlt hle⟩))
      . exact .inl (Nat.lt_of_not_le hle)
    . obtain rfl := eq_of_mem hregion hother heq.symm
      exact .inr (.inr (.inl ⟨Nat.le_refl _, Nat.le_refl _⟩))
    . by_cases hle : region.header ≤ other.last
      . exact .inr (.inr (.inr ⟨Nat.le_of_lt hlt, h'.last_le h (hshows h) hlt hle⟩))
      . exact .inr (.inl (Nat.lt_of_not_le hle))

/--
A block with a block in it, white lines in both and behind the inner one.
-/
theorem ofLevels_spec_nested :
    let levels : Array Level := #[0x2400, 0x2401, 0x1402, 0x402, 0x1401, 0x401, 0x400]
    (∀ level ∈ levels, level.isHeader = true → level.isWhite = false) ∧ NextVisible levels 1 3
      ∧ (∃! region, region ∈ ofLevels levels ∧ region.header = 1)
      ∧ ∀ region ∈ ofLevels levels, ∀ other ∈ ofLevels levels,
        region.last < other.header ∨ other.last < region.header ∨ region.Holds other ∨ other.Holds region := by
  intro levels
  obtain ⟨_, _, hunique, hnested⟩ := ofLevels_spec levels
  have hall : levels.all (fun level => !(level.isHeader && level.isWhite)) = true := by decide +kernel
  have hvisible : ∀ level ∈ levels, level.isHeader = true → level.isWhite = false := by
    intro level hlevel hheader
    simpa [hheader] using Array.all_eq_true_iff_forall_mem.mp hall level hlevel
  have hnext : NextVisible levels 1 3 := by
    refine ⟨by decide, by decide, by decide, fun i hi hlt => ?_⟩
    obtain rfl : i = 2 := by omega
    decide
  exact ⟨hvisible, hnext, hunique 1 3 (by decide) hnext (by decide), hnested hvisible⟩

example : ofLevels #[0x2400, 0x2401, 0x1402, 0x402, 0x1401, 0x401, 0x400] = [⟨0, 5⟩, ⟨1, 3⟩] := by
  decide

end Highlight.Region
