import Highlight.Text.LineIndex

/-!
Line numbers as counts: a position stands on the line whose number is the number of terminators that
end in front of it, and a line starts right behind each of these.
-/

namespace Highlight.LineIndex

/--
Whether a line starts at `pos`.
-/
def startsLine (text : Array UInt8) (pos : Nat) : Bool :=
  pos == 0 || endsLine text (pos - 1)

/--
The number of line terminators that end in front of `pos`.
-/
def breaksBefore (text : Array UInt8) (pos : Nat) : Nat :=
  (List.range pos).countP (endsLine text)

variable {text : Array UInt8}

theorem lt_size_of_endsLine {pos : Nat} (h : endsLine text pos = true) : pos < text.size := by
  unfold endsLine at h
  split at h
  . next heq => exact (Array.getElem?_eq_some_iff.mp heq).1
  . next heq => exact (Array.getElem?_eq_some_iff.mp heq).1
  . simp at h

theorem startsLine_zero : startsLine text 0 = true := by
  simp [startsLine]

theorem startsLine_succ (pos : Nat) : startsLine text (pos + 1) = endsLine text pos := by
  simp [startsLine]

theorem le_size_of_startsLine {pos : Nat} (h : startsLine text pos = true) : pos ≤ text.size := by
  cases pos with
  | zero => omega
  | succ pos =>
    rw [startsLine_succ] at h
    exact lt_size_of_endsLine h

theorem endsLine_of_startsLine {pos : Nat} (h : startsLine text pos = true) (hpos : 0 < pos) :
    endsLine text (pos - 1) = true := by
  cases pos with
  | zero => omega
  | succ pos => rwa [startsLine_succ] at h

theorem breaksBefore_zero : breaksBefore text 0 = 0 := by
  simp [breaksBefore]

theorem breaksBefore_succ (pos : Nat) :
    breaksBefore text (pos + 1) = breaksBefore text pos + if startsLine text (pos + 1) then 1 else 0 := by
  rw [startsLine_succ, breaksBefore, List.range_succ, List.countP_append, List.countP_singleton]
  rfl

theorem breaksBefore_mono {text : Array UInt8} {pos pos' : Nat} (h : pos ≤ pos') :
    breaksBefore text pos ≤ breaksBefore text pos' := by
  induction h with
  | refl => exact Nat.le_refl _
  | step _ ih =>
    rw [breaksBefore_succ]
    omega

theorem breaksBefore_eq_of_no_start {pos pos' : Nat} (h : pos ≤ pos')
    (hno : ∀ p, pos < p → p ≤ pos' → startsLine text p = false) :
    breaksBefore text pos' = breaksBefore text pos := by
  induction h with
  | refl => rfl
  | @step m hle ih =>
    have hle : pos ≤ m := hle
    rw [breaksBefore_succ, ih, hno (m + 1) (by omega) (by omega)]
    . simp
    . intro p hp hp'
      exact hno p hp (by omega)

theorem breaksBefore_lt {pos pos' : Nat} (h : pos < pos') (hstart : startsLine text pos' = true) :
    breaksBefore text pos < breaksBefore text pos' := by
  obtain ⟨m, rfl⟩ : ∃ m, pos' = m + 1 := ⟨pos' - 1, by omega⟩
  have : breaksBefore text pos ≤ breaksBefore text m := breaksBefore_mono (by omega)
  rw [breaksBefore_succ, hstart]
  simp only [↓reduceIte]
  omega

theorem breaksBefore_size_le (text : Array UInt8) (pos : Nat) : breaksBefore text pos ≤ breaksBefore text text.size := by
  by_cases h : pos ≤ text.size
  . exact breaksBefore_mono h
  . refine Nat.le_of_eq (breaksBefore_eq_of_no_start (by omega) ?_)
    intro p hp _
    have := @le_size_of_startsLine text p
    simp only [Bool.eq_false_iff]
    intro hp'
    have := this hp'
    omega

/--
The first position of each line but the first one.
-/
theorem starts_toList (text : Array UInt8) :
    (ofText text).starts.toList = 0 :: ((List.range text.size).filter (endsLine text)).map (· + 1) := by
  simp [ofText]

theorem count_ofText (text : Array UInt8) : (ofText text).count = breaksBefore text text.size + 1 := by
  rw [count, ← Array.length_toList, starts_toList, List.length_cons, List.length_map, breaksBefore,
    List.countP_eq_length_filter]

theorem countP_range_and (p : Nat → Bool) (size pos : Nat) (hp : ∀ i, p i = true → i < size) :
    (List.range size).countP (fun i => decide (i + 1 ≤ pos) && p i) = (List.range pos).countP p := by
  have split : ∀ n, n ≤ pos → (List.range n).countP (fun i => decide (i + 1 ≤ pos) && p i)
      = (List.range n).countP p := by
    intro n hn
    apply List.countP_congr
    intro i hi
    have := List.mem_range.mp hi
    simp only [Bool.and_eq_true, decide_eq_true_eq]
    constructor
    . exact fun h => h.2
    . exact fun h => ⟨by omega, h⟩
  by_cases h : size ≤ pos
  . rw [split size h]
    obtain ⟨k, rfl⟩ : ∃ k, pos = size + k := ⟨pos - size, by omega⟩
    clear split h
    induction k with
    | zero => rfl
    | succ k ih =>
      rw [ih, ← Nat.add_assoc, List.range_succ, List.countP_append, List.countP_singleton]
      have : p (size + k) = false := by
        rw [Bool.eq_false_iff]
        intro hk
        have := hp _ hk
        omega
      simp [this]
  . obtain ⟨k, rfl⟩ : ∃ k, size = pos + k := ⟨size - pos, by omega⟩
    clear h hp
    rw [← split pos (Nat.le_refl _)]
    clear split
    induction k with
    | zero => rfl
    | succ k ih =>
      rw [← Nat.add_assoc, List.range_succ, List.countP_append, List.countP_singleton, ih]
      have : ¬ (pos + k + 1 ≤ pos) := by omega
      simp [this]

/--
The line of a position is the number of terminators in front of it.
-/
theorem lineOf_ofText (text : Array UInt8) (pos : Nat) : (ofText text).lineOf pos = breaksBefore text pos := by
  rw [lineOf, ← Array.countP_toList, starts_toList, List.countP_cons, List.countP_map, List.countP_filter]
  have hcount := countP_range_and (endsLine text) text.size pos (fun i h => lt_size_of_endsLine h)
  have hzero : decide (0 ≤ pos) = true := by simp
  rw [hzero, breaksBefore, ← hcount]
  simp only [↓reduceIte, Nat.add_sub_cancel]
  rfl

theorem lineOf_lt_count (text : Array UInt8) (pos : Nat) :
    (ofText text).lineOf pos < (ofText text).count := by
  rw [lineOf_ofText, count_ofText]
  have := breaksBefore_size_le text pos
  omega

theorem getElem?_filter_range (p : Nat → Bool) (size pos : Nat) (hpos : pos < size) (hp : p pos = true) :
    ((List.range size).filter p)[(List.range pos).countP p]? = some pos := by
  obtain ⟨k, rfl⟩ : ∃ k, size = pos + (k + 1) := ⟨size - pos - 1, by omega⟩
  have : List.range (pos + (k + 1)) = List.range pos ++ pos :: (List.range k).map (pos + 1 + ·) := by
    rw [List.range_add, List.range_succ_eq_map, List.map_cons, List.map_map]
    simp only [Nat.add_zero, List.append_cancel_left_eq, List.cons.injEq, true_and]
    apply List.map_congr_left
    intro a _
    simp only [Function.comp_apply, Nat.succ_eq_add_one]
    omega
  rw [this, List.filter_append, List.getElem?_append_right]
  . rw [List.countP_eq_length_filter, Nat.sub_self, List.filter_cons, hp]
    rfl
  . exact Nat.le_of_eq List.countP_eq_length_filter.symm

/--
A line start is the first position of its line.
-/
theorem lineStart_of_startsLine {pos : Nat} (h : startsLine text pos = true) :
    (ofText text).lineStart (breaksBefore text pos) = pos := by
  rw [lineStart, ← Array.getElem?_toList, starts_toList]
  cases pos with
  | zero => simp [breaksBefore_zero]
  | succ pos =>
    rw [breaksBefore_succ, h]
    rw [startsLine_succ] at h
    simp only [↓reduceIte, List.getElem?_cons_succ]
    rw [List.getElem?_map, breaksBefore, getElem?_filter_range _ _ _ (lt_size_of_endsLine h) h]
    rfl

theorem lineStart_of_count_le {line : Nat} (h : (ofText text).count ≤ line) :
    (ofText text).lineStart line = text.size := by
  rw [lineStart, Array.getElem?_eq_none (by simpa only [count] using h)]
  rfl

theorem lineStart_le_size (line : Nat) : (ofText text).lineStart line ≤ text.size := by
  rw [lineStart, ← Array.getElem?_toList]
  cases h : (ofText text).starts.toList[line]? with
  | none => exact Nat.le_refl _
  | some pos =>
    have hmem := List.mem_of_getElem? h
    rw [starts_toList, List.mem_cons, List.mem_map] at hmem
    rcases hmem with rfl | ⟨pos, hpos, rfl⟩
    . exact Nat.zero_le _
    . exact lt_size_of_endsLine (List.mem_filter.mp hpos).2

/--
The first position of the line that `pos` stands on.
-/
def lineFloor (text : Array UInt8) (pos : Nat) : Nat :=
  (ofText text).lineStart ((ofText text).lineOf pos)

theorem lineFloor_spec (text : Array UInt8) (pos : Nat) :
    lineFloor text pos ≤ pos ∧ startsLine text (lineFloor text pos) = true
      ∧ ∀ p, lineFloor text pos < p → p ≤ pos → startsLine text p = false := by
  unfold lineFloor
  rw [lineOf_ofText]
  induction pos with
  | zero =>
    rw [lineStart_of_startsLine startsLine_zero]
    refine ⟨Nat.le_refl _, startsLine_zero, ?_⟩
    intro p hp hp'
    omega
  | succ pos ih =>
    cases h : startsLine text (pos + 1) with
    | true =>
      rw [lineStart_of_startsLine h]
      refine ⟨Nat.le_refl _, h, ?_⟩
      intro p hp hp'
      omega
    | false =>
      rw [breaksBefore_succ, h]
      simp only [Bool.false_eq_true, ↓reduceIte, Nat.add_zero]
      refine ⟨by omega, ih.2.1, ?_⟩
      intro p hp hp'
      by_cases hlast : p = pos + 1
      . rw [hlast, h]
      . exact ih.2.2 p hp (by omega)

theorem lineFloor_le (text : Array UInt8) (pos : Nat) : lineFloor text pos ≤ pos :=
  (lineFloor_spec text pos).1

theorem startsLine_lineFloor (text : Array UInt8) (pos : Nat) : startsLine text (lineFloor text pos) = true :=
  (lineFloor_spec text pos).2.1

theorem lineFloor_eq {text : Array UInt8} {pos q : Nat} (hle : q ≤ pos) (hstart : startsLine text q = true)
    (hno : ∀ p, q < p → p ≤ pos → startsLine text p = false) : lineFloor text pos = q := by
  obtain ⟨hle', hstart', hno'⟩ := lineFloor_spec text pos
  rcases Nat.lt_trichotomy (lineFloor text pos) q with hlt | heq | hlt
  . have := hno' q hlt hle
    rw [hstart] at this
    cases this
  . exact heq
  . have := hno _ hlt hle'
    rw [hstart'] at this
    cases this

theorem lineFloor_of_startsLine {pos : Nat} (h : startsLine text pos = true) : lineFloor text pos = pos := by
  rw [lineFloor, lineOf_ofText, lineStart_of_startsLine h]

/--
Behind `pos`, there is a first line start, or `pos` stands on the last line.
-/
theorem next_lineStart_cases (pos : Nat) (hpos : pos ≤ text.size) :
    (∃ next, pos < next ∧ startsLine text next = true
      ∧ (∀ p, pos < p → p < next → startsLine text p = false)
      ∧ breaksBefore text pos + 1 < (ofText text).count
      ∧ (ofText text).lineStart (breaksBefore text pos + 1) = next)
    ∨ ((∀ p, pos < p → startsLine text p = false)
      ∧ breaksBefore text pos + 1 = (ofText text).count
      ∧ (ofText text).lineStart (breaksBefore text pos + 1) = text.size) := by
  have search : ∀ k, (∃ next, pos < next ∧ next ≤ pos + k ∧ startsLine text next = true
      ∧ ∀ p, pos < p → p < next → startsLine text p = false)
      ∨ ∀ p, pos < p → p ≤ pos + k → startsLine text p = false := by
    intro k
    induction k with
    | zero => exact .inr (by intro p hp hp'; omega)
    | succ k ih =>
      rcases ih with ⟨next, hlt, hle, hstart, hno⟩ | hno
      . exact .inl ⟨next, hlt, by omega, hstart, hno⟩
      . cases h : startsLine text (pos + (k + 1)) with
        | true =>
          refine .inl ⟨pos + (k + 1), by omega, by omega, h, ?_⟩
          intro p hp hp'
          exact hno p hp (by omega)
        | false =>
          refine .inr ?_
          intro p hp hp'
          by_cases hlast : p = pos + (k + 1)
          . rw [hlast, h]
          . exact hno p hp (by omega)
  rcases search (text.size - pos) with ⟨next, hlt, hle, hstart, hno⟩ | hno
  . refine .inl ⟨next, hlt, hstart, hno, ?_⟩
    obtain ⟨m, rfl⟩ : ∃ m, next = m + 1 := ⟨next - 1, by omega⟩
    have hline : breaksBefore text (m + 1) = breaksBefore text pos + 1 := by
      rw [breaksBefore_succ, hstart, breaksBefore_eq_of_no_start (show pos ≤ m by omega)]
      . simp
      . intro p hp hp'
        exact hno p hp (by omega)
    have := breaksBefore_size_le text (m + 1)
    rw [count_ofText, ← hline, lineStart_of_startsLine hstart]
    exact ⟨by omega, rfl⟩
  . have hsize : breaksBefore text text.size = breaksBefore text pos :=
      breaksBefore_eq_of_no_start hpos (by intro p hp hp'; exact hno p hp (by omega))
    refine .inr ⟨?_, ?_, ?_⟩
    . intro p hp
      by_cases hp' : p ≤ text.size
      . exact hno p hp (by omega)
      . rw [Bool.eq_false_iff]
        intro hstart
        have := le_size_of_startsLine hstart
        omega
    . rw [count_ofText, hsize]
    . exact lineStart_of_count_le (Nat.le_of_eq (by rw [count_ofText, hsize]))

theorem exists_startsLine {line : Nat} (h : line < (ofText text).count) :
    ∃ pos, startsLine text pos = true ∧ breaksBefore text pos = line ∧ (ofText text).lineStart line = pos := by
  induction line with
  | zero =>
    have hzero : breaksBefore text 0 = 0 := breaksBefore_zero
    exact ⟨0, startsLine_zero, hzero, hzero ▸ lineStart_of_startsLine startsLine_zero⟩
  | succ line ih =>
    obtain ⟨pos, hstart, hline, _⟩ := ih (Nat.lt_of_succ_lt h)
    rcases next_lineStart_cases pos (le_size_of_startsLine hstart) with ⟨next, hlt, hnext, hno, _, heq⟩ | ⟨_, hcount, _⟩
    . obtain ⟨m, rfl⟩ : ∃ m, next = m + 1 := ⟨next - 1, by omega⟩
      have hbefore : breaksBefore text m = breaksBefore text pos :=
        breaksBefore_eq_of_no_start (by omega) (fun p hp hp' => hno p hp (by omega))
      refine ⟨m + 1, hnext, ?_, hline ▸ heq⟩
      rw [breaksBefore_succ, hnext, hbefore, hline]
      rfl
    . omega

/--
The lines in front of a line start are those that start in front of it.
-/
theorem lineStart_lt_iff {line pos : Nat} (hstart : startsLine text pos = true) :
    (ofText text).lineStart line < pos ↔ line < (ofText text).lineOf pos := by
  have hcount := lineOf_lt_count text pos
  rw [lineOf_ofText] at *
  rcases Nat.lt_or_ge line (ofText text).count with hlt | hge
  . obtain ⟨p, hp, hline, heq⟩ := exists_startsLine hlt
    rw [heq, ← hline]
    constructor
    . exact fun hlt => breaksBefore_lt hlt hstart
    . exact fun hlt => Nat.lt_of_not_le fun hle => Nat.not_le_of_lt hlt (breaksBefore_mono hle)
  . have := le_size_of_startsLine hstart
    rw [lineStart_of_count_le hge]
    omega

/--
A line in front of the one that `pos` stands on ends in front of `pos`.
-/
theorem lineStart_succ_le {line pos : Nat} (hline : line < (ofText text).lineOf pos) :
    (ofText text).lineStart (line + 1) ≤ pos := by
  have hcount := lineOf_lt_count text pos
  rw [lineOf_ofText] at *
  obtain ⟨p, hp, hbefore, heq⟩ := exists_startsLine (show line + 1 < (ofText text).count by omega)
  rw [heq]
  apply Nat.le_of_not_lt
  intro hlt
  have := breaksBefore_lt hlt hp
  omega

end Highlight.LineIndex
