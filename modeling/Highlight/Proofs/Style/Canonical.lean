import Mathlib.Data.List.Chain
import Mathlib.Data.List.Induction
import Highlight.Style.Run

/-!
The runs of one style as a normal form: each sequence of styles has exactly one list of runs that follow each other from its
start to its end, hold its styles, and cannot be joined. A loop that lengthens the last run or begins a new one finds it, too.
-/

namespace Highlight.StyleRun

/--
The styles of the bytes in the runs.
-/
def expand (runs : List StyleRun) : List Style :=
  runs.flatMap fun run => List.replicate run.length run.style

/--
Runs of bytes with the given styles, the first of them at `start`: none is empty, they follow each other without a gap, and
neighbours are of different styles.
-/
structure IsCanonical (start : Nat) (styles : List Style) (runs : List StyleRun) : Prop where
  nonempty : ∀ run ∈ runs, run.start < run.stop
  starts : ∀ run ∈ runs.head?, run.start = start
  consecutive : runs.IsChain fun run next => run.stop = next.start
  ends : ∀ run ∈ runs.getLast?, run.stop = start + styles.length
  alternating : runs.IsChain fun run next => run.style ≠ next.style
  expand_eq : expand runs = styles

variable {start stop pos : Nat} {style : Style} {styles rest : List Style} {run : StyleRun} {runs : List StyleRun}

theorem expand_cons (run : StyleRun) (runs : List StyleRun) :
    expand (run :: runs) = List.replicate run.length run.style ++ expand runs :=
  List.flatMap_cons

theorem isCanonical_nil_iff : IsCanonical start styles [] ↔ styles = [] := by
  constructor
  . intro h
    exact h.expand_eq.symm
  . rintro rfl
    exact ⟨by simp, by simp, .nil, by simp, .nil, rfl⟩

/--
Behind the first run is a normal form of what it leaves, and that starts with another style.
-/
theorem isCanonical_cons_iff : IsCanonical start styles (run :: runs) ↔ run.start = start ∧ start < run.stop
    ∧ (∀ next ∈ runs.head?, run.style ≠ next.style)
    ∧ ∃ rest, styles = List.replicate run.length run.style ++ rest ∧ IsCanonical run.stop rest runs := by
  constructor
  . intro h
    have hstart : run.start = start := h.starts run rfl
    have hlt : run.start < run.stop := h.nonempty run List.mem_cons_self
    obtain ⟨hfollows, hconsecutive⟩ := List.isChain_cons.mp h.consecutive
    obtain ⟨hdiffers, halternating⟩ := List.isChain_cons.mp h.alternating
    have hsplit : styles = List.replicate run.length run.style ++ expand runs := by
      rw [← h.expand_eq, expand_cons]
    refine ⟨hstart, hstart ▸ hlt, hdiffers, expand runs, hsplit, ?_⟩
    exact
      { nonempty := fun next hnext => h.nonempty next (List.mem_cons_of_mem _ hnext)
        starts := fun next hnext => (hfollows next hnext).symm
        consecutive := hconsecutive
        ends := by
          intro last hlast
          have hend := h.ends last (by rw [List.getLast?_cons, Option.mem_def.mp hlast]; rfl)
          rw [hsplit, List.length_append, List.length_replicate, length] at hend
          omega
        alternating := halternating
        expand_eq := rfl }
  . rintro ⟨rfl, hlt, hdiffers, rest, rfl, h⟩
    exact
      { nonempty := List.forall_mem_cons.mpr ⟨hlt, h.nonempty⟩
        starts := by simp
        consecutive := List.isChain_cons.mpr ⟨fun next hnext => (h.starts next hnext).symm, h.consecutive⟩
        ends := by
          intro last hlast
          rw [List.length_append, List.length_replicate, length]
          rw [List.getLast?_cons, Option.mem_some_iff] at hlast
          cases hbehind : runs.getLast? with
          | none =>
            obtain rfl := List.getLast?_eq_none_iff.mp hbehind
            obtain rfl := isCanonical_nil_iff.mp h
            rw [hbehind, Option.getD_none] at hlast
            rw [← hlast, List.length_nil]
            omega
          | some next =>
            have hend := h.ends next hbehind
            rw [hbehind, Option.getD_some] at hlast
            rw [← hlast]
            omega
        alternating := List.isChain_cons.mpr ⟨hdiffers, h.alternating⟩
        expand_eq := by rw [expand_cons, h.expand_eq] }

theorem cons_of_ne (hdiffers : ∀ next ∈ runs.head?, style ≠ next.style) :
    cons pos style runs = ⟨pos, pos + 1, style⟩ :: runs := by
  cases runs with
  | nil => rfl
  | cons next runs => exact if_neg (by simpa using (hdiffers next rfl).symm)

theorem cons_of_eq (pos : Nat) (heq : run.style = style) : cons pos style (run :: runs) = { run with start := pos } :: runs :=
  if_pos (beq_iff_eq.mpr heq)

/--
A byte in front of runs in normal form lengthens the first of them or is a run of its own.
-/
theorem IsCanonical.cons (h : IsCanonical (pos + 1) styles runs) (style : Style) :
    IsCanonical pos (style :: styles) (cons pos style runs) := by
  by_cases hdiffers : ∀ next ∈ runs.head?, style ≠ next.style
  . rw [cons_of_ne hdiffers, isCanonical_cons_iff]
    exact ⟨rfl, Nat.lt_succ_self pos, hdiffers, styles, by simp [length], h⟩
  . simp only [ne_eq, not_forall, Decidable.not_not] at hdiffers
    obtain ⟨run, hrun, rfl⟩ := hdiffers
    obtain ⟨runs, rfl⟩ := List.head?_eq_some_iff.mp hrun
    obtain ⟨hstart, hlt, hdiffers, rest, rfl, hrest⟩ := isCanonical_cons_iff.mp h
    have hlength : ({ run with start := pos } : StyleRun).length = run.length + 1 := by
      simp only [length]
      omega
    rw [cons_of_eq pos rfl, isCanonical_cons_iff]
    refine ⟨rfl, Nat.lt_of_succ_lt hlt, hdiffers, rest, ?_, hrest⟩
    rw [hlength, List.replicate_succ, List.cons_append]

theorem isCanonical_ofStylesFrom (start : Nat) (styles : List Style) : IsCanonical start styles (ofStylesFrom start styles) := by
  induction styles generalizing start with
  | nil => exact isCanonical_nil_iff.mpr rfl
  | cons style styles ih => exact (ih (start + 1)).cons style

theorem ofStylesFrom_replicate_append (hlt : pos < stop)
    (hdiffers : ∀ next ∈ (ofStylesFrom stop rest).head?, style ≠ next.style) :
    ofStylesFrom pos (List.replicate (stop - pos) style ++ rest) = ⟨pos, stop, style⟩ :: ofStylesFrom stop rest := by
  induction hcount : stop - pos generalizing pos with
  | zero => omega
  | succ count ih =>
    rw [List.replicate_succ, List.cons_append, ofStylesFrom]
    rcases Nat.eq_or_lt_of_le (Nat.succ_le_of_lt hlt) with rfl | hbehind
    . obtain rfl : count = 0 := by omega
      exact cons_of_ne hdiffers
    . rw [ih hbehind (by omega)]
      exact cons_of_eq pos rfl

/--
There is no other normal form: each of its runs takes as many styles as it has bytes.
-/
theorem IsCanonical.eq_ofStylesFrom (h : IsCanonical start styles runs) : runs = ofStylesFrom start styles := by
  induction runs generalizing start styles with
  | nil =>
    obtain rfl := isCanonical_nil_iff.mp h
    rfl
  | cons run runs ih =>
    obtain ⟨rfl, hlt, hdiffers, rest, rfl, hrest⟩ := isCanonical_cons_iff.mp h
    have hruns := ih hrest
    rw [hruns] at hdiffers
    rw [length, ofStylesFrom_replicate_append hlt hdiffers, ← hruns]

/--
The runs of an array of styles are its only normal form.
-/
theorem isCanonical_iff_eq_ofStyles (styles : Array Style) (runs : List StyleRun) :
    IsCanonical 0 styles.toList runs ↔ runs = ofStyles styles := by
  constructor
  . intro h
    exact h.eq_ofStylesFrom
  . rintro rfl
    exact isCanonical_ofStylesFrom 0 styles.toList

example : ofStyles #[1, 1, 2, 2, 2, 0] = [⟨0, 2, 1⟩, ⟨2, 5, 2⟩, ⟨5, 6, 0⟩] := by
  decide

/--
Put one byte behind the runs in front of it.
-/
def concat (runs : List StyleRun) (pos : Nat) (style : Style) : List StyleRun :=
  match runs with
  | [] => [⟨pos, pos + 1, style⟩]
  | [run] => if run.style == style then [{ run with stop := pos + 1 }] else [run, ⟨pos, pos + 1, style⟩]
  | run :: next :: runs => run :: concat (next :: runs) pos style

theorem cons_concat (pos stop : Nat) (style last : Style) (runs : List StyleRun) :
    cons pos style (concat runs stop last) = concat (cons pos style runs) stop last := by
  match runs with
  | [] =>
    by_cases heq : last = style
    . simp [cons, concat, heq]
    . simp [cons, concat, heq, Ne.symm heq]
  | [run] =>
    by_cases hfirst : run.style = style
    . obtain rfl := hfirst
      by_cases hlast : run.style = last
      . simp [cons, concat, hlast]
      . simp [cons, concat, hlast]
    . by_cases hlast : run.style = last
      . obtain rfl := hlast
        simp [cons, concat, hfirst]
      . simp [cons, concat, hfirst, hlast]
  | run :: next :: runs =>
    by_cases hfirst : run.style = style
    . simp [cons, concat, hfirst]
    . simp [cons, concat, hfirst]

theorem ofStylesFrom_append_singleton (pos : Nat) (styles : List Style) (style : Style) :
    ofStylesFrom pos (styles ++ [style]) = concat (ofStylesFrom pos styles) (pos + styles.length) style := by
  induction styles generalizing pos with
  | nil => rfl
  | cons first styles ih =>
    rw [List.cons_append, ofStylesFrom, ih, ofStylesFrom, cons_concat, List.length_cons, ← Nat.add_assoc, Nat.add_right_comm]

/--
The runs are what a loop over the bytes leaves that lengthens the last run or begins a new one.
-/
theorem ofStyles_eq_foldl (styles : Array Style) :
    ofStyles styles = styles.toList.zipIdx.foldl (fun runs (style, pos) => concat runs pos style) [] := by
  rw [ofStyles]
  induction styles.toList using List.reverseRecOn with
  | nil => rfl
  | append_singleton styles style ih =>
    rw [ofStylesFrom_append_singleton, ih, List.zipIdx_append, List.foldl_append]
    rfl

end Highlight.StyleRun
