import Highlight.Iteration
import Mathlib.Logic.Function.Iterate

/-!
Loops as relations. What a loop comes to does not depend on its bound as long as a measure goes down,
and loops whose steps correspond run in lockstep.
-/

namespace Highlight

variable {σ τ : Type} {more : σ → Bool} {step : σ → σ} {more' : τ → Bool} {step' : τ → τ}

/--
Repeating `step` as long as `more` holds comes by from one state to the other.
-/
inductive Iterates (more : σ → Bool) (step : σ → σ) : σ → σ → Prop where
  | refl (s : σ) : Iterates more step s s
  | head {s t : σ} : more s = true → Iterates more step (step s) t → Iterates more step s t

namespace Iterates

theorem trans {s t u : σ} (h : Iterates more step s t) (h' : Iterates more step t u) : Iterates more step s u := by
  induction h with
  | refl => exact h'
  | head hmore _ ih => exact .head hmore (ih h')

theorem tail {s t : σ} (h : Iterates more step s t) (hmore : more t = true) : Iterates more step s (step t) :=
  h.trans (.head hmore (.refl _))

theorem mono {more' : σ → Bool} {s t : σ} (h : Iterates more step s t) (hmore : ∀ s, more s = true → more' s = true) :
    Iterates more' step s t := by
  induction h with
  | refl => exact .refl _
  | head h _ ih => exact .head (hmore _ h) ih

/--
What each step keeps holds all along.
-/
theorem invariant {s t : σ} (motive : σ → Prop) (hstep : ∀ s, more s = true → motive s → motive (step s))
    (h : Iterates more step s t) (hs : motive s) : motive t := by
  induction h with
  | refl => exact hs
  | head hmore _ ih => exact ih (hstep _ hmore hs)

/--
A loop has one end.
-/
theorem end_unique {s t u : σ} (h : Iterates more step s t) (ht : more t = false) (h' : Iterates more step s u)
    (hu : more u = false) : t = u := by
  induction h with
  | refl =>
    cases h' with
    | refl => rfl
    | head hmore _ =>
      rw [ht] at hmore
      cases hmore
  | head hmore _ ih =>
    cases h' with
    | refl =>
      rw [hu] at hmore
      cases hmore
    | head _ h' => exact ih ht h'

/--
The part of a loop behind a state that it comes by.
-/
theorem rest {s t u : σ} (h : Iterates more step s t) (h' : Iterates more step s u) (hu : more u = false) :
    Iterates more step t u := by
  induction h with
  | refl => exact h'
  | head hmore _ ih =>
    cases h' with
    | refl =>
      rw [hu] at hmore
      cases hmore
    | head _ h' => exact ih h'

/--
If the steps of two loops correspond, then one loop comes by wherever the other one does.
-/
theorem lockstep {R : σ → τ → Prop} {t t' : τ} {s : σ} (h : Iterates more' step' t t')
    (hmore : ∀ s t, R s t → more' t = true → more s = true)
    (hstep : ∀ s t, R s t → more' t = true → R (step s) (step' t)) (hR : R s t) :
    ∃ s', Iterates more step s s' ∧ R s' t' := by
  induction h generalizing s with
  | refl t => exact ⟨s, .refl s, hR⟩
  | head hmore' _ ih =>
    obtain ⟨s', hs', hR'⟩ := ih (hstep s _ hR hmore')
    exact ⟨s', .head (hmore s _ hR hmore') hs', hR'⟩

end Iterates

theorem iterates_repeatWhile (more : σ → Bool) (step : σ → σ) (bound : Nat) (s : σ) :
    Iterates more step s (repeatWhile more step bound s) := by
  induction bound generalizing s with
  | zero => exact .refl s
  | succ bound ih =>
    unfold repeatWhile
    split
    . next hmore => exact .head hmore (ih (step s))
    . exact .refl s

/--
A loop whose steps are those of another loop comes by where the other one ends, as long as an invariant
holds.
-/
theorem repeatWhile_map (f : σ → τ) (motive : σ → Prop) (hmotive : ∀ s, more s = true → motive s → motive (step s))
    (hmore : ∀ s, motive s → more s = true → more' (f s) = true)
    (hstep : ∀ s, motive s → more s = true → step' (f s) = f (step s)) (bound extra : Nat) {s : σ} (hs : motive s) :
    ∃ rest, repeatWhile more' step' (bound + extra) (f s) = repeatWhile more' step' rest (f (repeatWhile more step bound s)) := by
  induction bound generalizing s with
  | zero => exact ⟨0 + extra, rfl⟩
  | succ bound ih =>
    cases h : more s with
    | false =>
      refine ⟨bound + 1 + extra, ?_⟩
      rw [repeatWhile, h]
      rfl
    | true =>
      obtain ⟨rest, heq⟩ := ih (hmotive s h hs)
      refine ⟨rest, ?_⟩
      rw [show bound + 1 + extra = bound + extra + 1 by omega, repeatWhile, if_pos (hmore s hs h), hstep s hs h, heq,
        repeatWhile, if_pos h]

/--
A map that turns each step into one of another loop turns the end of the one into the end of the other.
-/
theorem repeatWhile_semiconj (f : σ → τ) (hmore : ∀ s, more' (f s) = more s) (hstep : ∀ s, step' (f s) = f (step s))
    (bound : Nat) (s : σ) : repeatWhile more' step' bound (f s) = f (repeatWhile more step bound s) := by
  induction bound generalizing s with
  | zero => rfl
  | succ bound ih =>
    rw [repeatWhile, repeatWhile, hmore s]
    split
    . rw [hstep s, ih]
    . rfl

/--
Loops that run in lockstep come to corresponding ends, whatever their bounds are as long as both suffice.
-/
theorem repeatWhile_lockstep {R : σ → τ → Prop} (measure : σ → Nat) (hmore : ∀ s t, R s t → more' t = more s)
    (hstep : ∀ s t, R s t → more s = true → R (step s) (step' t) ∧ measure (step s) < measure s) {bound bound' : Nat} {s : σ}
    {t : τ} (hR : R s t) (hbound : measure s ≤ bound) (hbound' : measure s ≤ bound') :
    R (repeatWhile more step bound s) (repeatWhile more' step' bound' t) := by
  induction bound generalizing s t bound' with
  | zero =>
    cases h : more s with
    | true =>
      have := (hstep s t hR h).2
      omega
    | false =>
      cases bound' with
      | zero => exact hR
      | succ bound' =>
        rw [repeatWhile, repeatWhile, if_neg (by rw [hmore s t hR, h]; decide)]
        exact hR
  | succ bound ih =>
    cases h : more s with
    | true =>
      obtain ⟨hR', hlt⟩ := hstep s t hR h
      cases bound' with
      | zero => omega
      | succ bound' =>
        rw [repeatWhile, repeatWhile, if_pos h, if_pos (by rw [hmore s t hR, h])]
        exact ih hR' (by omega) (by omega)
    | false =>
      rw [repeatWhile, if_neg (by rw [h]; decide)]
      cases bound' with
      | zero => exact hR
      | succ bound' =>
        rw [repeatWhile, if_neg (by rw [hmore s t hR, h]; decide)]
        exact hR

/--
A loop ends if an invariant holds and each step lowers a measure. As many steps as the measure says suffice, and with these its
bound is no restriction.
-/
theorem exists_iterate_of_invariant (motive : σ → Prop) (measure : σ → Nat)
    (hmotive : ∀ s, more s = true → motive s → motive (step s))
    (hstep : ∀ s, more s = true → motive s → measure (step s) < measure s) {s : σ} (hs : motive s) :
    ∃ n ≤ measure s, (∀ m < n, more (step^[m] s) = true) ∧ more (step^[n] s) = false ∧ motive (step^[n] s)
      ∧ ∀ bound, n ≤ bound → repeatWhile more step bound s = step^[n] s := by
  induction hmeasure : measure s using Nat.strongRecOn generalizing s with
  | ind measured ih =>
    cases hmore : more s with
    | false =>
      refine ⟨0, Nat.zero_le _, fun m hm => absurd hm (Nat.not_lt_zero m), hmore, hs, fun bound _ => ?_⟩
      cases bound with
      | zero => rfl
      | succ bound =>
        rw [repeatWhile, hmore]
        rfl
    | true =>
      have hlower := hstep s hmore hs
      obtain ⟨n, hn, hgoes, hends, hlast, hrun⟩ := ih _ (hmeasure ▸ hlower) (hmotive s hmore hs) rfl
      refine ⟨n + 1, by omega, fun m hm => ?_, hends, hlast, fun bound hbound => ?_⟩
      . cases m with
        | zero => exact hmore
        | succ m => exact hgoes m (Nat.lt_of_succ_lt_succ hm)
      . obtain ⟨bound, rfl⟩ : ∃ k, bound = k + 1 := Nat.exists_eq_add_one.mpr (Nat.lt_of_lt_of_le n.succ_pos hbound)
        rw [repeatWhile, if_pos hmore]
        exact hrun bound (Nat.le_of_succ_le_succ hbound)

/--
A bound is no restriction if it is a measure that each step lowers, as long as an invariant holds.
-/
theorem more_repeatWhile_of_invariant (motive : σ → Prop) (measure : σ → Nat)
    (hmotive : ∀ s, more s = true → motive s → motive (step s))
    (hstep : ∀ s, more s = true → motive s → measure (step s) < measure s)
    (bound : Nat) {s : σ} (hs : motive s) (hbound : more s = true → measure s ≤ bound) :
    more (repeatWhile more step bound s) = false := by
  obtain ⟨n, hn, hgoes, hends, _, hrun⟩ := exists_iterate_of_invariant motive measure hmotive hstep hs
  rw [hrun bound ?_]
  . exact hends
  . cases n with
    | zero => exact Nat.zero_le _
    | succ n => exact Nat.le_trans hn (hbound (hgoes 0 n.succ_pos))
/--
Whether all states that a loop comes by fulfil `holds`, if it ends within `bound` steps.
-/
def holdsAlong (holds more : σ → Bool) (step : σ → σ) (bound : Nat) (s : σ) : Bool :=
  match bound with
  | 0 => false
  | bound + 1 => holds s && (!more s || holdsAlong holds more step bound (step s))

theorem Iterates.of_holdsAlong {holds : σ → Bool} {bound : Nat} {s t : σ} (h : holdsAlong holds more step bound s = true)
    (hrun : Iterates more step s t) : holds t = true := by
  induction hrun generalizing bound with
  | refl s =>
    cases bound with
    | zero => cases h
    | succ bound => exact (Bool.and_eq_true _ _ ▸ h).1
  | head hmore _ ih =>
    cases bound with
    | zero => cases h
    | succ bound =>
      rw [holdsAlong, hmore, Bool.not_true, Bool.false_or, Bool.and_eq_true] at h
      exact ih h.2

/--
The steps at the positions from `start` up to `stop`, one after the other.
-/
def stepsTo (step : σ → Nat → σ) (s : σ) (start stop : Nat) : σ :=
  (List.range' start (stop - start)).foldl step s

section StepsTo

variable {f : σ → Nat → σ} {g : τ → Nat → τ} {start mid stop : Nat}

theorem stepsTo_self (s : σ) (pos : Nat) : stepsTo f s pos pos = s := by
  rw [stepsTo, Nat.sub_self]
  rfl

theorem stepsTo_succ (s : σ) (h : start ≤ stop) : stepsTo f s start (stop + 1) = f (stepsTo f s start stop) stop := by
  rw [stepsTo, show stop + 1 - start = stop - start + 1 by omega, List.range'_1_concat, List.foldl_append,
    show start + (stop - start) = stop by omega]
  rfl

theorem stepsTo_trans (s : σ) (h : start ≤ mid) (h' : mid ≤ stop) :
    stepsTo f (stepsTo f s start mid) mid stop = stepsTo f s start stop := by
  rw [stepsTo, stepsTo, stepsTo, ← List.foldl_append, show stop - start = mid - start + (stop - mid) by omega,
    ← List.range'_append_1, show start + (mid - start) = mid by omega]

/--
What the steps of two walks keep, the walks keep.
-/
theorem stepsTo_lockstep {R : Nat → σ → τ → Prop} {s : σ} {t : τ} (hle : start ≤ stop)
    (hstep : ∀ pos s t, start ≤ pos → pos < stop → R pos s t → R (pos + 1) (f s pos) (g t pos)) (h : R start s t) :
    R stop (stepsTo f s start stop) (stepsTo g t start stop) := by
  induction hle with
  | refl =>
    rw [stepsTo_self, stepsTo_self]
    exact h
  | step hle ih =>
    rw [stepsTo_succ s hle, stepsTo_succ t hle]
    exact hstep _ _ _ hle (Nat.lt_succ_self _) (ih fun pos s t hpos hlt => hstep pos s t hpos (Nat.lt_succ_of_lt hlt))

theorem stepsTo_invariant {R : Nat → σ → Prop} {s : σ} (hle : start ≤ stop)
    (hstep : ∀ pos s, start ≤ pos → pos < stop → R pos s → R (pos + 1) (f s pos)) (h : R start s) :
    R stop (stepsTo f s start stop) :=
  @stepsTo_lockstep σ σ f f start stop (fun pos s _ => R pos s) s s hle (fun pos s _ => hstep pos s) h

end StepsTo

end Highlight
