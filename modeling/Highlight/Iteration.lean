/-!
Loops with a bound.
-/

namespace Highlight

variable {σ : Type}

/--
Repeat `step` as long as `more` holds, but at most `bound` times.
-/
def repeatWhile (more : σ → Bool) (step : σ → σ) (bound : Nat) (s : σ) : σ :=
  match bound with
  | 0 => s
  | bound + 1 => if more s then repeatWhile more step bound (step s) else s

/--
A bound is no restriction if it is a measure that each step lowers.
-/
theorem more_repeatWhile (more : σ → Bool) (step : σ → σ) (measure : σ → Nat)
    (hstep : ∀ s, more s = true → measure (step s) < measure s)
    (bound : Nat) (s : σ) (hbound : measure s ≤ bound) :
    more (repeatWhile more step bound s) = false := by
  induction bound generalizing s with
  | zero =>
    cases h : more s with
    | false => simp [repeatWhile, h]
    | true => have := hstep s h; omega
  | succ bound ih =>
    cases h : more s with
    | false => simp [repeatWhile, h]
    | true =>
      have := hstep s h
      simp only [repeatWhile, h, ↓reduceIte]
      exact ih (step s) (by omega)

/--
What each step keeps, the loop keeps.
-/
theorem repeatWhile_induction (more : σ → Bool) (step : σ → σ) (motive : σ → Prop)
    (hstep : ∀ s, more s = true → motive s → motive (step s))
    (bound : Nat) (s : σ) (h : motive s) : motive (repeatWhile more step bound s) := by
  induction bound generalizing s with
  | zero => exact h
  | succ bound ih =>
    unfold repeatWhile
    split
    · exact ih (step s) (hstep s ‹_› h)
    · exact h

end Highlight
