import Mathlib.Data.Nat.Basic

/-!
# Runs of a system whose step varies with time

A run is the orbit of a state under a sequence of step functions, one for each
instant, so an environment that acts between the steps is part of the sequence.
The rules here turn facts about one step into facts about every instant of a run.
-/

namespace Effects

variable {σ τ ω : Type}

/-- The state after the first `k` steps. -/
def orbit (step : ℕ → σ → σ) (s : σ) : ℕ → σ
  | 0 => s
  | k + 1 => step k (orbit step s k)

@[simp] theorem orbit_zero (step : ℕ → σ → σ) (s : σ) : orbit step s 0 = s := rfl

theorem orbit_succ (step : ℕ → σ → σ) (s : σ) (k : ℕ) :
    orbit step s (k + 1) = step k (orbit step s k) := rfl

/-- **Invariant rule.** -/
theorem orbit_invariant {step : ℕ → σ → σ} {s : σ} {P : σ → Prop} (h : P s)
    (hstep : ∀ k, P (orbit step s k) → P (orbit step s (k + 1))) (k : ℕ) : P (orbit step s k) := by
  induction k with
  | zero => exact h
  | succ k ih => exact hstep k ih

/-- **Until rule.** A property that holds at instant `i`, and that every step keeps
unless it releases the property, holds until a step releases it. -/
theorem until_release (P release : ℕ → Prop) {i : ℕ} (h : P i)
    (hstep : ∀ k, i ≤ k → P k → ¬ release k → P (k + 1)) {j : ℕ} (hij : i ≤ j)
    (hnone : ∀ k, i ≤ k → k < j → ¬ release k) : P j := by
  induction j, hij using Nat.le_induction with
  | base => exact h
  | succ j hij ih =>
    exact hstep j hij (ih fun k hik hkj => hnone k hik (by omega)) (hnone j hij (by omega))

end Effects
