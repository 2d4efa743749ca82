import Mathlib.Algebra.BigOperators.Group.Finset.Basic
import Mathlib.Data.Nat.Find
import Mathlib.Logic.Function.Iterate

/-!
# Running a system until its budget is spent

Every step of a system costs something. Running to a budget takes the least number
of steps whose costs add up to the budget, so the last of them may overshoot it.
Cutting a budget into slices, and charging each overshoot to the next slice, takes
the same steps (`Reaches.slice`).
-/

namespace Effects

variable {σ : Type} (step : σ → σ) (cost : σ → ℕ)

/-- The cost of the first `k` steps. -/
def spent (k : ℕ) (s : σ) : ℕ := ∑ j ∈ Finset.range k, cost (step^[j] s)

@[simp] theorem spent_zero (s : σ) : spent step cost 0 s = 0 := rfl

theorem spent_succ (k : ℕ) (s : σ) :
    spent step cost (k + 1) s = spent step cost k s + cost (step^[k] s) :=
  Finset.sum_range_succ _ k

/-- The costs of a run are those of its first part and of the run that continues it. -/
theorem spent_add (j k : ℕ) (s : σ) :
    spent step cost (j + k) s = spent step cost j s + spent step cost k (step^[j] s) := by
  induction k with
  | zero => rfl
  | succ k ih =>
    have hstep : step^[j + k] s = step^[k] (step^[j] s) := by
      rw [Nat.add_comm, Function.iterate_add_apply]
    rw [← Nat.add_assoc, spent_succ, spent_succ, ih, hstep, Nat.add_assoc]

theorem spent_mono {j k : ℕ} (hjk : j ≤ k) (s : σ) :
    spent step cost j s ≤ spent step cost k s := by
  obtain ⟨d, rfl⟩ := Nat.exists_eq_add_of_le hjk
  rw [spent_add]
  exact Nat.le_add_right _ _

/-- The budget `b` is spent after `k` steps and not before. -/
structure Reaches (b k : ℕ) (s : σ) : Prop where
  reached : b ≤ spent step cost k s
  before : ∀ j < k, spent step cost j s < b

variable {step cost} {a b j k : ℕ} {s : σ}

theorem Reaches.unique (h : Reaches step cost b j s) (h' : Reaches step cost b k s) : j = k := by
  rcases Nat.lt_trichotomy j k with hlt | heq | hgt
  · exact absurd h.reached (Nat.not_le.mpr (h'.before j hlt))
  · exact heq
  · exact absurd h'.reached (Nat.not_le.mpr (h.before k hgt))

/-- Steps that all cost something spend every budget, in as many steps at most. -/
theorem exists_reaches (hpos : ∀ s, 0 < cost s) (b : ℕ) (s : σ) :
    ∃ k ≤ b, Reaches step cost b k s := by
  have hgrows (k : ℕ) : k ≤ spent step cost k s := by
    induction k with
    | zero => exact Nat.zero_le _
    | succ k ih =>
      have := hpos (step^[k] s)
      rw [spent_succ]
      omega
  have hexists : ∃ k, b ≤ spent step cost k s := ⟨b, hgrows b⟩
  refine ⟨Nat.find hexists, Nat.find_min' hexists (hgrows b), Nat.find_spec hexists, ?_⟩
  exact fun j hj => Nat.not_le.mp (Nat.find_min hexists hj)

/-- No step is taken for an empty budget, and only for that one. -/
theorem Reaches.eq_zero_iff (h : Reaches step cost b k s) : k = 0 ↔ b = 0 := by
  constructor
  · rintro rfl
    exact Nat.le_zero.mp h.reached
  · rintro rfl
    by_contra hk
    exact absurd (h.before 0 (Nat.pos_of_ne_zero hk)) (Nat.not_lt_zero _)

/-- The overshoot is less than the cost of the last step. -/
theorem Reaches.overshoot (h : Reaches step cost b (k + 1) s) :
    spent step cost (k + 1) s < b + cost (step^[k] s) := by
  have := h.before k (Nat.lt_succ_self k)
  rw [spent_succ]
  omega

/-- With steps that cost at most `c`, a budget is overshot by less than `c`. -/
theorem Reaches.spent_lt {c : ℕ} (hcost : ∀ s, cost s ≤ c) (hc : 0 < c)
    (h : Reaches step cost b k s) : spent step cost k s < b + c := by
  cases k with
  | zero => exact Nat.lt_of_lt_of_le hc (Nat.le_add_left c b)
  | succ k =>
    have := h.overshoot
    have := hcost (step^[k] s)
    omega

/-- What is left after the first step is spent by the others. -/
theorem Reaches.tail (h : Reaches step cost b (k + 1) s) :
    Reaches step cost (b - cost s) k (step s) := by
  have hfirst (i : ℕ) : spent step cost (i + 1) s = cost s + spent step cost i (step s) := by
    rw [Nat.add_comm i 1, spent_add, spent_succ, spent_zero, Nat.zero_add]
    rfl
  refine ⟨?_, fun i hi => ?_⟩
  · have := h.reached
    rw [hfirst] at this
    omega
  · have := h.before (i + 1) (by omega)
    rw [hfirst] at this
    omega

/-- A run to a budget that counts down what is left of it, in `fuel` steps at most. -/
def spend (step : σ → σ) (cost : σ → ℕ) : ℕ → ℕ → σ → σ
  | 0, _, s => s
  | fuel + 1, b, s => if b = 0 then s else spend step cost fuel (b - cost s) (step s)

/-- **Counting down.** It takes the steps that spend the budget. -/
theorem Reaches.spend_eq {fuel : ℕ} (h : Reaches step cost b k s) (hfuel : k ≤ fuel) :
    spend step cost fuel b s = step^[k] s := by
  induction fuel generalizing b k s with
  | zero =>
    obtain rfl : k = 0 := Nat.le_zero.mp hfuel
    rfl
  | succ fuel ih =>
    rw [spend]
    cases k with
    | zero => rw [if_pos (h.eq_zero_iff.mp rfl), Function.iterate_zero_apply]
    | succ k =>
      rw [if_neg fun hb => Nat.succ_ne_zero k (h.eq_zero_iff.mpr hb), ih h.tail (by omega),
        Function.iterate_succ_apply]

/-- A larger budget that is spent already takes no further step. -/
theorem Reaches.extend (h : Reaches step cost a k s) (hab : a ≤ b)
    (hspent : b ≤ spent step cost k s) : Reaches step cost b k s where
  reached := hspent
  before j hj := Nat.lt_of_lt_of_le (h.before j hj) hab

/-- **Slicing.** To spend `b` is to spend a smaller `a` first, and then what is left. -/
theorem Reaches.slice (h : Reaches step cost a j s) (hab : a ≤ b) :
    Reaches step cost (b - spent step cost j s) k (step^[j] s) ↔
      Reaches step cost b (j + k) s := by
  constructor
  · intro hrest
    refine ⟨?_, fun i hi => ?_⟩
    · have := hrest.reached
      rw [spent_add]
      omega
    · rcases Nat.lt_or_ge i j with hij | hij
      · exact Nat.lt_of_lt_of_le (h.before i hij) hab
      · obtain ⟨d, rfl⟩ := Nat.exists_eq_add_of_le hij
        have := hrest.before d (by omega)
        rw [spent_add]
        omega
  · intro hall
    refine ⟨?_, fun i hi => ?_⟩
    · have := hall.reached
      rw [spent_add] at this
      omega
    · have := hall.before (j + i) (by omega)
      rw [spent_add] at this
      omega

section simulation

variable {τ : Type} {step' : τ → τ} {cost' : τ → ℕ} {R : σ → τ → Prop}

/-- Systems whose steps are related and cost the same spend the same. -/
theorem spent_sim (hstep : ∀ s t, R s t → R (step s) (step' t))
    (hcost : ∀ s t, R s t → cost s = cost' t) {s : σ} {t : τ} (h : R s t) (k : ℕ) :
    R (step^[k] s) (step'^[k] t) ∧ spent step cost k s = spent step' cost' k t := by
  induction k with
  | zero => exact ⟨h, rfl⟩
  | succ k ih =>
    obtain ⟨hrelated, hspent⟩ := ih
    rw [Function.iterate_succ_apply', Function.iterate_succ_apply', spent_succ, spent_succ, hspent,
      hcost _ _ hrelated]
    exact ⟨hstep _ _ hrelated, rfl⟩

/-- They spend a budget in the same number of steps. -/
theorem Reaches.sim (hstep : ∀ s t, R s t → R (step s) (step' t))
    (hcost : ∀ s t, R s t → cost s = cost' t) {s : σ} {t : τ} (h : R s t)
    (hs : Reaches step cost b k s) : Reaches step' cost' b k t where
  reached := (spent_sim hstep hcost h k).2 ▸ hs.reached
  before j hj := (spent_sim hstep hcost h j).2 ▸ hs.before j hj

end simulation

end Effects
