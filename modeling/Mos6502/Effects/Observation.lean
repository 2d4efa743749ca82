import Mathlib.Data.Nat.Count

/-!
# What an observer sees of a run

An observer who cannot see some of the steps of a run sees its start and the states
after the others. When each step that can be seen is matched by a step of a second run
and the hidden ones stutter, what is seen of the first run is a prefix of the second.
-/

namespace Effects

variable {ω : Type}

/-- The observations of the first `n` steps when only the steps in `seen` are seen. -/
def observed (seen : ℕ → Prop) [DecidablePred seen] (obs : ℕ → ω) : ℕ → List ω
  | 0 => [obs 0]
  | n + 1 => if seen n then observed seen obs n ++ [obs (n + 1)] else observed seen obs n

variable {seen seen' : ℕ → Prop} [DecidablePred seen] [DecidablePred seen'] (obs obs' : ℕ → ω)

/-- When every seen step is matched by the next step of the second run, the observations
are the first states of that run. -/
theorem observed_eq_map (hstart : obs 0 = obs' 0)
    (hstep : ∀ k, seen k → obs (k + 1) = obs' (Nat.count seen k + 1)) (n : ℕ) :
    observed seen obs n = (List.range (Nat.count seen n + 1)).map obs' := by
  induction n with
  | zero => simp [observed, hstart]
  | succ n ih =>
    by_cases hn : seen n
    · rw [observed, if_pos hn, ih, hstep n hn, Nat.count_succ, if_pos hn]
      rw [List.range_succ (n := Nat.count seen n + 1), List.map_append, List.map_singleton]
    · rw [observed, if_neg hn, ih, Nat.count_succ, if_neg hn, Nat.add_zero]

/-- **Stuttering rule.** The observations of a run whose seen steps are matched by the
steps of a second run are a prefix of that run. -/
theorem observed_prefix (hall : ∀ k, seen' k) (hstart : obs 0 = obs' 0)
    (hstep : ∀ k, seen k → obs (k + 1) = obs' (Nat.count seen k + 1)) (n : ℕ) :
    observed seen obs n <+: observed seen' obs' n := by
  have hcount (k : ℕ) : Nat.count seen' k = k := Nat.count_of_forall fun i _ => hall i
  rw [observed_eq_map obs obs' hstart hstep,
    observed_eq_map obs' obs' rfl fun k _ => by rw [hcount], hcount]
  have hle : Nat.count seen n ≤ n := Nat.count_le seen
  have hrange : List.range (Nat.count seen n + 1) <+: List.range (n + 1) := by
    rw [List.prefix_iff_eq_take, List.length_range, List.take_range, Nat.min_eq_left (by omega)]
  exact hrange.map obs'

end Effects
