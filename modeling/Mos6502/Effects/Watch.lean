import Mathlib.Logic.Function.Iterate

/-!
# Watching a run

A watcher lets a system run, looks at the states before and after each step, and stops at
the first step that it has something to say about. What it says within a limit is decided
by that step alone (`watch_eq_some`).
-/

namespace Effects

variable {σ ω : Type}

/-- What is said about the first of the next steps that there is something to say about, if it
is one of the first `limit`. -/
def watch (step : σ → σ) (report : σ → σ → Option ω) : ℕ → σ → Option ω
  | 0, _ => none
  | limit + 1, s =>
    match report s (step s) with
    | some w => some w
    | none => watch step report limit (step s)

/-- Step `k` is the first one that there is something to say about. -/
structure FirstReport (step : σ → σ) (report : σ → σ → Option ω) (s : σ) (k : ℕ) (w : ω) :
    Prop where
  silent : ∀ j < k, report (step^[j] s) (step^[j + 1] s) = none
  reported : report (step^[k] s) (step^[k + 1] s) = some w

variable {step : σ → σ} {report : σ → σ → Option ω} {s : σ} {limit k : ℕ} {w : ω}

theorem FirstReport.succ (hfirst : report s (step s) = none)
    (h : FirstReport step report (step s) k w) : FirstReport step report s (k + 1) w where
  silent := by
    rintro (_ | j) hj
    · exact hfirst
    · exact h.silent j (by omega)
  reported := h.reported

theorem FirstReport.pred (h : FirstReport step report s (k + 1) w) :
    FirstReport step report (step s) k w where
  silent j hj := h.silent (j + 1) (by omega)
  reported := h.reported

theorem watch_eq_none :
    watch step report limit s = none ↔
      ∀ k < limit, report (step^[k] s) (step^[k + 1] s) = none := by
  induction limit generalizing s with
  | zero => simp [watch]
  | succ limit ih =>
    cases hfirst : report s (step s) with
    | some w =>
      simp only [watch, hfirst, reduceCtorEq, false_iff, not_forall]
      exact ⟨0, Nat.succ_pos limit, by simp [hfirst]⟩
    | none =>
      simp only [watch, hfirst, ih]
      constructor
      · rintro h (_ | k) hk
        · exact hfirst
        · exact h k (by omega)
      · exact fun h k hk => h (k + 1) (by omega)

/-- **What a watcher says** is about the first step that there is something to say about. -/
theorem watch_eq_some :
    watch step report limit s = some w ↔ ∃ k < limit, FirstReport step report s k w := by
  induction limit generalizing s with
  | zero => simp [watch]
  | succ limit ih =>
    cases hfirst : report s (step s) with
    | some w' =>
      simp only [watch, hfirst, Option.some.injEq]
      constructor
      · rintro rfl
        exact ⟨0, Nat.succ_pos limit, nofun, hfirst⟩
      · rintro ⟨_ | k, hk, h⟩
        · have hreported : report s (step s) = some w := h.reported
          exact Option.some.inj (hfirst.symm.trans hreported)
        · have hsilent : report s (step s) = none := h.silent 0 (Nat.succ_pos k)
          rw [hfirst] at hsilent
          cases hsilent
    | none =>
      simp only [watch, hfirst, ih]
      constructor
      · rintro ⟨k, hk, h⟩
        exact ⟨k + 1, by omega, h.succ hfirst⟩
      · rintro ⟨_ | k, hk, h⟩
        · have hreported : report s (step s) = some w := h.reported
          rw [hfirst] at hreported
          cases hreported
        · exact ⟨k, by omega, h.pred⟩

end Effects
