import Mos6502.Effects.Budget

/-!
# Preconditions and postconditions

A triple says where a deterministic system gets from the states of a precondition: after
exactly `n` steps, at exactly the cost `c`, and by steps that are all fair. The rules follow
the code of a program: one for a single instruction (`Triple.one`), one for code that comes
after other code (`Triple.seq`), and one for a loop, whose invariant counts its rounds
(`Triple.loop`).
-/

namespace Effects

variable {σ : Type}

/-- **Total correctness.** From every state that satisfies `P`, `n` fair steps that cost `c` lead
to one that satisfies `Q`. -/
def Triple (step : σ → σ) (cost : σ → ℕ) (fair : σ → Prop) (P : σ → Prop) (n c : ℕ)
    (Q : σ → Prop) : Prop :=
  ∀ s, P s → (∀ j < n, fair (step^[j] s)) ∧ spent step cost n s = c ∧ Q (step^[n] s)

namespace Triple

variable {step : σ → σ} {cost : σ → ℕ} {fair P P' Q Q' R : σ → Prop} {n n' c c' : ℕ}

theorem skip (h : ∀ s, P s → Q s) : Triple step cost fair P 0 0 Q :=
  fun s hs => ⟨nofun, rfl, h s hs⟩

/-- **A single step.** -/
theorem one (h : ∀ s, P s → fair s ∧ cost s = c ∧ Q (step s)) :
    Triple step cost fair P 1 c Q := by
  intro s hs
  obtain ⟨hfair, hcost, hQ⟩ := h s hs
  refine ⟨fun j hj => ?_, ?_, hQ⟩
  · obtain rfl : j = 0 := by omega
    exact hfair
  · rw [spent_succ, spent_zero, Nat.zero_add]
    exact hcost

/-- **Sequence.** -/
theorem seq (h : Triple step cost fair P n c Q) (h' : Triple step cost fair Q n' c' R) :
    Triple step cost fair P (n + n') (c + c') R := by
  intro s hs
  obtain ⟨hfair, hcost, hQ⟩ := h s hs
  obtain ⟨hfair', hcost', hR⟩ := h' _ hQ
  refine ⟨fun j hj => ?_, ?_, ?_⟩
  · rcases Nat.lt_or_ge j n with hjn | hnj
    · exact hfair j hjn
    · obtain ⟨i, rfl⟩ := Nat.exists_eq_add_of_le hnj
      rw [Nat.add_comm, Function.iterate_add_apply]
      exact hfair' i (by omega)
  · rw [spent_add, hcost, hcost']
  · rw [Nat.add_comm, Function.iterate_add_apply]
    exact hR

/-- **Consequence.** -/
theorem weaken (h : Triple step cost fair P n c Q) (hpre : ∀ s, P' s → P s)
    (hpost : ∀ s, Q s → Q' s) : Triple step cost fair P' n c Q' := by
  intro s hs
  obtain ⟨hfair, hcost, hQ⟩ := h s (hpre s hs)
  exact ⟨hfair, hcost, hpost _ hQ⟩

/-- **Loop.** When each of the first `rounds` rounds leads from the invariant to the invariant of
the next round, all of them together lead to the invariant of the last one. -/
theorem loop {I : ℕ → σ → Prop} {rounds : ℕ}
    (h : ∀ i < rounds, Triple step cost fair (I i) n c (I (i + 1))) :
    Triple step cost fair (I 0) (rounds * n) (rounds * c) (I rounds) := by
  induction rounds with
  | zero =>
    rw [Nat.zero_mul, Nat.zero_mul]
    exact skip fun _ hs => hs
  | succ rounds ih =>
    rw [Nat.succ_mul, Nat.succ_mul]
    exact (ih fun i hi => h i (by omega)).seq (h rounds (Nat.lt_succ_self rounds))

end Triple

end Effects
