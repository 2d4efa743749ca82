import Mos6502.Latches

/-!
# No NMI is lost or repeated

The NMI line goes through two latches: a transition sets the edge, and the poll that
ends a step moves the edge to the pending flag. Counting the services started and
the two latches gives the number of transitions that found the edge clear, and each
transition is serviced right after the first step that ends after it.
-/

namespace Mos6502

open Effects

namespace Machine

variable {β : Type} [BusLike β]

section counts

variable (V : Variant) (host : ℕ → List PinCall) (m : Machine β NullHooks)

/-- The number of NMI services started in the first `k` steps. -/
def nmiServices : ℕ → ℕ
  | 0 => 0
  | k + 1 => nmiServices k + if (m.pinnedBefore V host k).stepKind = .nmi then 1 else 0

/-- The number of NMI transitions before step `k` that found the edge latch clear. -/
def nmiLatchings : ℕ → ℕ
  | 0 => m.cpu.pins.latchings (host 0)
  | k + 1 =>
    nmiLatchings k +
      (m.pinnedBefore V host k).cpu.pins.latchings ((m.pinnedBefore V host k).stepPinCalls V) +
      (m.pinnedSteps V host (k + 1)).cpu.pins.latchings (host (k + 1))

end counts

/-- One step keeps the balance of services, latches and transitions. -/
theorem step_nmi_balance (V : Variant) (m : Machine β NullHooks) :
    (if m.stepKind = .nmi then 1 else 0) + (m.stepMachine V).cpu.pendingNmi.toNat +
        (m.stepMachine V).cpu.pins.nmiEdge.toNat =
      m.cpu.pendingNmi.toNat + m.cpu.pins.nmiEdge.toNat +
        m.cpu.pins.latchings (m.stepPinCalls V) := by
  have hlatch := m.cpu.pins.latchings_add (m.stepPinCalls V)
  cases hjammed : m.cpu.jammed with
  | true =>
    obtain ⟨_, _, _, hcpu⟩ := step_of_jammed V m hjammed
    have hkind : m.stepKind ≠ .nmi := by rw [stepKind_eq_jammed.mpr hjammed]; exact nofun
    rw [if_neg hkind, hcpu]
    change 0 + m.cpu.pendingNmi.toNat + (m.cpu.pins.calls (m.stepPinCalls V)).nmiEdge.toNat = _
    omega
  | false =>
    have hkind : (if m.stepKind = .nmi then 1 else 0) = m.cpu.pendingNmi.toNat := by
      cases hnmi : m.cpu.pendingNmi with
      | true => rw [if_pos (stepKind_eq_nmi.mpr ⟨hjammed, hnmi⟩), Bool.toNat_true]
      | false =>
        have hnot : m.stepKind ≠ .nmi := fun h => by simp [(stepKind_eq_nmi.mp h).2] at hnmi
        rw [if_neg hnot, Bool.toNat_false]
    rw [hkind, step_pendingNmi V m hjammed, step_pins V m hjammed, ← hlatch]
    simp only [Bool.toNat_false]
    omega

variable {V : Variant} {host : ℕ → List PinCall} {m : Machine β NullHooks}

/-- **Conservation.** Every transition that found the edge clear is in one of the two
latches or was serviced, and no other was. -/
theorem nmi_conservation (hpending : m.cpu.pendingNmi = false)
    (hedge : m.cpu.pins.nmiEdge = false) (k : ℕ) :
    m.nmiServices V host k + (m.pinnedBefore V host k).cpu.pendingNmi.toNat +
      (m.pinnedBefore V host k).cpu.pins.nmiEdge.toNat = m.nmiLatchings V host k := by
  have hhost (j : ℕ) := (m.pinnedSteps V host j).cpu.pins.latchings_add (host j)
  have hpinned (j : ℕ) : (m.pinnedBefore V host j).cpu.pendingNmi =
      (m.pinnedSteps V host j).cpu.pendingNmi := pinCalls_pendingNmi _ _
  induction k with
  | zero =>
    have h := hhost 0
    rw [pinnedSteps_zero, hedge, Bool.toNat_false, Nat.zero_add] at h
    rw [hpinned, pinnedBefore_pins, pinnedSteps_zero, hpending, ← h]
    simp [nmiServices, nmiLatchings]
  | succ k ih =>
    have hstep := step_nmi_balance V (m.pinnedBefore V host k)
    have h := hhost (k + 1)
    rw [hpinned (k + 1), pinnedBefore_pins, ← h, nmiServices, nmiLatchings]
    rw [← pinnedSteps_succ] at hstep
    omega

section delivery

variable (hedge : m.cpu.pins.nmiEdge = false) (hstart : m.cpu.jammed = false)
include hedge hstart

/-- A step is an NMI service exactly when a transition happened in the window before it. -/
theorem nmi_iff_rises {k : ℕ} (hjam : m.NoJam V host (k + 1)) :
    (m.pinnedSteps V host (k + 1)).stepKind = .nmi ↔
      0 < (m.pinnedSteps V host k).cpu.pins.rises (m.window V host k) := by
  have hclear : (m.pinnedSteps V host k).cpu.pins.nmiEdge = false := by
    cases k with
    | zero => exact hedge
    | succ k => exact (hjam.mono (Nat.le_succ _)).nmiEdge hstart
  rw [hjam.nmi_iff hstart, hclear]
  simp

/-- Two NMI services are separated by a release of the pin. -/
theorem released_between {i j : ℕ} (hij : i < j) (hjam : m.NoJam V host (j + 1))
    (hi : (m.pinnedSteps V host (i + 1)).stepKind = .nmi)
    (hj : (m.pinnedSteps V host (j + 1)).stepKind = .nmi) :
    ∃ k, i ≤ k ∧ k ≤ j ∧ PinCall.setNmi false ∈ m.window V host k := by
  by_contra hnone
  have hheld (k : ℕ) (hik : i ≤ k) (hkj : k ≤ j) : PinCall.setNmi false ∉ m.window V host k :=
    fun h => hnone ⟨k, hik, hkj, h⟩
  -- From the end of step `i` to the end of step `j` the pin stays asserted.
  have hline (k : ℕ) (hik : i + 1 ≤ k) (hkj : k ≤ j) :
      (m.pinnedSteps V host k).cpu.pins.nmiLine = true := by
    induction k, hik using Nat.le_induction with
    | base =>
      have hjam' : m.NoJam V host (i + 1) := hjam.mono (by omega)
      rw [hjam'.nmiLine hstart]
      exact Pins.asserted_of_rise _ ((nmi_iff_rises hedge hstart hjam').mp hi)
        (hheld i (by omega) (by omega))
    | succ k hik ih =>
      have hjam' : m.NoJam V host (k + 1) := hjam.mono (by omega)
      rw [hjam'.nmiLine hstart]
      exact (Pins.held _ (ih (by omega)) (hheld k (by omega) (by omega))).2
  have hrises := (nmi_iff_rises hedge hstart hjam).mp hj
  rw [(Pins.held _ (hline j hij le_rfl) (hheld j (by omega) le_rfl)).1] at hrises
  exact lt_irrefl 0 hrises

end delivery

/-- **No NMI is lost or repeated.** From a state with both NMI latches clear, under
every interleaving of pin calls and steps: services and latches add up to the
transitions that found the edge clear; while the processor runs, a step is an NMI
service exactly when a transition happened since the end of the step before the
last, so each transition is serviced right after the first step that ends after it
and distinct services come from distinct transitions; and a pin held asserted yields
at most one service. -/
theorem nmi_delivery (V : Variant) (host : ℕ → List PinCall) (m : Machine β NullHooks)
    (hpending : m.cpu.pendingNmi = false) (hedge : m.cpu.pins.nmiEdge = false) :
    (∀ k, m.nmiServices V host k + (m.pinnedBefore V host k).cpu.pendingNmi.toNat +
      (m.pinnedBefore V host k).cpu.pins.nmiEdge.toNat = m.nmiLatchings V host k) ∧
    (m.cpu.jammed = false → (m.pinnedBefore V host 0).stepKind ≠ .nmi ∧
      ∀ k, m.NoJam V host (k + 1) →
        ((m.pinnedBefore V host (k + 1)).stepKind = .nmi ↔
          0 < (m.pinnedSteps V host k).cpu.pins.rises (m.window V host k)) ∧
        ∀ i < k, (m.pinnedBefore V host (i + 1)).stepKind = .nmi →
          (m.pinnedBefore V host (k + 1)).stepKind = .nmi →
          ∃ j, i ≤ j ∧ j ≤ k ∧ PinCall.setNmi false ∈ m.window V host j) := by
  refine ⟨nmi_conservation hpending hedge, fun hstart => ⟨?_, fun k hjam => ⟨?_, ?_⟩⟩⟩
  · rw [pinnedBefore_stepKind, pinnedSteps_zero, ne_eq, stepKind_eq_nmi, hpending]
    simp
  · rw [pinnedBefore_stepKind]
    exact nmi_iff_rises hedge hstart hjam
  · intro i hik hi hk
    rw [pinnedBefore_stepKind] at hi hk
    exact released_between hedge hstart hik hjam hi hk

/-- A pin that is held asserted through a row of NOPs is serviced at the second step. -/
theorem nmi_delivery_held :
    ((fresh {} { memory := fun _ => 0xEA : FlatBus }).pinnedBefore Nmos6502
      (fun k => if k = 0 then [.setNmi true] else []) 1).stepKind = .nmi :=
  (((nmi_delivery Nmos6502 (fun k => if k = 0 then [.setNmi true] else [])
    (fresh {} { memory := fun _ => 0xEA : FlatBus }) rfl rfl).2 rfl).2 0
    (by unfold NoJam; decide +kernel)).1.mpr (by decide +kernel)

end Machine

end Mos6502
