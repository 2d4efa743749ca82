import Mos6502.Latches

/-!
# Interrupt arbitration

At the end of each step the next one is decided: an NMI transition since the end of
the previous step wins, then an asserted and unmasked IRQ level, and otherwise an
instruction is executed. The windows in which transitions count start where the
construction or the reset of the processor cleared the NMI latch.
-/

namespace Mos6502

open Effects

namespace Machine

variable {β : Type} [BusLike β]

/-- A processor that was just constructed or reset, with the pins as they were when
that cleared the NMI latch and the pin calls made since then. -/
inductive Booted : Machine β NullHooks → Pins → List PinCall → Prop
  | constructed (regs : Registers) (bus : β) : Booted (fresh regs bus) {} []
  | reset (m : Machine β NullHooks) :
    Booted m.reset { m.cpu.pins with nmiEdge := false } m.resetPinCalls

namespace Booted

variable {m : Machine β NullHooks} {p : Pins} {calls : List PinCall}

theorem pins (h : Booted m p calls) : m.cpu.pins = p.calls calls := by
  cases h with
  | constructed regs bus => rfl
  | reset m => exact (reset_latches m).1

theorem nmiEdge (h : Booted m p calls) : p.nmiEdge = false := by
  cases h <;> rfl

theorem idle (h : Booted m p calls) :
    m.cpu.jammed = false ∧ m.cpu.pendingNmi = false ∧ m.cpu.pendingIrq = false := by
  cases h with
  | constructed regs bus => exact ⟨rfl, rfl, rfl⟩
  | reset m => exact ⟨(reset_core m).2.2, (reset_latches m).2⟩

end Booted

section decision

variable (V : Variant) (host : ℕ → List PinCall) (m : Machine β NullHooks)

/-- The NMI transitions between the end of the step before step `k`, or the boot, and
the end of step `k`. -/
def risesBefore (p : Pins) (calls : List PinCall) : ℕ → ℕ
  | 0 => p.rises (calls ++ m.window V host 0)
  | k + 1 => (m.pinnedSteps V host (k + 1)).cpu.pins.rises (m.window V host (k + 1))

/-- The mask of the poll that ends step `k`. -/
def polledMask (k : ℕ) : Bool :=
  (m.pinnedBefore V host k).stepKind.mask (m.pinnedBefore V host k).cpu.regs
    (m.pinnedSteps V host (k + 1)).cpu.regs

end decision

variable {V : Variant} {host : ℕ → List PinCall} {m : Machine β NullHooks}

/-- **IRQ delivery.** Without an NMI, the next step services an IRQ exactly when its
level is asserted at the end of this one and the polled mask is clear. -/
theorem irq_iff {k : ℕ} (hexcl : m.Exclusive) (hjam : m.NoJam V host (k + 1))
    (hstart : m.cpu.jammed = false) :
    (m.pinnedSteps V host (k + 1)).stepKind = .irq ↔
      (m.pinnedSteps V host (k + 1)).stepKind ≠ .nmi ∧
        (m.pinnedSteps V host (k + 1)).cpu.pins.irqLine = true ∧ m.polledMask V host k = false := by
  have hbefore := hjam.before hstart
  have hexcl' : (m.pinnedBefore V host k).Exclusive := (hexcl.afterSteps V _ k).pinCalls _
  have hpending := hexcl'.step_pendingIrq V hbefore
  have hnmi := step_pendingNmi V _ hbefore
  rw [← pinnedSteps_succ] at hpending hnmi
  have hmask : (m.pinnedSteps V host (k + 1)).cpu.pollI = m.polledMask V host k := by
    rw [polledMask, pinnedSteps_succ]
    exact step_pollI V _ hbefore
  rw [hmask, ← hnmi, pinnedBefore_window, ← hjam.irqLine hstart] at hpending
  simp only [stepKind_eq_irq, ne_eq, stepKind_eq_nmi, hjam.jammed hstart, hpending, true_and,
    Bool.and_eq_true, Bool.not_eq_true', Bool.not_eq_true]
  tauto

theorem Booted.exclusive {p : Pins} {calls : List PinCall} (hboot : Booted m p calls) :
    m.Exclusive := by
  rw [Exclusive, hboot.idle.2.1, Bool.false_and]

/-- From a boot, an NMI is serviced exactly when its transition came after the boot and
in the window right before it. -/
theorem Booted.nmi_iff {p : Pins} {calls : List PinCall} {k : ℕ} (hboot : Booted m p calls)
    (hjam : m.NoJam V host (k + 1)) :
    (m.pinnedSteps V host (k + 1)).stepKind = .nmi ↔ 0 < m.risesBefore V host p calls k := by
  rw [hjam.nmi_iff hboot.idle.1]
  cases k with
  | zero =>
    rw [pinnedSteps_zero, ← Pins.calls_nmiEdge, hboot.pins, ← Pins.calls_append,
      Pins.calls_nmiEdge, hboot.nmiEdge, risesBefore]
    simp
  | succ k =>
    rw [(hjam.mono (Nat.le_succ _)).nmiEdge hboot.idle.1, risesBefore]
    simp

/-- **The arbiter.** From a processor that was just constructed or reset, under every
interleaving of pin calls and steps: the two pending flags are never set together,
the first step executes an instruction, and the step after step `k` is an NMI
service exactly when the NMI pin has made a transition since the end of step `k - 1`,
else an IRQ service exactly when the IRQ pin is asserted at the end of step `k` and
its mask is clear, else an instruction. A BRK's mask is left open, but even after a
BRK there is no IRQ service unless the pin is asserted at its end. -/
theorem arbitration (V : Variant) (host : ℕ → List PinCall) {p : Pins} {calls : List PinCall}
    (hboot : Booted m p calls) :
    (∀ k, ¬((m.pinnedSteps V host k).cpu.pendingNmi = true ∧
      (m.pinnedSteps V host k).cpu.pendingIrq = true)) ∧
    (∃ op, (m.pinnedBefore V host 0).stepKind = .instruction op) ∧
    ∀ k, m.NoJam V host (k + 1) →
      ((m.pinnedBefore V host (k + 1)).stepKind = .nmi ↔ 0 < m.risesBefore V host p calls k) ∧
      ((m.pinnedBefore V host k).stepKind.executes Instr.isBreak = false →
        ((m.pinnedBefore V host (k + 1)).stepKind = .irq ↔
          ¬ 0 < m.risesBefore V host p calls k ∧
            (m.pinnedSteps V host (k + 1)).cpu.pins.irqLine = true ∧
            m.polledMask V host k = false)) ∧
      ((m.pinnedSteps V host (k + 1)).cpu.pins.irqLine = false →
        (m.pinnedBefore V host (k + 1)).stepKind ≠ .irq) ∧
      ((m.pinnedBefore V host (k + 1)).stepKind ≠ .nmi →
        (m.pinnedBefore V host (k + 1)).stepKind ≠ .irq →
        ∃ op, (m.pinnedBefore V host (k + 1)).stepKind = .instruction op) := by
  obtain ⟨hjammed, hnmi, hirq⟩ := hboot.idle
  have hexcl : m.Exclusive := hboot.exclusive
  refine ⟨fun k hboth => ?_, ⟨m.opcode, ?_⟩, fun k hjam => ?_⟩
  · have h : (m.pinnedSteps V host k).Exclusive := hexcl.afterSteps V _ k
    rw [Exclusive, hboth.1, hboth.2] at h
    cases h
  · rw [pinnedBefore_stepKind]
    exact stepKind_of_idle hjammed hnmi hirq
  · have hrises : (m.pinnedBefore V host (k + 1)).stepKind = .nmi ↔
        0 < m.risesBefore V host p calls k := by
      rw [pinnedBefore_stepKind]
      exact hboot.nmi_iff hjam
    have hirq_iff := irq_iff hexcl hjam hjammed
    rw [← pinnedBefore_stepKind] at hirq_iff
    refine ⟨hrises, fun _ => ?_, fun hline => ?_, fun hnonmi hnoirq => ?_⟩
    · rw [hirq_iff, ne_eq, hrises]
    · rw [ne_eq, hirq_iff, hline]
      simp
    · cases hkind : (m.pinnedBefore V host (k + 1)).stepKind with
      | nmi => exact absurd hkind hnonmi
      | irq => exact absurd hkind hnoirq
      | instruction op => exact ⟨op, rfl⟩
      | jammed =>
        rw [pinnedBefore_stepKind, stepKind_eq_jammed, hjam.jammed hjammed] at hkind
        cases hkind

/-- Both pins are asserted before the first of a row of NOPs: the NMI wins. -/
theorem arbitration_nmi_first :
    ((fresh { i := false } { memory := fun _ => 0xEA : FlatBus }).pinnedBefore Nmos6502
      (fun k => if k = 0 then [.setIrq true, .setNmi true] else []) 1).stepKind = .nmi :=
  ((arbitration Nmos6502 (fun k => if k = 0 then [.setIrq true, .setNmi true] else [])
    (.constructed { i := false } { memory := fun _ => 0xEA : FlatBus })).2.2 0
    (by unfold NoJam; decide +kernel)).1.mpr (by decide +kernel)

end Machine

end Mos6502
