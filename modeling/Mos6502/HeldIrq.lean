import Mos6502.InterruptTransparency

/-!
# A held IRQ

The IRQ is level sensed, and an RTI that clears I lets the next IRQ in at once. So a device
that holds the level asserted, with a handler that does not see to it, starves the program:
services and returns follow one another for as long as it does, and the program executes no
instruction in between.
-/

namespace Mos6502

/-- Asserting the IRQ again changes nothing. -/
theorem Pins.calls_of_held {p : Pins} (hirq : p.irqLine = true) {cs : List PinCall}
    (hheld : ∀ c ∈ cs, c = .setIrq true) : p.calls cs = p := by
  induction cs with
  | nil => rfl
  | cons c cs ih =>
    obtain ⟨rfl, hrest⟩ := List.forall_mem_cons.mp hheld
    have hcall : p.call (.setIrq true) = p := by
      rw [← hirq]
      rfl
    rw [calls_cons, hcall]
    exact ih hrest

namespace Machine

variable {β : Type} [PlainMemory β] {V : Variant} {host : ℕ → List PinCall}
  {m : Machine β NullHooks} {n : ℕ}

/-- After `n` steps the program is where it was at the start, and the IRQ is about to be
serviced again. -/
structure Starved (V : Variant) (host : ℕ → List PinCall) (m : Machine β NullHooks) (n : ℕ) :
    Prop where
  kind : (m.pinnedSteps V host n).stepKind = .irq
  pins : (m.pinnedSteps V host n).cpu.pins = m.cpu.pins
  shadows : Shadows (handlers m.arch.mem) 0 [] (m.pinnedSteps V host n).arch m.arch

/-- The service is done, and the RTI of its handler is about to return to the program. -/
structure Returning (V : Variant) (host : ℕ → List PinCall) (m : Machine β NullHooks) (n : ℕ) :
    Prop where
  kind : (m.pinnedSteps V host n).stepKind = .instruction 0x40
  pins : (m.pinnedSteps V host n).cpu.pins = m.cpu.pins
  shadows : Shadows (handlers m.arch.mem) 0 [⟨false, m.cpu.regs⟩] (m.pinnedSteps V host n).arch
    m.arch

/-- While the IRQ is held a step leaves the pins as they are. -/
theorem pins_of_held (hirq : m.cpu.pins.irqLine = true) (hedge : m.cpu.pins.nmiEdge = false)
    (hheld : ∀ c ∈ m.window V host n, c = .setIrq true)
    (hjammed : (m.pinnedSteps V host n).cpu.jammed = false)
    (hpins : (m.pinnedSteps V host n).cpu.pins = m.cpu.pins) :
    (m.pinnedBefore V host n).cpu.pins.calls ((m.pinnedBefore V host n).stepPinCalls V) =
        m.cpu.pins ∧
      (m.pinnedSteps V host (n + 1)).cpu.pins = m.cpu.pins := by
  have hbefore : (m.pinnedBefore V host n).cpu.jammed = false :=
    (congrArg Core.jammed pinnedBefore_core).trans hjammed
  have hcalls : (m.pinnedBefore V host n).cpu.pins.calls
      ((m.pinnedBefore V host n).stepPinCalls V) = m.cpu.pins := by
    rw [pinnedBefore_window, hpins, Pins.calls_of_held hirq hheld]
  refine ⟨hcalls, ?_⟩
  rw [pinnedSteps_succ, step_pins V _ hbefore, hcalls, ← hedge]

/-- While the IRQ is held, it is pending after a step exactly when the step does not mask it. -/
theorem pending_of_held (hirq : m.cpu.pins.irqLine = true) (hedge : m.cpu.pins.nmiEdge = false)
    (hheld : ∀ c ∈ m.window V host n, c = .setIrq true)
    (hjammed : (m.pinnedSteps V host n).cpu.jammed = false)
    (hexcl : (m.pinnedSteps V host n).Exclusive)
    (hpins : (m.pinnedSteps V host n).cpu.pins = m.cpu.pins) :
    (m.pinnedSteps V host (n + 1)).cpu.pendingNmi = false ∧
      (m.pinnedSteps V host (n + 1)).cpu.pendingIrq =
        !(m.pinnedSteps V host n).stepKind.mask (m.pinnedSteps V host n).cpu.regs
          (m.pinnedSteps V host (n + 1)).cpu.regs := by
  have hbefore : (m.pinnedBefore V host n).cpu.jammed = false :=
    (congrArg Core.jammed pinnedBefore_core).trans hjammed
  have hregs : (m.pinnedBefore V host n).cpu.regs = (m.pinnedSteps V host n).cpu.regs :=
    congrArg Core.regs pinnedBefore_core
  have hexcl' : (m.pinnedBefore V host n).Exclusive := hexcl.pinCalls (host n)
  obtain ⟨hcalls, _⟩ := pins_of_held hirq hedge hheld hjammed hpins
  rw [pinnedSteps_succ, step_pendingNmi V _ hbefore, hexcl'.step_pendingIrq V hbefore, hcalls,
    step_pollI V _ hbefore, pinnedBefore_stepKind, hregs, hirq, hedge]
  simp

/-- The cycle counter advances by the accesses of each step. -/
theorem pinnedSteps_succ_cycles :
    (m.pinnedSteps V host (n + 1)).cpu.cycles = (m.pinnedSteps V host n).cpu.cycles +
      BitVec.ofNat 64 ((m.pinnedSteps V host n).stepKind.accesses V
        (m.pinnedSteps V host n).arch).length := by
  have hcycles : (m.pinnedBefore V host n).cpu.cycles = (m.pinnedSteps V host n).cpu.cycles := by
    rw [pinnedBefore, pinCalls_eq]
  rw [pinnedSteps_succ, step_cycles, stepAccesses_eq, pinnedBefore_stepKind, hcycles, pinnedBefore,
    pinCalls_arch]

/-- The service masks the IRQ, so the handler comes next. -/
theorem Starved.returning (hrti : LoneRti m.arch.mem) (hirq : m.cpu.pins.irqLine = true)
    (hedge : m.cpu.pins.nmiEdge = false) (hheld : ∀ c ∈ m.window V host n, c = .setIrq true)
    (h : Starved V host m n) : Returning V host m (n + 1) := by
  obtain ⟨hjammed, hnmi, -⟩ := stepKind_eq_irq.mp h.kind
  have hexcl : (m.pinnedSteps V host n).Exclusive := by rw [Exclusive, hnmi, Bool.false_and]
  have hregs : (m.pinnedSteps V host n).cpu.regs = m.cpu.regs := h.shadows.nested
  have hentered := h.shadows.service (V := V) ⟨false, m.cpu.regs⟩ hregs.symm rfl (by decide)
  have hkind : Frame.kind ⟨false, m.cpu.regs⟩ = .irq := rfl
  rw [hkind, ← h.kind, ← pinnedSteps_succ_arch] at hentered
  have hjammed' : (m.pinnedSteps V host (n + 1)).cpu.jammed = false := by
    rw [pinnedSteps_succ_jammed, h.kind]
    rfl
  obtain ⟨hnmi', hirq'⟩ := pending_of_held hirq hedge hheld hjammed hexcl h.pins
  rw [h.kind] at hirq'
  have hopcode : (m.pinnedSteps V host (n + 1)).arch.mem
      (m.pinnedSteps V host (n + 1)).arch.regs.pc = 0x40 := by
    rw [show _ = (handlers m.arch.mem).irq from hentered.nested.1.pc,
      hentered.outside _ hrti.irq_outside]
    exact hrti.irq
  refine ⟨?_, (pins_of_held hirq hedge hheld hjammed h.pins).2, hentered⟩
  rw [stepKind_of_idle_plain hjammed' hnmi' hirq']
  exact congrArg StepKind.instruction hopcode

/-- The RTI unmasks the IRQ, so the next service follows it. -/
theorem Returning.starved (hi : m.cpu.regs.i = false) (hirq : m.cpu.pins.irqLine = true)
    (hedge : m.cpu.pins.nmiEdge = false) (hheld : ∀ c ∈ m.window V host n, c = .setIrq true)
    (h : Returning V host m n) : Starved V host m (n + 1) := by
  obtain ⟨hjammed, hnmi, -⟩ := idle_of_instruction h.kind
  have hexcl : (m.pinnedSteps V host n).Exclusive := by rw [Exclusive, hnmi, Bool.false_and]
  have hclosing : (m.pinnedSteps V host n).stepKind.bracket = .closing .interrupt := by
    rw [h.kind]
    decide +kernel
  obtain ⟨hreturned, hback⟩ := h.shadows.rti (V := V) hclosing (by decide)
  rw [← pinnedSteps_succ_arch] at hreturned hback
  have hjammed' : (m.pinnedSteps V host (n + 1)).cpu.jammed = false := by
    rw [pinnedSteps_succ_jammed, h.kind]
    decide +kernel
  obtain ⟨hnmi', hirq'⟩ := pending_of_held hirq hedge hheld hjammed hexcl h.pins
  have hpolls : (instr 0x40).pollsImmediately = true := by decide +kernel
  have hrestored : (m.pinnedSteps V host (n + 1)).cpu.regs.i = false := by
    rw [show (m.pinnedSteps V host (n + 1)).cpu.regs = _ from hback, hi]
  refine ⟨stepKind_eq_irq.mpr ⟨hjammed', hnmi', ?_⟩,
    (pins_of_held hirq hedge hheld hjammed h.pins).2, hreturned⟩
  rw [hirq', h.kind, StepKind.mask, hpolls, if_pos rfl, hrestored]
  rfl

theorem Starved.succ_cycles (h : Starved V host m n) :
    (m.pinnedSteps V host (n + 1)).cpu.cycles = (m.pinnedSteps V host n).cpu.cycles + 7 := by
  have hseven : ((m.pinnedSteps V host n).stepKind.accesses V
      (m.pinnedSteps V host n).arch).length = 7 := by
    rw [h.kind]
    rfl
  rw [pinnedSteps_succ_cycles, hseven]
  rfl

theorem Returning.succ_cycles (h : Returning V host m n) :
    (m.pinnedSteps V host (n + 1)).cpu.cycles = (m.pinnedSteps V host n).cpu.cycles + 6 := by
  have hrtiInstr : instr 0x40 = .SpecialInstr .RTI .Implied := by decide +kernel
  have hsix : ((m.pinnedSteps V host n).stepKind.accesses V
      (m.pinnedSteps V host n).arch).length = 6 := by
    rw [h.kind, StepKind.accesses, hrtiInstr]
    rfl
  rw [pinnedSteps_succ_cycles, hsix]
  rfl

/-- **The rounds.** While the IRQ has been held, every round begins with a service and has
taken the thirteen cycles of a service and an RTI. -/
theorem starved_rounds (hrti : LoneRti m.arch.mem) (hkind : m.stepKind = .irq)
    (hi : m.cpu.regs.i = false) (hirq : m.cpu.pins.irqLine = true)
    (hedge : m.cpu.pins.nmiEdge = false) (k : ℕ)
    (hheld : ∀ n < 2 * k, ∀ c ∈ m.window V host n, c = .setIrq true) :
    Starved V host m (2 * k) ∧
      (m.pinnedSteps V host (2 * k)).cpu.cycles = m.cpu.cycles + BitVec.ofNat 64 (13 * k) := by
  induction k with
  | zero => exact ⟨⟨hkind, rfl, rfl, fun _ _ => rfl, rfl⟩, (BitVec.add_zero _).symm⟩
  | succ k ih =>
    obtain ⟨hstarved, hcycles⟩ := ih fun n hn => hheld n (by omega)
    have hreturning := hstarved.returning hrti hirq hedge (hheld (2 * k) (by omega))
    refine ⟨hreturning.starved hi hirq hedge (hheld (2 * k + 1) (by omega)), ?_⟩
    rw [Nat.mul_succ, hreturning.succ_cycles, hstarved.succ_cycles, hcycles, Nat.mul_succ,
      BitVec.ofNat_add, BitVec.add_assoc, BitVec.add_assoc]
    rfl

/-- **Starvation.** Take plain memory whose vectors point at a lone RTI outside page one, and a
processor that is about to service an IRQ with I clear. While the host and the bus hold the
IRQ and leave the NMI pin alone, services and returns follow one another: the program keeps
its registers and the memory outside page one, executes no instruction of its own, and each
round takes thirteen cycles. -/
theorem held_irq_starves (V : Variant) (host : ℕ → List PinCall) (m : Machine β NullHooks)
    (hrti : LoneRti m.arch.mem) (hkind : m.stepKind = .irq) (hi : m.cpu.regs.i = false)
    (hirq : m.cpu.pins.irqLine = true) (hedge : m.cpu.pins.nmiEdge = false) (k : ℕ)
    (hheld : ∀ n < 2 * k, ∀ c ∈ m.window V host n, c = .setIrq true) :
    (m.pinnedSteps V host (2 * k)).stepKind = .irq ∧
      ((∀ c ∈ m.window V host (2 * k), c = .setIrq true) →
        (m.pinnedSteps V host (2 * k + 1)).stepKind = .instruction 0x40) ∧
      (m.pinnedSteps V host (2 * k)).cpu.regs = m.cpu.regs ∧
      (∀ addr, page addr ≠ 1 → (m.pinnedSteps V host (2 * k)).arch.mem addr = m.arch.mem addr) ∧
      (m.pinnedSteps V host (2 * k)).cpu.cycles = m.cpu.cycles + BitVec.ofNat 64 (13 * k) := by
  obtain ⟨hstarved, hcycles⟩ := starved_rounds hrti hkind hi hirq hedge k hheld
  exact ⟨hstarved.kind, fun h => (hstarved.returning hrti hirq hedge h).kind,
    hstarved.shadows.nested, hstarved.shadows.outside, hcycles⟩

/-- An IRQ during `JMP $0400` at `$0400`, whose handler is an RTI at `$0500`. -/
theorem held_irq_starves_jmp :
    let code : List (U16 × U8) := [(0x0400, 0x4C), (0x0401, 0x00), (0x0402, 0x04), (0x0500, 0x40),
      (0xFFFA, 0x00), (0xFFFB, 0x05), (0xFFFE, 0x00), (0xFFFF, 0x05)]
    let start : Machine FlatBus NullHooks :=
      fresh { pc := 0x0400, i := false } { memory := fun a => (code.lookup a).getD 0xEA }
    let m := (start.setIrq true).stepMachine Nmos6502
    (m.pinnedSteps Nmos6502 (fun _ => []) (2 * 1000)).cpu.regs = { pc := 0x0400, i := false } := by
  intro code start m
  have hrti : LoneRti m.arch.mem :=
    ⟨by decide +kernel, by decide +kernel, by decide +kernel, by decide +kernel⟩
  obtain ⟨_, _, hregs, _, _⟩ := held_irq_starves Nmos6502 (fun _ => []) m hrti (by decide +kernel)
    (by decide +kernel) (by decide +kernel) (by decide +kernel) 1000
    (fun n _ c hc => by simp [window, stepPinCalls_silent] at hc)
  exact hregs.trans (by decide +kernel)

end Machine

end Mos6502
