import Mos6502.CycleBudget

/-!
# Runs that nothing interrupts

A processor whose pins are never asserted executes one instruction after the other until
it jams. On plain memory its run is that of the programmer's model, which steps from one
state to the next with no latch in between, and the clock of the flat bus keeps time with
the processor's own counter.
-/

namespace Mos6502

open Effects

/-! ### The programmer's model as a system -/

namespace Arch

/-- The instruction at the program counter. -/
def next (a : Arch) : Instr := instr (a.mem a.regs.pc)

/-- The execution of one instruction. -/
def step (V : Variant) (a : Arch) : Arch := a.next.effect V (a.advance 1)

/-- The bus cycles of one instruction, its opcode fetch included. -/
def cost (V : Variant) (a : Arch) : ℕ := (a.next.accesses V (a.advance 1)).length + 1

/-- None of the first `k` instructions is a JAM. -/
def Unjammed (V : Variant) (k : ℕ) (a : Arch) : Prop :=
  ∀ j < k, ((step V)^[j] a).next.jams = false

variable {V : Variant} {k : ℕ} {a : Arch}

theorem Unjammed.mono {j : ℕ} (h : Unjammed V k a) (hjk : j ≤ k) : Unjammed V j a :=
  fun i hi => h i (by omega)

end Arch

namespace Machine

section calm

variable {β : Type}

/-- Nothing keeps the processor from executing instructions: it is not jammed, no pin is
asserted and no interrupt is latched or pending. -/
structure Calm (m : Machine β NullHooks) : Prop where
  jammed : m.cpu.jammed = false
  pendingNmi : m.cpu.pendingNmi = false
  pendingIrq : m.cpu.pendingIrq = false
  pins : m.cpu.pins = {}

variable [PlainMemory β] {V : Variant} {m : Machine β NullHooks} {k : ℕ}

theorem Calm.stepKind (h : m.Calm) : m.stepKind = .instruction (m.arch.mem m.arch.regs.pc) :=
  stepKind_of_idle_plain h.jammed h.pendingNmi h.pendingIrq

theorem Calm.stepMachine_arch (h : m.Calm) : (m.stepMachine V).arch = m.arch.step V := by
  rw [Machine.stepMachine_arch, h.stepKind]
  rfl

theorem Calm.stepAccesses (h : m.Calm) :
    m.stepAccesses V =
      m.arch.rd m.cpu.regs.pc :: m.arch.next.accesses V (m.arch.advance 1) := by
  rw [stepAccesses_eq, h.stepKind]
  rfl

theorem Calm.stepCycles (h : m.Calm) : m.stepCycles V = m.arch.cost V := by
  rw [stepCycles_eq, h.stepAccesses]
  rfl

theorem Calm.step_jammed (h : m.Calm) : (m.stepMachine V).cpu.jammed = m.arch.next.jams := by
  rw [step_jams, h.stepKind]
  rfl

variable [SilentBus β]

/-- An instruction that does not jam leaves the processor undisturbed. -/
theorem Calm.stepMachine (h : m.Calm) (hjams : m.arch.next.jams = false) :
    (m.stepMachine V).Calm where
  jammed := h.step_jammed.trans hjams
  pendingNmi := by rw [step_pendingNmi V m h.jammed, stepPinCalls_silent, h.pins]; rfl
  pendingIrq := by
    rw [step_pendingIrq V m h.jammed, stepPinCalls_silent, h.pins, h.pendingNmi]
    rfl
  pins := by rw [step_pins V m h.jammed, stepPinCalls_silent, h.pins]; rfl

/-- **Refinement.** Until it jams, an undisturbed processor runs as the programmer's model,
and takes as many cycles. -/
theorem Calm.iterate (h : m.Calm) (hrun : m.arch.Unjammed V k) :
    ((Machine.stepMachine V)^[k] m).Calm ∧
      ((Machine.stepMachine V)^[k] m).arch = (Arch.step V)^[k] m.arch ∧
      spent (Machine.stepMachine V) (Machine.stepCycles V) k m =
        spent (Arch.step V) (Arch.cost V) k m.arch := by
  induction k with
  | zero => exact ⟨h, rfl, rfl⟩
  | succ k ih =>
    obtain ⟨hcalm, harch, hspent⟩ := ih (hrun.mono (Nat.le_succ k))
    have hjams : ((Machine.stepMachine V)^[k] m).arch.next.jams = false := by
      rw [harch]
      exact hrun k (Nat.lt_succ_self k)
    rw [Function.iterate_succ_apply', Function.iterate_succ_apply', spent_succ, spent_succ, hspent,
      hcalm.stepMachine_arch, hcalm.stepCycles, harch]
    exact ⟨hcalm.stepMachine hjams, rfl, rfl⟩

/-- The last instruction of a run may jam. -/
theorem Calm.iterate_succ (h : m.Calm) (hrun : m.arch.Unjammed V k) :
    ((Machine.stepMachine V)^[k + 1] m).arch = (Arch.step V)^[k + 1] m.arch ∧
      spent (Machine.stepMachine V) (Machine.stepCycles V) (k + 1) m =
        spent (Arch.step V) (Arch.cost V) (k + 1) m.arch := by
  obtain ⟨hcalm, harch, hspent⟩ := h.iterate hrun
  rw [Function.iterate_succ_apply', Function.iterate_succ_apply', spent_succ, spent_succ, hspent,
    hcalm.stepMachine_arch, hcalm.stepCycles, harch]
  exact ⟨rfl, rfl⟩

/-- A run that leaves the processor free executed no JAM. -/
theorem Calm.unjammed (h : m.Calm)
    (hfree : ∀ j < k, ((Machine.stepMachine V)^[j + 1] m).cpu.jammed = false) :
    m.arch.Unjammed V k := by
  induction k with
  | zero => exact fun j hj => absurd hj (Nat.not_lt_zero j)
  | succ k ih =>
    have hrun := ih fun j hj => hfree j (by omega)
    obtain ⟨hcalm, harch, _⟩ := h.iterate hrun
    have hlast := hfree k (Nat.lt_succ_self k)
    rw [Function.iterate_succ_apply', hcalm.step_jammed, harch] at hlast
    intro j hj
    rcases Nat.lt_succ_iff_lt_or_eq.mp hj with hlt | rfl
    · exact hrun j hlt
    · exact hlast

/-- A reset of a processor with no pin asserted. -/
theorem Calm.of_reset (hpins : m.cpu.pins.nmiLine = false) (hirq : m.cpu.pins.irqLine = false) :
    m.reset.Calm := by
  obtain ⟨hpins', hnmi', hirq'⟩ := reset_latches m
  refine ⟨(reset_core m).2.2, hnmi', hirq', ?_⟩
  rw [hpins', resetPinCalls_silent, Pins.calls_nil]
  cases hm : m.cpu.pins
  simp_all

end calm

/-! ### The clock of the flat bus -/

section clock

variable (V : Variant) (m : Machine FlatBus NullHooks)

/-- The flat bus counts one cycle for each access that crosses it. -/
theorem isFrame_clock :
    IsFrame fun m m' : Machine (Logged FlatBus) NullHooks =>
      ∃ accesses, BusEvent.accesses m'.bus.log = BusEvent.accesses m.bus.log ++ accesses ∧
        m'.bus.bus.cycles = m.bus.bus.cycles + BitVec.ofNat 64 accesses.length where
  trans := by
    rintro m₁ m₂ m₃ ⟨as, hlog, hcycles⟩ ⟨as', hlog', hcycles'⟩
    refine ⟨as ++ as', by rw [hlog', hlog, List.append_assoc], ?_⟩
    rw [hcycles', hcycles, List.length_append, BitVec.ofNat_add, BitVec.add_assoc]
  cpu m _ := ⟨[], (List.append_nil _).symm, (BitVec.add_zero _).symm⟩
  read addr m := by
    obtain ⟨es, haccesses, hgrows⟩ := grows_read addr m
    exact ⟨_, by rw [hgrows.log, BusEvent.accesses_append, haccesses], rfl⟩
  write addr value m := by
    obtain ⟨es, haccesses, hgrows⟩ := grows_write addr value m
    exact ⟨_, by rw [hgrows.log, BusEvent.accesses_append, haccesses], rfl⟩

theorem stepMachine_clock :
    (m.stepMachine V).bus.cycles =
      m.bus.cycles + BitVec.ofNat 64 (m.stepAccesses V).length := by
  obtain ⟨accesses, hlog, hcycles⟩ := isFrame_clock.stepMachine V m.logged
  have haccesses : m.stepAccesses V = accesses := hlog
  rw [haccesses, ← stepMachine_logged]
  exact hcycles

theorem iterate_clock (k : ℕ) :
    ((stepMachine V)^[k] m).bus.cycles =
      m.bus.cycles + BitVec.ofNat 64 (spent (stepMachine V) (stepCycles V) k m) := by
  induction k with
  | zero => exact (BitVec.add_zero _).symm
  | succ k ih =>
    rw [Function.iterate_succ_apply', stepMachine_clock, ih, spent_succ, BitVec.ofNat_add,
      BitVec.add_assoc, stepCycles_eq]

theorem reset_clock :
    m.reset.bus.cycles = m.bus.cycles + BitVec.ofNat 64 m.resetAccesses.length ∧
      m.reset.cpu.cycles = m.cpu.cycles + BitVec.ofNat 64 m.resetAccesses.length := by
  obtain ⟨accesses, hlog, hcycles⟩ := isFrame_clock.exec resetSequence m.logged.cleared
  obtain ⟨es, hgrows⟩ := grows_exec resetSequence m.logged.cleared
  have haccesses : m.resetAccesses = accesses := hlog
  have hevents : m.resetAccesses = BusEvent.accesses es := congrArg BusEvent.accesses hgrows.log
  have hreset : m.reset = m.logged.reset.forget := reset_forget m.logged
  rw [hreset]
  exact ⟨haccesses ▸ hcycles, hevents ▸ hgrows.cycles⟩

/-- **The two clocks.** Along every run, whatever the host does with the pins and however
often it resets the processor, the bus and the processor count the same cycles. -/
theorem clocks_agree (host : ℕ → List HostCall) (k : ℕ) :
    (m.afterSteps V host k).bus.cycles - (m.afterSteps V host k).cpu.cycles =
      m.bus.cycles - m.cpu.cycles := by
  have hadd (x y d : U64) : x + d - (y + d) = x - y := by grind
  let P (t : Machine FlatBus NullHooks) :=
    t.bus.cycles - t.cpu.cycles = m.bus.cycles - m.cpu.cycles
  have hhost (t : Machine FlatBus NullHooks) (h : P t) (cs : List HostCall) :
      P (t.hostCalls cs) := by
    refine hostCalls_invariant (fun t c h => ?_) (fun t h => ?_) cs h
    · cases c <;> exact h
    · obtain ⟨hbus, hcpu⟩ := t.reset_clock
      change t.reset.bus.cycles - t.reset.cpu.cycles = _
      rw [hbus, hcpu, hadd]
      exact h
  refine afterSteps_invariant V host m (P := P) rfl (fun j h => ?_) k
  have hbefore := hhost _ h (host j)
  change (stepMachine V (m.beforeStep V host j)).bus.cycles -
    (stepMachine V (m.beforeStep V host j)).cpu.cycles = _
  rw [stepMachine_clock, step_cycles, hadd]
  exact hbefore

end clock

end Machine

section bounds

variable (V : Variant) (a : Arch)

/-- An instruction takes eleven bus cycles at most. -/
theorem Arch.cost_le : a.cost V ≤ 11 := by
  let m : Machine FlatBus NullHooks := Machine.fresh a.regs { memory := a.mem }
  have hcalm : m.Calm := ⟨rfl, rfl, rfl, rfl⟩
  have hcost : m.stepCycles V = a.cost V := hcalm.stepCycles
  rw [← hcost]
  exact m.stepCycles_le V

theorem Arch.spent_le (k : ℕ) : spent (step V) (cost V) k a ≤ 11 * k := by
  induction k with
  | zero => exact le_rfl
  | succ k ih =>
    have := Arch.cost_le V ((step V)^[k] a)
    rw [spent_succ]
    omega

end bounds

end Mos6502
