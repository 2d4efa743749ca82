import Mos6502.Latches
import Mos6502.PlainSemantics

/-!
# What a step does on plain memory

On a bus that behaves as plain memory a step is a function of its kind, the registers
and the bytes stored: the programmer's model gives both the state after it and the
accesses it makes, whatever further state the bus keeps and whichever pin calls
it makes.
-/

namespace Mos6502

open Effects

namespace StepKind

/-- The effect of a step of this kind on the programmer-visible state. -/
def effect (V : Variant) (kind : StepKind) (a : Arch) : Arch :=
  match kind with
  | .jammed => a
  | .nmi => interruptEffect V false kNmiVector a
  | .irq => interruptEffect V false kIrqVector a
  | .instruction op => (instr op).effect V (a.advance 1)

/-- The accesses of a step of this kind, in order. -/
def accesses (V : Variant) (kind : StepKind) (a : Arch) : List BusAccess :=
  match kind with
  | .jammed => [a.rd a.regs.pc]
  | .nmi => interruptAccesses V false kNmiVector a
  | .irq => interruptAccesses V false kIrqVector a
  | .instruction op => a.rd a.regs.pc :: (instr op).accesses V (a.advance 1)

/-- **Frame.** A step stores only into the addresses that it writes. -/
theorem effect_frame (V : Variant) (kind : StepKind) (a : Arch) {addr : U16}
    (h : ∀ value, .write addr value ∉ kind.accesses V a) :
    (kind.effect V a).mem addr = a.mem addr := by
  have hservice (vector : U16)
      (h : ∀ value, .write addr value ∉ interruptAccesses V false vector a) :
      (interruptEffect V false vector a).mem addr = a.mem addr := by
    obtain ⟨accs, htrace, hframe⟩ := Plain.exec_frame (Policy.interruptSequence V false vector)
      ⟨a.regs, a.mem, [], false, false⟩
    rw [Plain.exec_interruptSequence] at htrace hframe
    have haccs : interruptAccesses V false vector a = accs := htrace
    exact hframe addr (haccs ▸ h)
  cases kind with
  | jammed => rfl
  | nmi => exact hservice kNmiVector h
  | irq => exact hservice kIrqVector h
  | instruction op =>
    exact (instr op).effect_frame V (a.advance 1) fun value hmem =>
      h value (List.mem_cons_of_mem _ hmem)

end StepKind

namespace Machine

variable {β : Type} [PlainMemory β]

/-- The programmer-visible state of a machine on plain memory. -/
def arch (m : Machine β NullHooks) : Arch :=
  { regs := m.cpu.regs, mem := PlainMemory.memory m.bus }

/-- The plain state that a machine on a logging bus stands for. -/
def plain (m : Machine (Logged β) NullHooks) : Plain where
  regs := m.cpu.regs
  mem := PlainMemory.memory m.bus
  trace := BusEvent.accesses m.bus.log
  jammed := m.cpu.jammed
  pollI := m.cpu.pollI

theorem plain_trace (m : Machine (Logged β) NullHooks) :
    m.plain.trace = BusEvent.accesses m.bus.log := rfl

@[simp] theorem pinCall_plain (m : Machine (Logged β) NullHooks) (c : PinCall) :
    (m.pinCall c).plain = m.plain := by
  cases c <;> rfl

theorem plain_read (addr : U16) (m : Machine (Logged β) NullHooks) :
    (m.read addr).1 = (Plain.handle (.read addr) m.plain).1 ∧
      (m.read addr).2.plain = (Plain.handle (.read addr) m.plain).2 := by
  have hvalue : (m.read addr).1 = PlainMemory.memory m.bus addr := by
    simp [Machine.read, Machine.tick, absorb]
  obtain ⟨es, haccesses, h⟩ := grows_read addr m
  refine ⟨hvalue, ?_⟩
  ext1
  · rfl
  · simp [plain, Plain.handle, Machine.read, Machine.tick, absorb, Hooks.onRead]
  · simp only [plain, Plain.handle, h.log, BusEvent.accesses_append, haccesses, hvalue]
  · rfl
  · rfl

theorem plain_write (addr : U16) (value : U8) (m : Machine (Logged β) NullHooks) :
    (m.write addr value).plain = (Plain.handle (.write addr value) m.plain).2 := by
  obtain ⟨es, haccesses, h⟩ := grows_write addr value m
  ext1
  · rfl
  · simp [plain, Plain.handle, Machine.write, Machine.tick, absorb, Hooks.onWrite]
  · simp only [plain, Plain.handle, h.log, BusEvent.accesses_append, haccesses]
  · rfl
  · rfl

/-- **Policies on a machine are policies on plain memory.** -/
theorem exec_plain {α : Type} (p : Policy α) (m : Machine (Logged β) NullHooks) :
    (m.exec p).1 = (Plain.exec p m.plain).1 ∧ (m.exec p).2.plain = (Plain.exec p m.plain).2 := by
  refine Program.run_sim (R := fun (m : Machine (Logged β) NullHooks) s => m.plain = s) ?_ p rfl
  rintro c m _ rfl
  cases c with
  | read addr => exact plain_read addr m
  | write addr value => exact ⟨rfl, plain_write addr value m⟩
  | regs | setRegs _ | jam | pollImmediate => exact ⟨rfl, rfl⟩

/-- A policy on plain memory, without the log. -/
theorem exec_arch {α : Type} (p : Policy α) (m : Machine β NullHooks) :
    (m.exec p).1 = (Plain.exec p m.logged.plain).1 ∧
      (m.exec p).2.arch = (Plain.exec p m.logged.plain).2.arch := by
  obtain ⟨hvalue, hstate⟩ := exec_plain p m.logged
  obtain ⟨hvalue', hstate'⟩ := exec_forget p m.logged
  refine ⟨hvalue'.trans hvalue, ?_⟩
  rw [← hstate]
  exact congrArg arch hstate'

/-- The address that a mode resolves to. -/
theorem exec_effective (mode : OperandMode) (A : Access) (m : Machine β NullHooks) :
    (m.exec (mode.effective A)).1 = mode.address m.arch := by
  rw [(exec_arch _ m).1, Plain.exec_effective]
  rfl

/-- **Instructions.** The code of an instruction has the effect that the programmer's model
gives it. -/
theorem exec_execute_arch (V : Variant) (i : Instr) (m : Machine β NullHooks) :
    (m.exec (i.execute V)).2.arch = i.effect V m.arch := by
  rw [(exec_arch _ m).2, Plain.exec_execute]
  rfl

/-- The opcode that an instruction fetches is the byte at the program counter. -/
theorem opcode_eq (m : Machine β NullHooks) : m.opcode = m.arch.mem m.cpu.regs.pc := by
  rw [← opcode_logged]
  exact (exec_plain Policy.fetch m.logged).1

theorem stepKind_of_idle_plain {m : Machine β NullHooks} (hjammed : m.cpu.jammed = false)
    (hnmi : m.cpu.pendingNmi = false) (hirq : m.cpu.pendingIrq = false) :
    m.stepKind = .instruction (m.arch.mem m.cpu.regs.pc) := by
  rw [stepKind_of_idle hjammed hnmi hirq, opcode_eq]

theorem mem_pc_of_instruction {m : Machine β NullHooks} {op : U8}
    (h : m.stepKind = .instruction op) :
    m.arch.mem m.cpu.regs.pc = op := by
  rw [← opcode_eq]
  exact (idle_of_instruction h).2.2.2

theorem pollInterrupts_plain (m : Machine (Logged β) NullHooks) :
    m.pollInterrupts.plain = m.plain := by
  simp only [pollInterrupts, Cpu.pollInterrupts, plain]
  split_ifs <;> rfl

/-- An interrupt service, over plain memory. -/
theorem serviceInterrupt_plain (V : Variant) (isNmi : Bool) (vector : U16)
    (m : Machine (Logged β) NullHooks) :
    (m.serviceInterrupt V isNmi vector).plain =
      { m.plain.advanceTo (interruptEffect V false vector m.plain.arch)
          (interruptAccesses V false vector m.plain.arch) with pollI := true } := by
  have hexec := (exec_plain (Policy.interruptSequence V false vector) m).2
  rw [Plain.exec_interruptSequence] at hexec
  change
    ((m.exec (Policy.interruptSequence V false vector)).2.pollImmediate.pollInterrupts).plain = _
  rw [pollInterrupts_plain]
  have hpoll (t : Machine (Logged β) NullHooks) :
      t.pollImmediate.plain = { t.plain with pollI := t.plain.regs.i } := rfl
  rw [hpoll, hexec]
  rfl

/-- The execution of an instruction, over plain memory. -/
theorem executeInstruction_plain (V : Variant) (m : Machine (Logged β) NullHooks) :
    (m.executeInstruction V).plain =
      ({ m.plain with pollI := m.cpu.regs.i }.advanceTo (m.plain.arch.advance 1)
        [m.plain.arch.rd m.cpu.regs.pc]).after V (instr m.plain.arch.lo) := by
  obtain ⟨hopcode, hfetched⟩ := exec_plain Policy.fetch m.pollImmediate
  rw [Plain.exec_fetch] at hopcode hfetched
  change (((m.pollImmediate.exec Policy.fetch).2.exec
    (dispatch V (m.pollImmediate.exec Policy.fetch).1)).2.pollInterrupts).plain = _
  rw [pollInterrupts_plain, (exec_plain _ _).2, hfetched, hopcode, dispatch_eq,
    Plain.exec_execute]
  rfl

section step

variable (V : Variant) (m : Machine β NullHooks)

/-- The plain state after a step, by the kind of the step. -/
theorem stepMachine_plain :
    (m.logged.stepMachine V).plain.arch = m.stepKind.effect V m.arch ∧
      (m.logged.stepMachine V).plain.trace = m.stepKind.accesses V m.arch := by
  unfold stepMachine stepKind
  simp only [show m.logged.cpu = m.cpu from rfl]
  split_ifs with hjammed hnmi hirq
  · rw [(plain_read m.cpu.regs.pc m.logged).2]
    exact ⟨rfl, rfl⟩
  · rw [serviceInterrupt_plain]
    exact ⟨rfl, rfl⟩
  · rw [serviceInterrupt_plain]
    exact ⟨rfl, rfl⟩
  · rw [executeInstruction_plain, opcode_eq]
    exact ⟨rfl, rfl⟩

/-- **State.** A step has the effect that the programmer's model gives its kind. -/
theorem stepMachine_arch : (m.stepMachine V).arch = m.stepKind.effect V m.arch := by
  rw [← (stepMachine_plain V m).1, ← stepMachine_logged]
  rfl

/-- **Accesses.** A step makes the accesses that the programmer's model gives its kind. -/
theorem stepAccesses_eq : m.stepAccesses V = m.stepKind.accesses V m.arch :=
  (stepMachine_plain V m).2

end step

/-! ### Reset -/

/-- A reset, over plain memory: its latches and its registers end up in known values. -/
theorem reset_plain (m : Machine (Logged β) NullHooks) :
    m.reset.plain = { m.plain.advanceTo (resetEffect m.plain.arch) (resetReads m.plain.arch) with
      jammed := false, pollI := true } := by
  have hexec (s : Plain) : Plain.exec resetSequence s =
      ((), s.advanceTo (resetEffect s.arch) (resetReads s.arch)) := by
    simp [resetSequence, resetEffect, resetReads, Plain.advanceTo, Plain.arch, Arch.rd,
      BitVec.sub_sub]
  have hpoll (t : Machine (Logged β) NullHooks) :
      t.pollImmediate.plain = { t.plain with pollI := t.plain.regs.i } := rfl
  rw [reset, hpoll, (exec_plain resetSequence _).2, hexec]
  rfl

theorem reset_arch (m : Machine β NullHooks) : m.reset.arch = resetEffect m.arch := by
  have hforget : m.reset = m.logged.reset.forget := reset_forget m.logged
  rw [hforget]
  change m.logged.reset.plain.arch = _
  rw [reset_plain]
  rfl

/-- The bus accesses of a reset, in order. -/
def resetAccesses (m : Machine β NullHooks) : List BusAccess :=
  BusEvent.accesses m.logged.reset.bus.log

theorem resetAccesses_eq (m : Machine β NullHooks) : m.resetAccesses = resetReads m.arch := by
  have harch : m.logged.plain.arch = m.arch := rfl
  have htrace : m.logged.plain.trace = [] := rfl
  rw [resetAccesses, ← plain_trace, reset_plain, harch]
  simp only [Plain.advanceTo, htrace, List.nil_append]

/-! ### Runs on plain memory -/

@[simp] theorem pinCalls_arch (m : Machine β NullHooks) (cs : List PinCall) :
    (m.pinCalls cs).arch = m.arch := by
  rw [pinCalls_eq]
  rfl

variable {V : Variant} {host : ℕ → List PinCall} {m : Machine β NullHooks} {k : ℕ}

theorem pinnedSteps_succ_arch :
    (m.pinnedSteps V host (k + 1)).arch =
      (m.pinnedSteps V host k).stepKind.effect V (m.pinnedSteps V host k).arch := by
  rw [pinnedSteps_succ, stepMachine_arch, pinnedBefore_stepKind, pinnedBefore, pinCalls_arch]

theorem pinnedSteps_succ_regs :
    (m.pinnedSteps V host (k + 1)).cpu.regs =
      ((m.pinnedSteps V host k).stepKind.effect V (m.pinnedSteps V host k).arch).regs :=
  congrArg Arch.regs pinnedSteps_succ_arch

end Machine

end Mos6502
