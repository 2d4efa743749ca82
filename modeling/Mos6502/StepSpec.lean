import Mos6502.BusLog
import Mos6502.CoreSpec

/-!
# What a step does on any bus

A step is one of four kinds: a jammed one, the service of an NMI or of an IRQ, or
the execution of an instruction. For each kind this module says what becomes of
the registers' I flag, the polled mask, the pins and the pending flags, whatever
the bus answers and whichever pin calls it makes while the step runs.
-/

namespace Mos6502

open Effects

/-- What a step turns out to be. -/
inductive StepKind
  | jammed
  | nmi
  | irq
  | instruction (opcode : U8)
  deriving DecidableEq, Repr

namespace StepKind

/-- The kinds of step that run the interrupt sequence. -/
def isEntry : StepKind → Bool
  | .nmi | .irq => true
  | .instruction opcode => (instr opcode).isBreak
  | .jammed => false

/-- The instruction of a step, if it executes one that `p` accepts. -/
def executes (p : Instr → Bool) : StepKind → Bool
  | .instruction opcode => p (instr opcode)
  | _ => false

/-- What a step of this kind does to the processor's own state on any bus. -/
def Effect (kind : StepKind) (s s' : Core) : Prop :=
  match kind with
  | .jammed => s' = s
  | .nmi | .irq => s'.regs.i = true ∧ s'.pollI = true ∧ s'.jammed = s.jammed
  | .instruction opcode => Core.Executed (instr opcode) { s with pollI := s.regs.i } s'

/-- The mask of the poll that ends a step of this kind, from the registers before and
after the step: I at its start, I as an RTI restored it, and set after a service. -/
def mask (kind : StepKind) (r r' : Registers) : Bool :=
  match kind with
  | .instruction opcode => if (instr opcode).pollsImmediately then r'.i else r.i
  | _ => true

theorem mask_of_set (kind : StepKind) {r r' : Registers} (hr : r.i = true) (hr' : r'.i = true) :
    kind.mask r r' = true := by
  cases kind with
  | instruction op => simp [mask, hr, hr']
  | jammed | nmi | irq => rfl

/-- Whether a step of this kind leaves the processor jammed. -/
def jams : StepKind → Bool
  | .jammed => true
  | .nmi | .irq => false
  | .instruction opcode => (instr opcode).jams

end StepKind

namespace Machine

variable {β : Type}

section pins

variable (m : Machine β NullHooks)

/-- The sampling of the interrupts consumes the NMI edge. -/
theorem pollInterrupts_pins :
    m.pollInterrupts.cpu.pins = { m.cpu.pins with nmiEdge := false } := by
  rcases hedge : m.cpu.pins with ⟨line, edge, irq⟩
  cases edge <;> simp [pollInterrupts, Cpu.pollInterrupts, hedge]
  split <;> simp [hedge]

theorem pollInterrupts_pendingNmi :
    m.pollInterrupts.cpu.pendingNmi = (m.cpu.pendingNmi || m.cpu.pins.nmiEdge) := by
  simp only [pollInterrupts, Cpu.pollInterrupts]
  split_ifs with hedge hirq <;> simp [hedge]

theorem pollInterrupts_pendingIrq :
    m.pollInterrupts.cpu.pendingIrq =
      (m.cpu.pendingIrq || (!m.cpu.pins.nmiEdge && m.cpu.pins.irqLine && !m.cpu.pollI)) := by
  simp only [pollInterrupts, Cpu.pollInterrupts]
  split_ifs with hedge hirq
  · simp [hedge]
  · simp only [Bool.and_eq_true, Bool.not_eq_true'] at hirq
    simp [hedge, hirq]
  · simp only [Bool.not_eq_true] at hirq
    simp [hedge, hirq]

@[simp] theorem pollInterrupts_core : m.pollInterrupts.core = m.core := by
  simp only [pollInterrupts, Cpu.pollInterrupts, core]
  split_ifs <;> rfl

end pins

variable [BusLike β]

/-- The byte that the opcode fetch of an instruction returns. -/
def opcode (m : Machine β NullHooks) : U8 := (m.exec Policy.fetch).1

/-- The kind of the next step. -/
def stepKind (m : Machine β NullHooks) : StepKind :=
  if m.cpu.jammed then .jammed
  else if m.cpu.pendingNmi then .nmi
  else if m.cpu.pendingIrq then .irq
  else .instruction m.opcode

/-- What a step that ends in a poll leaves behind, in terms of the machine `t` right
before that poll. -/
structure BeforePoll (V : Variant) (m : Machine β NullHooks)
    (t : Machine (Logged β) NullHooks) : Prop where
  poll : m.logged.stepMachine V = t.pollInterrupts
  pins : t.cpu.pins = m.cpu.pins.calls (m.stepPinCalls V)
  cycles : t.cpu.cycles = m.cpu.cycles + BitVec.ofNat 64 (m.stepAccesses V).length
  paired : BusEvent.issued (m.stepEvents V) =
    (m.stepAccesses V).flatMap fun a => [.tick, .access a]
  pendingNmi : t.cpu.pendingNmi = false
  pendingIrq : t.cpu.pendingIrq = (m.cpu.pendingNmi && m.cpu.pendingIrq)
  core : m.stepKind.Effect m.core t.core

section steps

variable (V : Variant) (m : Machine β NullHooks)

theorem opcode_logged : m.logged.opcode = m.opcode := (exec_forget Policy.fetch m.logged).1.symm

/-- The service of an interrupt: seven bus cycles, then I and the mask are set. -/
private theorem beforePoll_service (isNmi : Bool) (vector : U16)
    (t₀ : Machine (Logged β) NullHooks) (hlog : t₀.bus.log = [])
    (hpins : t₀.cpu.pins = m.cpu.pins) (hcycles : t₀.cpu.cycles = m.cpu.cycles)
    (hcore : t₀.core = m.core)
    (hstep : m.logged.stepMachine V = t₀.serviceInterrupt V isNmi vector)
    (hnmi : t₀.cpu.pendingNmi = false)
    (hirq : t₀.cpu.pendingIrq = (m.cpu.pendingNmi && m.cpu.pendingIrq))
    (hkind : m.stepKind = .nmi ∨ m.stepKind = .irq) : ∃ t, m.BeforePoll V t := by
  let t := (t₀.exec (Policy.interruptSequence V false vector)).2
  obtain ⟨es, hes⟩ : ∃ es, Grows es t₀ t := grows_exec _ _
  obtain ⟨hi, hjammed, _⟩ := exec_holds (m := t₀)
    (Core.holds_interruptSequence V false vector (s := t₀.core))
  have hpoll : m.logged.stepMachine V = t.pollImmediate.pollInterrupts := hstep
  obtain rfl : m.stepEvents V = es := by
    have hbus : (m.logged.stepMachine V).bus = t.bus := by rw [hpoll]; rfl
    rw [stepEvents, hbus, hes.log, hlog, List.nil_append]
  refine ⟨t.pollImmediate, hpoll, ?_, ?_, hes.paired, ?_, ?_, ?_⟩
  · exact hes.pins.trans (by rw [hpins]; rfl)
  · exact hes.cycles.trans (by rw [hcycles]; rfl)
  · exact hes.pendingNmi.trans hnmi
  · exact hes.pendingIrq.trans hirq
  · rw [← hcore]
    rcases hkind with h | h <;> rw [h] <;> exact ⟨hi, hi, hjammed⟩

/-- The execution of an instruction: the opcode fetch, then its policy. -/
private theorem beforePoll_instruction (hjammed : m.cpu.jammed = false)
    (hnmi : m.cpu.pendingNmi = false) (hirq : m.cpu.pendingIrq = false) :
    ∃ t, m.BeforePoll V t := by
  let f := (m.logged.pollImmediate.exec Policy.fetch).2
  let t := (f.exec ((instr m.opcode).execute V)).2
  have hopcode : (m.logged.pollImmediate.exec Policy.fetch).1 = m.opcode := m.opcode_logged
  have hpoll : m.logged.stepMachine V = t.pollInterrupts := by
    rw [stepMachine_idle V (m := m.logged) hjammed hnmi hirq]
    simp only [executeInstruction, hopcode, dispatch_eq]
    rfl
  obtain ⟨es, hes⟩ : ∃ es, Grows es m.logged.pollImmediate f := grows_exec _ _
  obtain ⟨fs, hfs⟩ : ∃ fs, Grows fs f t := grows_exec _ _
  have hgrows : Grows (es ++ fs) m.logged.pollImmediate t := hes.trans hfs
  have hevents : m.stepEvents V = es ++ fs := by
    have hbus : (m.logged.stepMachine V).bus = t.bus := by rw [hpoll]; rfl
    rw [stepEvents, hbus, hgrows.log]
    rfl
  rw [← hevents] at hgrows
  have hfetched : f.core.regs.i = m.cpu.regs.i ∧ f.core.jammed = m.cpu.jammed ∧
      f.core.pollI = m.cpu.regs.i := by
    refine exec_holds (m := m.logged.pollImmediate) (p := Policy.fetch)
      (Q := fun _ s =>
        s.regs.i = m.cpu.regs.i ∧ s.jammed = m.cpu.jammed ∧ s.pollI = m.cpu.regs.i) ?_
    simp [Policy.fetch, core, logged, pollImmediate]
  have hkind : m.stepKind = .instruction m.opcode := by
    simp [stepKind, hjammed, hnmi, hirq]
  refine ⟨t, hpoll, hgrows.pins, hgrows.cycles, hgrows.paired, ?_, ?_, ?_⟩
  · exact hgrows.pendingNmi.trans hnmi
  · exact hgrows.pendingIrq.trans (hirq.trans (by simp [hirq]))
  · have hexec : Core.Executed (instr m.opcode) f.core t.core :=
      exec_holds (m := f) (Core.holds_execute V (instr m.opcode) f.core)
    obtain ⟨hfi, hfjammed, hfpollI⟩ := hfetched
    rw [hkind]
    exact
      { jammed := hexec.jammed.trans (by rw [hfjammed]; rfl)
        pollI := hexec.pollI.trans (by rw [hfpollI]; rfl)
        break_sets := hexec.break_sets
        keeps_set := fun hclear hset => hexec.keeps_set hclear (hfi.trans hset) }

/-- Every step of a processor that is not jammed ends in a poll. -/
theorem exists_beforePoll (hjammed : m.cpu.jammed = false) : ∃ t, m.BeforePoll V t := by
  cases hnmi : m.cpu.pendingNmi with
  | true =>
    refine beforePoll_service V m true kNmiVector
      { m.logged with cpu := { m.logged.cpu with pendingNmi := false } } rfl rfl rfl rfl ?_ rfl
      (by simp [hnmi, logged]) (.inl (by simp [stepKind, hjammed, hnmi]))
    exact stepMachine_nmi V (m := m.logged) hjammed hnmi
  | false =>
    cases hirq : m.cpu.pendingIrq with
    | true =>
      refine beforePoll_service V m false kIrqVector
        { m.logged with cpu := { m.logged.cpu with pendingIrq := false } } rfl rfl rfl rfl ?_
        hnmi (by simp [hnmi]) (.inr (by simp [stepKind, hjammed, hnmi, hirq]))
      exact stepMachine_irq V (m := m.logged) hjammed hnmi hirq
    | false => exact beforePoll_instruction V m hjammed hnmi hirq

end steps

/-! ### The four kinds -/

section effects

variable (V : Variant) (m : Machine β NullHooks)

/-- **Registers, jam latch and mask.** Each step has the effect of its kind. -/
theorem step_effect : m.stepKind.Effect m.core (m.stepMachine V).core := by
  cases hjammed : m.cpu.jammed with
  | true =>
    rw [stepMachine_jammed V hjammed]
    simp only [stepKind, hjammed, if_true]
    rfl
  | false =>
    obtain ⟨t, h⟩ := exists_beforePoll V m hjammed
    have hcore : (m.stepMachine V).core = t.core := by
      rw [← stepMachine_logged, h.poll]
      exact pollInterrupts_core t.forget
    rw [hcore]
    exact h.core

/-- **Mask.** The poll that ends a step uses the mask of its kind. -/
theorem step_pollI (hjammed : m.cpu.jammed = false) :
    (m.stepMachine V).cpu.pollI = m.stepKind.mask m.cpu.regs (m.stepMachine V).cpu.regs := by
  have heffect := step_effect V m
  cases hkind : m.stepKind with
  | jammed =>
    unfold stepKind at hkind
    split_ifs at hkind with h
    simp [hjammed] at h
  | nmi | irq =>
    rw [hkind] at heffect
    exact heffect.2.1
  | instruction op =>
    rw [hkind] at heffect
    exact heffect.pollI

/-- **Jam.** A processor is jammed after a step exactly when the step's kind says so. -/
theorem step_jams : (m.stepMachine V).cpu.jammed = m.stepKind.jams := by
  have heffect := step_effect V m
  unfold stepKind at heffect ⊢
  split_ifs at heffect ⊢ with hjammed hnmi hirq
  · exact (congrArg Core.jammed heffect).trans hjammed
  · exact heffect.2.2.trans (by simpa [core, StepKind.jams] using hjammed)
  · exact heffect.2.2.trans (by simpa [core, StepKind.jams] using hjammed)
  · exact heffect.jammed.trans (by simp [core, hjammed, StepKind.jams])

/-- **Pins.** The pins follow the calls made during the step, and the poll that
ends the step consumes the NMI edge. -/
theorem step_pins (hjammed : m.cpu.jammed = false) :
    (m.stepMachine V).cpu.pins =
      { m.cpu.pins.calls (m.stepPinCalls V) with nmiEdge := false } := by
  obtain ⟨t, h⟩ := exists_beforePoll V m hjammed
  rw [← stepMachine_logged, h.poll, ← h.pins]
  exact t.forget.pollInterrupts_pins

/-- **NMI.** An NMI is pending after a step exactly when its edge was latched. -/
theorem step_pendingNmi (hjammed : m.cpu.jammed = false) :
    (m.stepMachine V).cpu.pendingNmi = (m.cpu.pins.calls (m.stepPinCalls V)).nmiEdge := by
  obtain ⟨t, h⟩ := exists_beforePoll V m hjammed
  have hpoll : (m.stepMachine V).cpu.pendingNmi = (t.cpu.pendingNmi || t.cpu.pins.nmiEdge) := by
    rw [← stepMachine_logged, h.poll]
    exact t.forget.pollInterrupts_pendingNmi
  rw [hpoll, h.pendingNmi, h.pins, Bool.false_or]

/-- **IRQ.** An IRQ is pending after a step when the level is asserted at its end and
neither an NMI edge nor the polled mask stands in its way. -/
theorem step_pendingIrq (hjammed : m.cpu.jammed = false) :
    (m.stepMachine V).cpu.pendingIrq =
      ((m.cpu.pendingNmi && m.cpu.pendingIrq) ||
        (!(m.cpu.pins.calls (m.stepPinCalls V)).nmiEdge &&
          (m.cpu.pins.calls (m.stepPinCalls V)).irqLine && !(m.stepMachine V).cpu.pollI)) := by
  obtain ⟨t, h⟩ := exists_beforePoll V m hjammed
  have hstep : m.stepMachine V = t.forget.pollInterrupts := by
    rw [← stepMachine_logged, h.poll]
    rfl
  have hpollI : t.forget.pollInterrupts.cpu.pollI = t.cpu.pollI :=
    congrArg Core.pollI (pollInterrupts_core t.forget)
  rw [hstep, hpollI, pollInterrupts_pendingIrq, ← h.pins, ← h.pendingIrq]
  rfl

/-- A jammed step is a single read, which ends in no poll. -/
theorem step_of_jammed (hjammed : m.cpu.jammed = true) :
    ∃ value, m.stepAccesses V = [.read m.cpu.regs.pc value] ∧
      BusEvent.issued (m.stepEvents V) = [.tick, .access (.read m.cpu.regs.pc value)] ∧
      (m.stepMachine V).cpu =
        { m.cpu with
          cycles := m.cpu.cycles + 1, pins := m.cpu.pins.calls (m.stepPinCalls V) } := by
  have hlogged : m.logged.stepMachine V = (m.logged.read m.cpu.regs.pc).2 :=
    stepMachine_jammed V (m := m.logged) hjammed
  obtain ⟨es, haccesses, h⟩ := grows_read m.cpu.regs.pc m.logged
  obtain rfl : m.stepEvents V = es := by
    rw [stepEvents, hlogged, h.log]
    rfl
  refine ⟨_, haccesses, by rw [h.paired, haccesses]; rfl, ?_⟩
  rw [← stepMachine_logged, hlogged]
  change _ = { m.logged.cpu with
    cycles := m.cpu.cycles + 1, pins := m.logged.cpu.pins.calls (m.stepPinCalls V) }
  rw [stepPinCalls, ← h.pins]
  rfl

/-- **Cycles.** Each access of a step takes one cycle, and nothing else takes any. -/
theorem step_cycles :
    (m.stepMachine V).cpu.cycles =
      m.cpu.cycles + BitVec.ofNat 64 (m.stepAccesses V).length := by
  cases hjammed : m.cpu.jammed with
  | true =>
    obtain ⟨value, haccesses, _, hcpu⟩ := step_of_jammed V m hjammed
    rw [hcpu, haccesses]
    rfl
  | false =>
    obtain ⟨t, h⟩ := exists_beforePoll V m hjammed
    rw [← h.cycles, ← stepMachine_logged, h.poll]
    simp only [pollInterrupts, Cpu.pollInterrupts, forget]
    split_ifs <;> rfl

/-- **Ticks.** The bus is ticked once immediately before each access, and not otherwise. -/
theorem step_issued :
    BusEvent.issued (m.stepEvents V) =
      (m.stepAccesses V).flatMap fun a => [.tick, .access a] := by
  cases hjammed : m.cpu.jammed with
  | true =>
    obtain ⟨value, haccesses, hissued, _⟩ := step_of_jammed V m hjammed
    rw [hissued, haccesses]
    rfl
  | false =>
    obtain ⟨t, h⟩ := exists_beforePoll V m hjammed
    exact h.paired

end effects

end Machine

end Mos6502
