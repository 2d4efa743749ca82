import Mos6502.Cpu

/-!
# What crosses the bus

A machine on a logging bus behaves as it does on the bus itself (`stepMachine_logged`),
so the log of a step taken there is a function of the unlogged machine. On every
policy the log grows by ticks, accesses and pin calls only, each access has one
tick right before it, and the pins are those that the logged calls leave behind.
-/

namespace Mos6502

open Effects

namespace Machine

variable {β : Type}

/-- The machine on a bus that logs everything, with an empty log. -/
def logged (m : Machine β NullHooks) : Machine (Logged β) NullHooks :=
  { cpu := m.cpu, bus := { bus := m.bus }, hooks := m.hooks }

/-- The machine without the log of its bus. -/
def forget (m : Machine (Logged β) NullHooks) : Machine β NullHooks :=
  { cpu := m.cpu, bus := m.bus.bus, hooks := m.hooks }

/-- The log grew by `es`, and nothing but the pins and the cycle counter followed it. -/
structure Grows (es : List BusEvent) (m m' : Machine (Logged β) NullHooks) : Prop where
  log : m'.bus.log = m.bus.log ++ es
  pins : m'.cpu.pins = m.cpu.pins.calls (BusEvent.pinCalls es)
  cycles : m'.cpu.cycles = m.cpu.cycles + BitVec.ofNat 64 (BusEvent.accesses es).length
  paired : BusEvent.issued es = (BusEvent.accesses es).flatMap fun a => [.tick, .access a]
  pendingNmi : m'.cpu.pendingNmi = m.cpu.pendingNmi
  pendingIrq : m'.cpu.pendingIrq = m.cpu.pendingIrq

theorem Grows.refl (m : Machine (Logged β) NullHooks) : Grows [] m m where
  log := by simp
  pins := rfl
  cycles := by simp [BusEvent.accesses]
  paired := rfl
  pendingNmi := rfl
  pendingIrq := rfl

theorem Grows.trans {es fs : List BusEvent} {m₁ m₂ m₃ : Machine (Logged β) NullHooks}
    (h : Grows es m₁ m₂) (h' : Grows fs m₂ m₃) : Grows (es ++ fs) m₁ m₃ where
  log := by rw [h'.log, h.log, List.append_assoc]
  pins := by rw [h'.pins, h.pins, BusEvent.pinCalls_append, Pins.calls_append]
  cycles := by
    rw [h'.cycles, h.cycles, BusEvent.accesses_append, List.length_append, BitVec.ofNat_add,
      BitVec.add_assoc]
  paired := by
    rw [BusEvent.issued_append, h.paired, h'.paired, BusEvent.accesses_append, List.flatMap_append]
  pendingNmi := h'.pendingNmi.trans h.pendingNmi
  pendingIrq := h'.pendingIrq.trans h.pendingIrq

variable [BusLike β]

/-- Logging does not change what a policy does. -/
theorem exec_forget {α : Type} (p : Policy α) (m : Machine (Logged β) NullHooks) :
    (m.forget.exec p).1 = (m.exec p).1 ∧ (m.forget.exec p).2 = (m.exec p).2.forget := by
  have hcall : ∀ (c : CpuCall) (s : Machine (Logged β) NullHooks) (t : Machine β NullHooks),
      s.forget = t → (handle c s).1 = (handle c t).1 ∧ (handle c s).2.forget = (handle c t).2 := by
    rintro c s _ rfl
    cases c <;> exact ⟨rfl, rfl⟩
  obtain ⟨hvalue, hstate⟩ := Program.run_sim hcall p (s := m) rfl
  exact ⟨hvalue.symm, hstate.symm⟩

theorem serviceInterrupt_forget (V : Variant) (isNmi : Bool) (vector : U16)
    (m : Machine (Logged β) NullHooks) :
    m.forget.serviceInterrupt V isNmi vector = (m.serviceInterrupt V isNmi vector).forget := by
  change ((m.forget.exec _).2.pollImmediate).pollInterrupts = _
  rw [(exec_forget _ m).2]
  rfl

theorem executeInstruction_forget (V : Variant) (m : Machine (Logged β) NullHooks) :
    m.forget.executeInstruction V = (m.executeInstruction V).forget := by
  obtain ⟨hopcode, hfetched⟩ := exec_forget Policy.fetch m.pollImmediate
  change ((m.pollImmediate.forget.exec Policy.fetch).2.exec
    (dispatch V (m.pollImmediate.forget.exec Policy.fetch).1)).2.pollInterrupts = _
  rw [hopcode, hfetched, (exec_forget _ _).2]
  rfl

/-- A step on the logging bus is the step on the bus itself. -/
theorem stepMachine_forget (V : Variant) (m : Machine (Logged β) NullHooks) :
    m.forget.stepMachine V = (m.stepMachine V).forget := by
  unfold stepMachine
  have hcpu : m.forget.cpu = m.cpu := rfl
  simp only [hcpu]
  split_ifs
  · rfl
  · exact serviceInterrupt_forget V true kNmiVector
      { m with cpu := { m.cpu with pendingNmi := false } }
  · exact serviceInterrupt_forget V false kIrqVector
      { m with cpu := { m.cpu with pendingIrq := false } }
  · exact executeInstruction_forget V m

theorem reset_forget (m : Machine (Logged β) NullHooks) : m.forget.reset = m.reset.forget := by
  simp only [reset]
  have h := (exec_forget resetSequence { m with
    cpu := { m.cpu with
      jammed := false
      pendingNmi := false
      pendingIrq := false
      pins := { m.cpu.pins with nmiEdge := false } } }).2
  exact congrArg pollImmediate h

theorem stepMachine_logged (V : Variant) (m : Machine β NullHooks) :
    (m.logged.stepMachine V).forget = m.stepMachine V := (stepMachine_forget V m.logged).symm

/-- Everything that crosses the bus during a step, in order. -/
def stepEvents (V : Variant) (m : Machine β NullHooks) : List BusEvent :=
  (m.logged.stepMachine V).bus.log

/-- The bus accesses of a step, in order. -/
def stepAccesses (V : Variant) (m : Machine β NullHooks) : List BusAccess :=
  BusEvent.accesses (m.stepEvents V)

/-- The pin calls that the bus makes during a step, in order. -/
def stepPinCalls (V : Variant) (m : Machine β NullHooks) : List PinCall :=
  BusEvent.pinCalls (m.stepEvents V)

/-- The pin calls that the bus makes during a reset, in order. -/
def resetPinCalls (m : Machine β NullHooks) : List PinCall :=
  BusEvent.pinCalls m.logged.reset.bus.log

/-- One read puts its tick and its access on the log. -/
theorem grows_read (addr : U16) (m : Machine (Logged β) NullHooks) :
    ∃ es, BusEvent.accesses es = [.read addr (m.read addr).1] ∧ Grows es m (m.read addr).2 := by
  let t := BusLike.tick m.bus.bus
  let r := BusLike.read t.bus addr
  refine ⟨BusEvent.ofAccess t.calls (.read addr r.value) r.calls, by simp; rfl, ?_, ?_, ?_, ?_,
    rfl, rfl⟩
  · simp [Machine.read, Machine.tick, absorb, BusLike.read, BusLike.tick, Logged.record,
      Hooks.onRead, BusEvent.ofAccess, t, r]
  · simp [Machine.read, Machine.tick, absorb, BusLike.read, BusLike.tick, Logged.record,
      Hooks.onRead, t, r]
  · simp [Machine.read, Machine.tick, absorb, Hooks.onRead]
  · simp

theorem grows_write (addr : U16) (value : U8) (m : Machine (Logged β) NullHooks) :
    ∃ es, BusEvent.accesses es = [.write addr value] ∧ Grows es m (m.write addr value) := by
  let t := BusLike.tick m.bus.bus
  let w := BusLike.write t.bus addr value
  refine ⟨BusEvent.ofAccess t.calls (.write addr value) w.calls, by simp, ?_, ?_, ?_, ?_, rfl, rfl⟩
  · simp [Machine.write, Machine.tick, absorb, BusLike.write, BusLike.tick, Logged.record,
      Hooks.onWrite, BusEvent.ofAccess, t, w]
  · simp [Machine.write, Machine.tick, absorb, BusLike.write, BusLike.tick, Logged.record,
      Hooks.onWrite, t, w]
  · simp [Machine.write, Machine.tick, absorb, Hooks.onWrite]
  · simp

/-- A relation that each access respects, and whatever the processor does between two. -/
structure IsFrame (R : Machine β NullHooks → Machine β NullHooks → Prop) : Prop where
  trans (m₁ m₂ m₃ : Machine β NullHooks) : R m₁ m₂ → R m₂ m₃ → R m₁ m₃
  cpu (m : Machine β NullHooks) (c : Cpu) : R m { m with cpu := c }
  read (addr : U16) (m : Machine β NullHooks) : R m (m.read addr).2
  write (addr : U16) (value : U8) (m : Machine β NullHooks) : R m (m.write addr value)

namespace IsFrame

variable {R : Machine β NullHooks → Machine β NullHooks → Prop} (h : IsFrame R)
include h

theorem exec {α : Type} (p : Policy α) (m : Machine β NullHooks) : R m (m.exec p).2 := by
  refine Program.run_frame (fun m => h.cpu m m.cpu) h.trans (fun c m => ?_) p m
  cases c with
  | read addr => exact h.read addr m
  | write addr value => exact h.write addr value m
  | regs | setRegs _ | jam | pollImmediate => exact h.cpu m _

theorem serviceInterrupt (V : Variant) (isNmi : Bool) (vector : U16) (m : Machine β NullHooks) :
    R m (m.serviceInterrupt V isNmi vector) :=
  h.trans _ _ _ (h.exec (Policy.interruptSequence V false vector) m) (h.cpu _ _)

theorem executeInstruction (V : Variant) (m : Machine β NullHooks) :
    R m (m.executeInstruction V) := by
  have hfetch := h.trans _ _ _ (h.cpu m _) (h.exec Policy.fetch m.pollImmediate)
  have hexec := h.exec (dispatch V (m.pollImmediate.exec Policy.fetch).1)
    (m.pollImmediate.exec Policy.fetch).2
  exact h.trans _ _ _ (h.trans _ _ _ hfetch hexec) (h.cpu _ _)

/-- **A step** respects the relation. -/
theorem stepMachine (V : Variant) (m : Machine β NullHooks) : R m (m.stepMachine V) := by
  unfold Machine.stepMachine
  split_ifs
  · exact h.read m.cpu.regs.pc m
  · exact h.trans _ _ _ (h.cpu m _) (h.serviceInterrupt V true kNmiVector _)
  · exact h.trans _ _ _ (h.cpu m _) (h.serviceInterrupt V false kIrqVector _)
  · exact h.executeInstruction V m

end IsFrame

/-- Every policy only lets the log grow. -/
theorem grows_exec {α : Type} (p : Policy α) (m : Machine (Logged β) NullHooks) :
    ∃ es, Grows es m (m.exec p).2 := by
  refine Program.run_frame (R := fun m m' => ∃ es, Grows es m m') (fun m => ⟨[], .refl m⟩)
    ?_ ?_ p m
  · rintro m₁ m₂ m₃ ⟨es, h⟩ ⟨fs, h'⟩
    exact ⟨es ++ fs, h.trans h'⟩
  · intro c m
    cases c with
    | read addr =>
      obtain ⟨es, _, h⟩ := grows_read addr m
      exact ⟨es, h⟩
    | write addr value =>
      obtain ⟨es, _, h⟩ := grows_write addr value m
      exact ⟨es, h⟩
    | regs | setRegs _ | jam | pollImmediate =>
      exact ⟨[], by simp [handle, Machine.jam, Hooks.onJam, Machine.pollImmediate], rfl,
        by simp [handle, BusEvent.accesses, Machine.jam, Hooks.onJam, Machine.pollImmediate], rfl,
        rfl, rfl⟩

/-- A reset clears the latches, and the pins then follow the calls made while it runs. -/
theorem reset_latches (m : Machine β NullHooks) :
    m.reset.cpu.pins = { m.cpu.pins with nmiEdge := false }.calls m.resetPinCalls ∧
      m.reset.cpu.pendingNmi = false ∧ m.reset.cpu.pendingIrq = false := by
  obtain ⟨es, h⟩ := grows_exec resetSequence { m.logged with
    cpu := { m.logged.cpu with
      jammed := false
      pendingNmi := false
      pendingIrq := false
      pins := { m.logged.cpu.pins with nmiEdge := false } } }
  have hlog : m.logged.reset.bus.log = es := h.log
  have hreset : m.reset = m.logged.reset.forget := reset_forget m.logged
  rw [resetPinCalls, hlog, hreset]
  exact ⟨h.pins, h.pendingNmi, h.pendingIrq⟩

section silent

variable [SilentBus β]

/-- On a bus that never moves the pins, no pin call is put on the log. -/
theorem isFrame_silent :
    IsFrame fun m m' : Machine (Logged β) NullHooks =>
      BusEvent.pinCalls m'.bus.log = BusEvent.pinCalls m.bus.log := by
  have htick (m : Machine (Logged β) NullHooks) :
      BusEvent.pinCalls m.tick.bus.log = BusEvent.pinCalls m.bus.log := by
    simp [Machine.tick, absorb, BusLike.tick, Logged.record, SilentBus.tick_calls,
      BusEvent.pinCalls, BusEvent.pin?]
  constructor
  case trans => exact fun _ _ _ h h' => h'.trans h
  case cpu => exact fun _ _ => rfl
  case read =>
    intro addr m
    rw [← htick m]
    simp [Machine.read, absorb, Hooks.onRead, BusLike.read, Logged.record,
      SilentBus.read_calls, BusEvent.pinCalls, BusEvent.pin?]
  case write =>
    intro addr value m
    rw [← htick m]
    simp [Machine.write, absorb, Hooks.onWrite, BusLike.write, Logged.record,
      SilentBus.write_calls, BusEvent.pinCalls, BusEvent.pin?]

theorem stepPinCalls_silent (V : Variant) (m : Machine β NullHooks) : m.stepPinCalls V = [] :=
  isFrame_silent.stepMachine V m.logged

theorem resetPinCalls_silent (m : Machine β NullHooks) : m.resetPinCalls = [] :=
  isFrame_silent.exec resetSequence { m.logged with
    cpu := { m.logged.cpu with
      jammed := false
      pendingNmi := false
      pendingIrq := false
      pins := { m.logged.cpu.pins with nmiEdge := false } } }

end silent

end Machine

end Mos6502
