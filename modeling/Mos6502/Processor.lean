import Mos6502.Controls
import Mos6502.CycleBudget
import Mos6502.PlainStep

/-!
# The processor as its board sees it

One level above the code: a processor whose instructions and interrupt services are atomic,
which hands its accesses to the devices on its bus a whole step at a time, and which keeps a
single note of what it will do next instead of pending flags and a polled mask. Its time is the
number of its accesses. The processor of the code refines it: whatever a host does with the
interface, and whatever the devices do with the pins, both return the same and leave the same
behind.
-/

namespace Mos6502

open Effects

/-! ### Devices -/

section devices

variable {β : Type} [BusLike β]

/-- What a bus makes of an access. -/
def BusAccess.issue (b : β) : BusAccess → Callback β Unit
  | .read addr _ =>
    let r := BusLike.read b addr
    { value := (), bus := r.bus, calls := r.calls }
  | .write addr value => BusLike.write b addr value

/-- What a bus makes of a list of accesses, each right after its tick. -/
def drive (b : β) : List BusAccess → Callback β Unit
  | [] => { value := (), bus := b }
  | a :: as =>
    let t := BusLike.tick b
    let r := a.issue t.bus
    let rest := drive r.bus as
    { value := (), bus := rest.bus, calls := t.calls ++ r.calls ++ rest.calls }

theorem drive_append (b : β) (as as' : List BusAccess) :
    (drive b (as ++ as')).bus = (drive (drive b as).bus as').bus ∧
      (drive b (as ++ as')).calls = (drive b as).calls ++ (drive (drive b as).bus as').calls := by
  induction as generalizing b with
  | nil => exact ⟨rfl, rfl⟩
  | cons a as ih =>
    obtain ⟨hbus, hcalls⟩ := ih (a.issue (BusLike.tick b).bus).bus
    refine ⟨hbus, ?_⟩
    simp only [List.cons_append, drive, hcalls, List.append_assoc]

/-- Logging changes nothing of what the devices do. -/
theorem drive_logged (b : Logged β) (as : List BusAccess) :
    (drive b as).bus.bus = (drive b.bus as).bus ∧ (drive b as).calls = (drive b.bus as).calls := by
  induction as generalizing b with
  | nil => exact ⟨rfl, rfl⟩
  | cons a as ih =>
    obtain ⟨hbus, hcalls⟩ := ih (a.issue (BusLike.tick b).bus).bus
    cases a with
    | read addr value | write addr value =>
      refine ⟨hbus, ?_⟩
      simp only [drive, hcalls]
      rfl

end devices

/-! ### The processor -/

/-- What the next step will be, as settled at the end of the last one. -/
inductive Upcoming
  | jammed
  | nmi
  | irq
  | instruction
  deriving DecidableEq, Repr

@[ext] structure Processor (β : Type) where
  arch : Arch
  bus : β
  pins : Pins
  upcoming : Upcoming
  trace : List BusAccess

/-- What a host does with a processor. -/
inductive Command
  | control (c : Control)
  | reset
  deriving DecidableEq, Repr

/-- The runs among the controls end within the fuel, before the cycle counter has come around. -/
def Control.Affordable (fuel : ℕ) : Control → Prop
  | .run budget => budget.toNat + 11 ≤ 2 ^ 64 ∧ budget.toNat ≤ fuel
  | .step | .pin _ => True

/-- The cycles that a control returned. -/
def Returned.toNat : Returned → ℕ
  | .step cycles => cycles.toNat
  | .run cycles => cycles.toNat
  | .pin => 0

namespace Processor

variable {β : Type} [BusLike β] (V : Variant) (p : Processor β)

def kind : StepKind :=
  match p.upcoming with
  | .jammed => .jammed
  | .nmi => .nmi
  | .irq => .irq
  | .instruction => .instruction (p.arch.mem p.arch.regs.pc)

def accesses : List BusAccess := p.kind.accesses V p.arch

/-- The pins at the end of the next step. -/
def polled : Pins := p.pins.calls (drive p.bus (p.accesses V)).calls

/-- What comes after the next step: an NMI whose edge was latched, before an IRQ that is not
masked. -/
def next : Upcoming :=
  if p.kind.jams then .jammed
  else if (p.polled V).nmiEdge then .nmi
  else if (p.polled V).irqLine && !p.kind.mask p.arch.regs (p.kind.effect V p.arch).regs then .irq
  else .instruction

/-- A jammed processor no longer consumes the edge of an NMI. -/
def step : Processor β where
  arch := p.kind.effect V p.arch
  bus := (drive p.bus (p.accesses V)).bus
  pins := if p.upcoming = .jammed then p.polled V else { p.polled V with nmiEdge := false }
  upcoming := p.next V
  trace := p.trace ++ p.accesses V

def reset : Processor β where
  arch := resetEffect p.arch
  bus := (drive p.bus (resetReads p.arch)).bus
  pins := { p.pins with nmiEdge := false }.calls (drive p.bus (resetReads p.arch)).calls
  upcoming := .instruction
  trace := p.trace ++ resetReads p.arch

def cycles : ℕ := p.kind.cycles V p.arch

def run (budget : ℕ) : Processor β := spend (step V) (cycles V) budget budget p

/-- A control, and the cycles that it takes. -/
def control : Control → ℕ × Processor β
  | .step => (p.cycles V, p.step V)
  | .run budget =>
    ((p.run V budget.toNat).trace.length - p.trace.length, p.run V budget.toNat)
  | .pin c => (0, { p with pins := p.pins.calls [c] })

/-- A sequence of commands, with the cycles of its controls. -/
def session (p : Processor β) : List Command → List ℕ × Processor β
  | [] => ([], p)
  | .reset :: cs => p.reset.session cs
  | .control c :: cs =>
    ((p.control V c).1 :: ((p.control V c).2.session cs).1, ((p.control V c).2.session cs).2)

theorem iterate_trace_length (k : ℕ) :
    ((step V)^[k] p).trace.length = p.trace.length + spent (step V) (cycles V) k p := by
  induction k with
  | zero => rfl
  | succ k ih =>
    rw [Function.iterate_succ_apply', step, List.length_append, ih, accesses,
      StepKind.length_accesses, spent_succ, Nat.add_assoc]
    rfl

end Processor

namespace Machine

section session

variable {β η : Type} [BusLike β] [Hooks β η] (V : Variant) (fuel : ℕ)

/-- A sequence of commands, with what its controls return. There is no result when one of the
runs needs more fuel. -/
def session (m : Machine β η) : List Command → Option (List Returned × Machine β η)
  | [] => some ([], m)
  | .reset :: cs => m.reset.session cs
  | .control c :: cs =>
    (m.control V fuel c).bind fun r => (r.2.session cs).map fun rs => (r.1 :: rs.1, rs.2)

end session

section driven

variable {β : Type} [BusLike β]

/-- The accesses lead from the one machine to the other, with what the devices made of them. -/
structure Driven (as : List BusAccess) (m m' : Machine (Logged β) NullHooks) : Prop where
  accesses : BusEvent.accesses m'.bus.log = BusEvent.accesses m.bus.log ++ as
  calls : BusEvent.pinCalls m'.bus.log = BusEvent.pinCalls m.bus.log ++ (drive m.bus.bus as).calls
  bus : m'.bus.bus = (drive m.bus.bus as).bus

theorem isFrame_driven :
    IsFrame fun m m' : Machine (Logged β) NullHooks => ∃ as, Driven as m m' where
  trans := by
    rintro m₁ m₂ m₃ ⟨as, h⟩ ⟨as', h'⟩
    obtain ⟨hbus, hcalls⟩ := drive_append m₁.bus.bus as as'
    refine ⟨as ++ as', ?_, ?_, ?_⟩
    · rw [h'.accesses, h.accesses, List.append_assoc]
    · rw [h'.calls, h.calls, hcalls, h.bus, List.append_assoc]
    · rw [h'.bus, h.bus, hbus]
  cpu m c := ⟨[], (List.append_nil _).symm, (List.append_nil _).symm, rfl⟩
  read addr m := by
    refine ⟨[.read addr (m.read addr).1], ?_, ?_, rfl⟩
    · obtain ⟨es, haccesses, hgrows⟩ := grows_read addr m
      rw [hgrows.log, BusEvent.accesses_append, haccesses]
    · have hlog : (m.read addr).2.bus.log = m.bus.log ++
          BusEvent.ofAccess (BusLike.tick m.bus.bus).calls (.read addr (m.read addr).1)
            (BusLike.read (BusLike.tick m.bus.bus).bus addr).calls := by
        simp [Machine.read, Machine.tick, absorb, Hooks.onRead, BusLike.read, BusLike.tick,
          Logged.record, BusEvent.ofAccess]
      rw [hlog, BusEvent.pinCalls_append, BusEvent.pinCalls_ofAccess]
      simp [drive, BusAccess.issue]
  write addr value m := by
    refine ⟨[.write addr value], ?_, ?_, rfl⟩
    · obtain ⟨es, haccesses, hgrows⟩ := grows_write addr value m
      rw [hgrows.log, BusEvent.accesses_append, haccesses]
    · have hlog : (m.write addr value).bus.log = m.bus.log ++
          BusEvent.ofAccess (BusLike.tick m.bus.bus).calls (.write addr value)
            (BusLike.write (BusLike.tick m.bus.bus).bus addr value).calls := by
        simp [Machine.write, Machine.tick, absorb, Hooks.onWrite, BusLike.write, BusLike.tick,
          Logged.record, BusEvent.ofAccess]
      rw [hlog, BusEvent.pinCalls_append, BusEvent.pinCalls_ofAccess]
      simp [drive, BusAccess.issue]

theorem exists_driven_reset (m : Machine (Logged β) NullHooks) : ∃ as, Driven as m m.reset := by
  rw [reset_eq]
  exact isFrame_driven.trans _ _ _ (isFrame_driven.cpu m _)
    (isFrame_driven.trans _ _ _ (isFrame_driven.exec resetSequence m.cleared)
      (isFrame_driven.cpu _ _))

/-- The devices see the accesses of a step. -/
theorem stepMachine_driven (V : Variant) (m : Machine β NullHooks) :
    (m.stepMachine V).bus = (drive m.bus (m.stepAccesses V)).bus ∧
      m.stepPinCalls V = (drive m.bus (m.stepAccesses V)).calls := by
  obtain ⟨as, h⟩ := isFrame_driven.stepMachine V m.logged
  have has : m.stepAccesses V = as := h.accesses
  rw [has, ← stepMachine_logged]
  exact ⟨h.bus, h.calls⟩

end driven

section reset

variable {β : Type} [PlainMemory β]

/-- The devices see the accesses of a reset. -/
theorem reset_driven (m : Machine β NullHooks) :
    m.reset.bus = (drive m.bus m.resetAccesses).bus ∧
      m.resetPinCalls = (drive m.bus m.resetAccesses).calls := by
  obtain ⟨as, h⟩ := exists_driven_reset m.logged
  have has : m.resetAccesses = as := h.accesses
  have hforget : m.reset = m.logged.reset.forget := reset_forget m.logged
  rw [has, hforget]
  exact ⟨h.bus, h.calls⟩

/-- Each access of a reset takes one cycle. -/
theorem reset_cycles (m : Machine β NullHooks) :
    m.reset.cpu.cycles = m.cpu.cycles + BitVec.ofNat 64 m.resetAccesses.length := by
  obtain ⟨es, hgrows⟩ := grows_exec resetSequence m.logged.cleared
  have haccesses : m.resetAccesses = BusEvent.accesses es := by
    rw [resetAccesses, reset_eq]
    exact congrArg BusEvent.accesses hgrows.log
  have hforget : m.reset = m.logged.reset.forget := reset_forget m.logged
  rw [haccesses, hforget, reset_eq]
  exact hgrows.cycles

end reset

variable {β : Type}

/-- What the latches of the code say about the next step. -/
def upcoming (m : Machine (Logged β) NullHooks) : Upcoming :=
  if m.cpu.jammed then .jammed
  else if m.cpu.pendingNmi then .nmi
  else if m.cpu.pendingIrq then .irq
  else .instruction

theorem upcoming_eq_jammed {m : Machine (Logged β) NullHooks} :
    m.upcoming = .jammed ↔ m.cpu.jammed = true := by
  unfold upcoming
  split_ifs <;> simp_all

variable [PlainMemory β]

/-- The processor that a machine stands for. -/
def processor (m : Machine (Logged β) NullHooks) : Processor β where
  arch := m.arch
  bus := m.bus.bus
  pins := m.cpu.pins
  upcoming := m.upcoming
  trace := m.plain.trace

theorem processor_kind (m : Machine (Logged β) NullHooks) : m.processor.kind = m.stepKind := by
  unfold Processor.kind stepKind
  simp only [processor, upcoming]
  split_ifs
  · rfl
  · rfl
  · rfl
  · rw [opcode_eq]
    rfl

/-- The machine stands for a processor, which has taken one cycle of its clock for each access. -/
structure Refines (start : U64) (m : Machine (Logged β) NullHooks) (p : Processor β) :
    Prop where
  exclusive : m.Exclusive
  processor : m.processor = p
  clock : m.cpu.cycles = start + BitVec.ofNat 64 p.trace.length

/-- A step puts the accesses of its kind on the trace. -/
theorem stepMachine_trace (V : Variant) (m : Machine (Logged β) NullHooks) :
    (m.stepMachine V).plain.trace = m.plain.trace ++ m.stepKind.accesses V m.arch := by
  unfold stepMachine stepKind
  split_ifs
  · rw [(plain_read _ m).2]
    rfl
  · rw [serviceInterrupt_plain]
    rfl
  · rw [serviceInterrupt_plain]
    rfl
  · rw [executeInstruction_plain, opcode_eq]
    exact List.append_assoc ..

theorem processor_accesses (V : Variant) (m : Machine (Logged β) NullHooks) :
    m.processor.accesses V = m.stepAccesses V := by
  rw [stepAccesses_eq, Processor.accesses, processor_kind]
  rfl

theorem processor_polled (V : Variant) (m : Machine (Logged β) NullHooks) :
    m.processor.polled V = m.cpu.pins.calls (m.stepPinCalls V) := by
  rw [Processor.polled, processor_accesses, (stepMachine_driven V m).2, (drive_logged m.bus _).2]
  rfl

namespace Refines

variable {V : Variant} {start : U64} {m : Machine (Logged β) NullHooks} {p : Processor β}

theorem pinCall (h : Refines start m p) (c : PinCall) :
    Refines start (m.pinCall c) { p with pins := p.pins.calls [c] } := by
  obtain ⟨hexclusive, rfl, hclock⟩ := h
  refine ⟨hexclusive.pinCalls [c], ?_, ?_⟩
  · cases c <;> rfl
  · cases c <;> exact hclock

/-- The counter of the code tells the cycles of the step. -/
theorem stepCycles (V : Variant) (h : Refines start m p) : m.stepCycles V = p.cycles V := by
  obtain ⟨_, rfl, _⟩ := h
  rw [stepCycles_eq, stepAccesses_eq, StepKind.length_accesses, Processor.cycles, processor_kind]
  rfl

/-- The poll at the end of a step settles the next one. -/
theorem upcoming_stepMachine (V : Variant) (hexclusive : m.Exclusive) :
    (m.stepMachine V).upcoming = m.processor.next V := by
  have hregs : (m.stepMachine V).cpu.regs = (m.stepKind.effect V m.arch).regs :=
    congrArg Arch.regs (stepMachine_arch V m)
  unfold Machine.upcoming Processor.next
  rw [processor_kind, processor_polled]
  cases hjammed : m.cpu.jammed with
  | true =>
    obtain ⟨_, _, _, hcpu⟩ := step_of_jammed V m hjammed
    rw [hcpu, stepKind_eq_jammed.mpr hjammed]
    simp only [hjammed, StepKind.jams, if_true]
  | false =>
    rw [step_jams, step_pendingNmi V m hjammed, hexclusive.step_pendingIrq V hjammed,
      step_pollI V m hjammed, hregs]
    rcases Bool.eq_false_or_eq_true (m.cpu.pins.calls (m.stepPinCalls V)).nmiEdge with hedge | hedge
    · simp only [hedge, if_true]
    · simp only [hedge, Bool.not_false, Bool.true_and]
      rfl

theorem processor_stepMachine (V : Variant) (hexclusive : m.Exclusive) :
    (m.stepMachine V).processor = m.processor.step V := by
  have hkind := processor_kind m
  obtain ⟨hbus, hcalls⟩ := stepMachine_driven V m
  ext1
  · exact (stepMachine_arch V m).trans (hkind ▸ rfl)
  · rw [Processor.step, processor_accesses]
    exact (congrArg Logged.bus hbus).trans (drive_logged m.bus _).1
  · change (m.stepMachine V).cpu.pins = if m.upcoming = .jammed then _ else _
    rw [processor_polled]
    cases hjammed : m.cpu.jammed with
    | true =>
      obtain ⟨_, _, _, hcpu⟩ := step_of_jammed V m hjammed
      rw [if_pos (upcoming_eq_jammed.mpr hjammed), hcpu]
    | false =>
      have hrunning : m.upcoming ≠ .jammed := by simp [upcoming_eq_jammed, hjammed]
      rw [if_neg hrunning, step_pins V m hjammed]
  · exact upcoming_stepMachine V hexclusive
  · exact (stepMachine_trace V m).trans (hkind ▸ rfl)

/-- **One step.** -/
theorem stepMachine (V : Variant) (h : Refines start m p) :
    Refines start (m.stepMachine V) (p.step V) := by
  obtain ⟨hexclusive, rfl, hclock⟩ := h
  refine ⟨hexclusive.stepMachine V, processor_stepMachine V hexclusive, ?_⟩
  rw [step_cycles, hclock, stepAccesses_eq, ← processor_kind, BitVec.add_assoc,
    ← BitVec.ofNat_add, ← List.length_append]
  rfl

theorem processor_reset (m : Machine (Logged β) NullHooks) :
    m.reset.processor = m.processor.reset := by
  obtain ⟨hpins, hnmi, hirq⟩ := reset_latches m
  obtain ⟨hbus, hcalls⟩ := reset_driven m
  obtain ⟨hbus', hcalls'⟩ := drive_logged m.bus (resetReads m.arch)
  have hjammed : m.reset.cpu.jammed = false := (reset_core m).2.2
  rw [resetAccesses_eq] at hbus hcalls
  have hupcoming : m.reset.upcoming = .instruction := by
    simp only [Machine.upcoming, hjammed, hnmi, hirq, Bool.false_eq_true, if_false]
  have htrace : m.reset.plain.trace = m.plain.trace ++ resetReads m.arch := by
    rw [reset_plain]
    rfl
  exact Processor.ext (reset_arch m) ((congrArg Logged.bus hbus).trans hbus')
    (by rw [Machine.processor, hpins, hcalls, hcalls']; rfl) hupcoming htrace

theorem reset (h : Refines start m p) : Refines start m.reset p.reset := by
  obtain ⟨_, rfl, hclock⟩ := h
  refine ⟨Exclusive.reset m, processor_reset m, ?_⟩
  rw [reset_cycles, hclock, resetAccesses_eq, BitVec.add_assoc, ← BitVec.ofNat_add,
    ← List.length_append]
  rfl

/-- **Runs.** The loop over a wrapping counter spends the budget. -/
theorem run (V : Variant) (h : Refines start m p) {budget : U64} {fuel : ℕ}
    (hbudget : budget.toNat + 11 ≤ 2 ^ 64) (hfuel : budget.toNat ≤ fuel) :
    ∃ r m', m.run V budget fuel = some (r, m') ∧
      r.toNat = (p.run V budget.toNat).trace.length - p.trace.length ∧
      Refines start m' (p.run V budget.toNat) := by
  obtain ⟨k, hk, hreaches, hwrap, hrun⟩ := exists_run_eq V m budget hbudget
  have hstep (m : Machine (Logged β) NullHooks) (p : Processor β) (h : Refines start m p) :=
    h.stepMachine V
  have hcost (m : Machine (Logged β) NullHooks) (p : Processor β) (h : Refines start m p) :=
    h.stepCycles V
  obtain ⟨hafter, hspent⟩ := spent_sim hstep hcost h k
  have hp : p.run V budget.toNat = (Processor.step V)^[k] p :=
    (hreaches.sim hstep hcost h).spend_eq hk
  refine ⟨_, _, by rw [hrun, if_pos (Nat.le_trans hk hfuel)], ?_, hp ▸ hafter⟩
  rw [hp, Processor.iterate_trace_length, BitVec.toNat_ofNat, Nat.mod_eq_of_lt hwrap, hspent,
    Nat.add_sub_cancel_left]

theorem control (V : Variant) (h : Refines start m p) {c : Control} {fuel : ℕ}
    (hc : c.Affordable fuel) :
    ∃ r m', m.control V fuel c = some (r, m') ∧ r.toNat = (p.control V c).1 ∧
      Refines start m' (p.control V c).2 := by
  cases c with
  | step => exact ⟨_, _, rfl, h.stepCycles V, h.stepMachine V⟩
  | run budget =>
    obtain ⟨r, m', hrun, hr, hm'⟩ := h.run V hc.1 hc.2
    exact ⟨.run r, m', by rw [Machine.control, hrun, Option.map_some], hr, hm'⟩
  | pin c => exact ⟨_, _, rfl, rfl, h.pinCall c⟩

theorem session (V : Variant) (h : Refines start m p) {cs : List Command} {fuel : ℕ}
    (hcs : ∀ c, .control c ∈ cs → c.Affordable fuel) :
    ∃ returned m', m.session V fuel cs = some (returned, m') ∧
      returned.map Returned.toNat = (p.session V cs).1 ∧ Refines start m' (p.session V cs).2 := by
  induction cs generalizing m p with
  | nil => exact ⟨[], m, rfl, rfl, h⟩
  | cons command cs ih =>
    have hrest (c : Control) (hc : .control c ∈ cs) := hcs c (List.mem_cons_of_mem _ hc)
    cases command with
    | reset => exact ih h.reset hrest
    | control c =>
      obtain ⟨r, m₁, hcontrol, hr, hm₁⟩ := h.control V (hcs c List.mem_cons_self)
      obtain ⟨returned, m', hsession, hreturned, hm'⟩ := ih hm₁ hrest
      refine ⟨r :: returned, m', ?_, by rw [List.map_cons, hr, hreturned, Processor.session], hm'⟩
      rw [Machine.session, hcontrol, Option.bind_some, hsession, Option.map_some]

end Refines

/-- Logging does not change what the commands do. -/
theorem session_forget {V : Variant} {fuel : ℕ} {cs : List Command}
    {m m' : Machine (Logged β) NullHooks} {returned : List Returned}
    (h : m.session V fuel cs = some (returned, m')) :
    m.forget.session V fuel cs = some (returned, m'.forget) := by
  induction cs generalizing m returned with
  | nil =>
    cases h
    rfl
  | cons command cs ih =>
    cases command with
    | reset =>
      rw [session, reset_forget]
      exact ih h
    | control c =>
      have hcontrol := (lockstep_forget V).control (s := m) rfl fuel c
      rw [session] at h ⊢
      obtain ⟨⟨r, m₁⟩, hc, h⟩ := Option.bind_eq_some_iff.mp h
      obtain ⟨⟨rs, m₂⟩, hrest, heq⟩ := Option.map_eq_some_iff.mp h
      cases heq
      rw [hc] at hcontrol
      generalize m.forget.control V fuel c = answer at hcontrol ⊢
      cases hcontrol with
      | @some _ answer hanswer =>
        obtain ⟨r', m₁'⟩ := answer
        obtain ⟨rfl, rfl⟩ := hanswer
        rw [Option.bind_some, ih hrest, Option.map_some]

/-- **Refinement.** On plain memory, whatever a host does with the interface of the processor and
whatever the devices on the bus do with its pins: the code returns the cycles that the processor
of the board takes, leaves the same registers, memory, devices and pins, is about to do the
same, and has made the same accesses, one in each cycle of its counter. -/
theorem session_refines (V : Variant) (m : Machine β NullHooks) (h : m.Exclusive)
    (fuel : ℕ) (cs : List Command) (hcs : ∀ c, .control c ∈ cs → c.Affordable fuel) :
    ∃ returned m', m.logged.session V fuel cs = some (returned, m') ∧
      m.session V fuel cs = some (returned, m'.forget) ∧
      returned.map Returned.toNat = (m.logged.processor.session V cs).1 ∧
      m'.processor = (m.logged.processor.session V cs).2 ∧
      m'.cpu.cycles = m.cpu.cycles + BitVec.ofNat 64 m'.processor.trace.length := by
  have hstart : Refines m.cpu.cycles m.logged m.logged.processor :=
    ⟨h, rfl, (BitVec.add_zero _).symm⟩
  obtain ⟨returned, m', hsession, hreturned, hm'⟩ := hstart.session V hcs
  exact ⟨returned, m', hsession, session_forget hsession, hreturned, hm'.processor,
    hm'.processor ▸ hm'.clock⟩

/-- CLIs that an IRQ interrupts, and a reset. -/
theorem session_refines_cli :
    ∃ returned m', (fresh {} ({ memory := fun _ => 0x58 } : FlatBus)).session Nmos6502 20
        [.control (.pin (.setIrq true)), .control .step, .control (.run 20), .reset,
          .control (.run 3)] = some (returned, m') ∧
      returned.map Returned.toNat = [0, 2, 20, 4] := by
  obtain ⟨returned, m', -, hsession, hreturned, -⟩ := session_refines Nmos6502
    (fresh {} ({ memory := fun _ => 0x58 } : FlatBus)) rfl 20
    [.control (.pin (.setIrq true)), .control .step, .control (.run 20), .reset,
      .control (.run 3)] (fun c hc => by
        simp only [List.mem_cons, Command.control.injEq, reduceCtorEq, List.not_mem_nil, or_false,
          false_or] at hc
        rcases hc with rfl | rfl | rfl | rfl
        · trivial
        · trivial
        · exact ⟨by decide, by decide⟩
        · exact ⟨by decide, by decide⟩)
  exact ⟨returned, m'.forget, hsession, hreturned.trans (by decide +kernel)⟩

end Machine

end Mos6502
