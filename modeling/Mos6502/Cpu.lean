import Mos6502.Bus
import Mos6502.InstructionTable

/-!
# The processor core

Stepping is instruction-at-a-time, but every bus access is issued in hardware
order and ticks the bus. The machine is the processor's own members together with
the bus it drives and the hooks it calls back.
-/

namespace Mos6502

open Effects

/-- The members of the processor, other than its bus and its hooks. -/
structure Cpu where
  regs : Registers := {}
  cycles : U64 := 0
  jammed : Bool := false
  /-- The interrupt pins and the NMI edge latch, written by the pin calls. -/
  pins : Pins := {}
  pendingNmi : Bool := false
  pendingIrq : Bool := false
  /-- The interrupt mask that the next poll will use. -/
  pollI : Bool := true
  deriving DecidableEq, Repr

structure Machine (β η : Type) where
  cpu : Cpu
  bus : β
  hooks : η

/-- Debug instrumentation: callbacks that receive the processor by reference. -/
class Hooks (β η : Type) where
  onInstruction (pc : U16) (opcode : U8) (m : Machine β η) : Machine β η
  onRead (addr : U16) (value : U8) (m : Machine β η) : Machine β η
  onWrite (addr : U16) (value : U8) (m : Machine β η) : Machine β η
  onInterrupt (isNmi : Bool) (m : Machine β η) : Machine β η
  onJam (opcode : U8) (m : Machine β η) : Machine β η

/-- The default hooks, which do nothing. -/
structure NullHooks where
  deriving DecidableEq, Repr

instance {β : Type} : Hooks β NullHooks where
  onInstruction _ _ m := m
  onRead _ _ m := m
  onWrite _ _ m := m
  onInterrupt _ m := m
  onJam _ m := m

namespace Cpu

/-- Samples the interrupts. A latched NMI edge wins over the IRQ level. -/
def pollInterrupts (c : Cpu) : Cpu :=
  if c.pins.nmiEdge then
    { c with pins := { c.pins with nmiEdge := false }, pendingNmi := true }
  else if c.pins.irqLine && !c.pollI then
    { c with pendingIrq := true }
  else c

end Cpu

namespace Machine

variable {β η : Type}

/-- Install what a bus callback left behind: the new bus and its pin calls. -/
def absorb {α : Type} (m : Machine β η) (r : Callback β α) : Machine β η :=
  { m with cpu := { m.cpu with pins := m.cpu.pins.calls r.calls }, bus := r.bus }

def setNmi (m : Machine β η) (asserted : Bool) : Machine β η :=
  { m with cpu := { m.cpu with pins := m.cpu.pins.setNmi asserted } }

def setIrq (m : Machine β η) (asserted : Bool) : Machine β η :=
  { m with cpu := { m.cpu with pins := m.cpu.pins.setIrq asserted } }

def pinCall (m : Machine β η) : PinCall → Machine β η
  | .setNmi asserted => m.setNmi asserted
  | .setIrq asserted => m.setIrq asserted

/-- The effect of a sequence of pin calls made by the host. -/
def pinCalls (m : Machine β η) (cs : List PinCall) : Machine β η := cs.foldl pinCall m

theorem pinCalls_eq (m : Machine β η) (cs : List PinCall) :
    m.pinCalls cs = { m with cpu := { m.cpu with pins := m.cpu.pins.calls cs } } := by
  induction cs generalizing m with
  | nil => rfl
  | cons c cs ih =>
    change (m.pinCall c).pinCalls cs = _
    rw [ih]
    cases c <;> rfl

def pollImmediate (m : Machine β η) : Machine β η :=
  { m with cpu := { m.cpu with pollI := m.cpu.regs.i } }

def pollInterrupts (m : Machine β η) : Machine β η := { m with cpu := m.cpu.pollInterrupts }

variable [BusLike β] [Hooks β η]

def tick (m : Machine β η) : Machine β η :=
  let m := { m with cpu := { m.cpu with cycles := m.cpu.cycles + 1 } }
  m.absorb (BusLike.tick m.bus)

def read (addr : U16) (m : Machine β η) : U8 × Machine β η :=
  let m := m.tick
  let r := BusLike.read m.bus addr
  (r.value, Hooks.onRead addr r.value (m.absorb r))

def write (addr : U16) (value : U8) (m : Machine β η) : Machine β η :=
  let m := m.tick
  Hooks.onWrite addr value (m.absorb (BusLike.write m.bus addr value))

def jam (m : Machine β η) : Machine β η :=
  Hooks.onJam 0 { m with cpu := { m.cpu with jammed := true } }

/-- How the processor answers the calls of the policies. -/
def handle : Program.Handler CpuCall.Result (Machine β η)
  | .regs, m => (m.cpu.regs, m)
  | .setRegs r, m => ((), { m with cpu := { m.cpu with regs := r } })
  | .read addr, m => m.read addr
  | .write addr value, m => ((), m.write addr value)
  | .jam, m => ((), m.jam)
  | .pollImmediate, m => ((), m.pollImmediate)

/-- Run a policy on the processor. -/
def exec {α : Type} (p : Policy α) (m : Machine β η) : α × Machine β η := p.run handle m

/-- The bus cycles of a reset: the three phantom stack pushes only walk the stack. -/
def resetSequence : Policy Unit := do
  let r ← Policy.regs
  let _ ← Policy.read r.pc
  let _ ← Policy.read r.pc
  let _ ← Policy.peekStack
  Policy.modifyRegs fun r => { r with s := r.s - 1 }
  let _ ← Policy.peekStack
  Policy.modifyRegs fun r => { r with s := r.s - 1 }
  let _ ← Policy.peekStack
  Policy.modifyRegs fun r => { r with s := r.s - 1 }
  Policy.modifyRegs fun r => { r with i := true }
  let lo ← Policy.read kResetVector
  let hi ← Policy.read (kResetVector + 1)
  Policy.modifyRegs fun r => { r with pc := word lo hi }

def reset (m : Machine β η) : Machine β η :=
  let m := { m with
    cpu := { m.cpu with
      jammed := false
      pendingNmi := false
      pendingIrq := false
      pins := { m.cpu.pins with nmiEdge := false } } }
  (m.exec resetSequence).2.pollImmediate

/-- The service of a pending interrupt, once its pending flag is cleared. -/
def serviceInterrupt (V : Variant) (isNmi : Bool) (vector : U16) (m : Machine β η) :
    Machine β η :=
  let m := Hooks.onInterrupt isNmi m
  (m.exec (Policy.interruptSequence V false vector)).2.pollImmediate.pollInterrupts

/-- The execution of one instruction. Latching I at its start reproduces the
one-instruction delay of CLI, SEI and PLP. -/
def executeInstruction (V : Variant) (m : Machine β η) : Machine β η :=
  let m := m.pollImmediate
  let pc := m.cpu.regs.pc
  let fetched := m.exec Policy.fetch
  let opcode := fetched.1
  let m := Hooks.onInstruction pc opcode fetched.2
  (m.exec (dispatch V opcode)).2.pollInterrupts

/-- The machine after a step. -/
def stepMachine (V : Variant) (m : Machine β η) : Machine β η :=
  if m.cpu.jammed then
    (m.read m.cpu.regs.pc).2
  else if m.cpu.pendingNmi then
    serviceInterrupt V true kNmiVector { m with cpu := { m.cpu with pendingNmi := false } }
  else if m.cpu.pendingIrq then
    serviceInterrupt V false kIrqVector { m with cpu := { m.cpu with pendingIrq := false } }
  else m.executeInstruction V

section kinds

variable (V : Variant) {m : Machine β η}

theorem stepMachine_jammed (hjammed : m.cpu.jammed = true) :
    m.stepMachine V = (m.read m.cpu.regs.pc).2 := by
  simp [stepMachine, hjammed]

theorem stepMachine_nmi (hjammed : m.cpu.jammed = false) (hnmi : m.cpu.pendingNmi = true) :
    m.stepMachine V =
      serviceInterrupt V true kNmiVector { m with cpu := { m.cpu with pendingNmi := false } } := by
  simp [stepMachine, hjammed, hnmi]

theorem stepMachine_irq (hjammed : m.cpu.jammed = false) (hnmi : m.cpu.pendingNmi = false)
    (hirq : m.cpu.pendingIrq = true) :
    m.stepMachine V =
      serviceInterrupt V false kIrqVector { m with cpu := { m.cpu with pendingIrq := false } } := by
  simp [stepMachine, hjammed, hnmi, hirq]

theorem stepMachine_idle (hjammed : m.cpu.jammed = false) (hnmi : m.cpu.pendingNmi = false)
    (hirq : m.cpu.pendingIrq = false) : m.stepMachine V = m.executeInstruction V := by
  simp [stepMachine, hjammed, hnmi, hirq]

end kinds

/-- Executes one instruction, or services a pending interrupt, and returns the
number of cycles consumed. -/
def step (V : Variant) (m : Machine β η) : U32 × Machine β η :=
  let m' := m.stepMachine V
  ((m'.cpu.cycles - m.cpu.cycles).setWidth 32, m')

/-- The loop of `run`, from the counter at its start. It makes at most `fuel` steps, and
has no result when the budget is not spent by then. -/
def runLoop (V : Variant) (start budget : U64) : ℕ → Machine β η → Option (Machine β η)
  | 0, m => if m.cpu.cycles - start < budget then none else some m
  | fuel + 1, m =>
    if m.cpu.cycles - start < budget then runLoop V start budget fuel (m.step V).2 else some m

/-- Runs until at least `budget` cycles have elapsed, and returns the actual count. -/
def run (V : Variant) (budget : U64) (fuel : ℕ) (m : Machine β η) :
    Option (U64 × Machine β η) :=
  (m.runLoop V m.cpu.cycles budget fuel).map fun m' => (m'.cpu.cycles - m.cpu.cycles, m')

end Machine

end Mos6502
