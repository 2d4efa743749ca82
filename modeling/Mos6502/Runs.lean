import Mos6502.Effects.Orbit
import Mos6502.StepSpec

/-!
# Runs

A run alternates between the host, which may move the interrupt pins and reset the
processor, and steps of the processor, during which the bus may move the pins. The
host's schedule is an arbitrary sequence, so what holds of every run holds of every
interleaving of pin changes and steps.
-/

namespace Mos6502

open Effects

/-- What the host may do between two steps. -/
inductive HostCall
  | pin (c : PinCall)
  | reset
  deriving DecidableEq, Repr

namespace Machine

variable {β : Type}

/-- A freshly constructed processor on a bus, with any registers. -/
def fresh (regs : Registers) (bus : β) : Machine β NullHooks :=
  { cpu := { regs }, bus, hooks := {} }

/-- A processor at the start of the reset sequence. -/
def cleared (m : Machine β NullHooks) : Machine β NullHooks :=
  { m with cpu := { m.cpu with
      jammed := false
      pendingNmi := false
      pendingIrq := false
      pins := { m.cpu.pins with nmiEdge := false } } }

theorem reset_eq [BusLike β] (m : Machine β NullHooks) :
    m.reset = (m.cleared.exec resetSequence).2.pollImmediate := rfl

section pinCalls

variable (m : Machine β NullHooks) (cs : List PinCall)

@[simp] theorem pinCalls_core : (m.pinCalls cs).core = m.core := by rw [pinCalls_eq]; rfl

@[simp] theorem pinCalls_pins : (m.pinCalls cs).cpu.pins = m.cpu.pins.calls cs := by
  rw [pinCalls_eq]

@[simp] theorem pinCalls_pendingNmi : (m.pinCalls cs).cpu.pendingNmi = m.cpu.pendingNmi := by
  rw [pinCalls_eq]

@[simp] theorem pinCalls_pendingIrq : (m.pinCalls cs).cpu.pendingIrq = m.cpu.pendingIrq := by
  rw [pinCalls_eq]

end pinCalls

variable [BusLike β]

/-- The host's pin calls do not change what the next step is. -/
@[simp] theorem pinCalls_stepKind (m : Machine β NullHooks) (cs : List PinCall) :
    (m.pinCalls cs).stepKind = m.stepKind := by
  rw [pinCalls_eq]
  rfl

def hostCall (m : Machine β NullHooks) : HostCall → Machine β NullHooks
  | .pin c => m.pinCall c
  | .reset => m.reset

def hostCalls (m : Machine β NullHooks) (cs : List HostCall) : Machine β NullHooks :=
  cs.foldl hostCall m

@[simp] theorem hostCalls_nil (m : Machine β NullHooks) : m.hostCalls [] = m := rfl

@[simp] theorem hostCalls_cons (m : Machine β NullHooks) (c : HostCall) (cs : List HostCall) :
    m.hostCalls (c :: cs) = (m.hostCall c).hostCalls cs := rfl

/-- A host that only moves the pins changes nothing else. -/
@[simp] theorem hostCalls_pins (m : Machine β NullHooks) (cs : List PinCall) :
    m.hostCalls (cs.map .pin) = m.pinCalls cs := by
  induction cs generalizing m with
  | nil => rfl
  | cons c cs ih => exact ih (m.pinCall c)

/-- A property that the pin calls and a reset preserve survives the host. -/
theorem hostCalls_invariant {P : Machine β NullHooks → Prop}
    (hpin : ∀ m c, P m → P (m.pinCall c)) (hreset : ∀ m, P m → P m.reset)
    (cs : List HostCall) {m : Machine β NullHooks} (h : P m) : P (m.hostCalls cs) := by
  induction cs generalizing m with
  | nil => exact h
  | cons c cs ih =>
    rw [hostCalls_cons]
    cases c with
    | pin c => exact ih (hpin m c h)
    | reset => exact ih (hreset m h)

section run

variable (V : Variant) (host : ℕ → List HostCall) (m : Machine β NullHooks)

/-- The machine after `k` steps, each preceded by the host calls scheduled for it. -/
def afterSteps : ℕ → Machine β NullHooks :=
  orbit (fun k m => (m.hostCalls (host k)).stepMachine V) m

/-- The machine right before the step numbered `k`, from zero. -/
def beforeStep (k : ℕ) : Machine β NullHooks := (m.afterSteps V host k).hostCalls (host k)

@[simp] theorem afterSteps_zero : m.afterSteps V host 0 = m := rfl

theorem afterSteps_succ (k : ℕ) :
    m.afterSteps V host (k + 1) = (m.beforeStep V host k).stepMachine V := rfl

/-- A property that the host calls and a step preserve together holds along a run. -/
theorem afterSteps_invariant {P : Machine β NullHooks → Prop} (h : P m)
    (hstep : ∀ k, P (m.afterSteps V host k) → P ((m.beforeStep V host k).stepMachine V)) (k : ℕ) :
    P (m.afterSteps V host k) :=
  orbit_invariant h hstep k

end run

end Machine

end Mos6502
