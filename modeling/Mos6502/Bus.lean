import Mos6502.Types
import Mathlib.Logic.Function.Basic

/-!
# Buses

The processor is generic over its bus. A bus may hold a reference to the
processor and drive its interrupt pins from inside a callback, so every bus
operation also returns the pin calls that it made while it ran.
-/

namespace Mos6502

/-- A call on one of the interrupt pins of the processor. -/
inductive PinCall
  | setNmi (asserted : Bool)
  | setIrq (asserted : Bool)
  deriving DecidableEq, Repr

/-- The members of the processor that the pin calls write. -/
structure Pins where
  nmiLine : Bool := false
  nmiEdge : Bool := false
  irqLine : Bool := false
  deriving DecidableEq, Repr

namespace Pins

/-- NMI is edge triggered: only a transition to asserted is latched. -/
def setNmi (p : Pins) (asserted : Bool) : Pins :=
  { p with
    nmiEdge := if asserted && !p.nmiLine then true else p.nmiEdge
    nmiLine := asserted }

/-- IRQ is level sensed. -/
def setIrq (p : Pins) (asserted : Bool) : Pins := { p with irqLine := asserted }

def call (p : Pins) : PinCall → Pins
  | .setNmi asserted => p.setNmi asserted
  | .setIrq asserted => p.setIrq asserted

/-- The effect of a sequence of pin calls. -/
def calls (p : Pins) (cs : List PinCall) : Pins := cs.foldl call p

@[simp] theorem calls_nil (p : Pins) : p.calls [] = p := rfl

@[simp] theorem calls_cons (p : Pins) (c : PinCall) (cs : List PinCall) :
    p.calls (c :: cs) = (p.call c).calls cs := rfl

@[simp] theorem calls_append (p : Pins) (cs ds : List PinCall) :
    p.calls (cs ++ ds) = (p.calls cs).calls ds := List.foldl_append

/-- Whether a call is a not-asserted-to-asserted transition of the NMI pin at `line`. -/
def isRise (line : Bool) : PinCall → Bool
  | .setNmi asserted => asserted && !line
  | .setIrq _ => false

/-- The number of NMI transitions that a sequence of calls makes. -/
def rises (p : Pins) : List PinCall → ℕ
  | [] => 0
  | c :: cs => (isRise p.nmiLine c).toNat + rises (p.call c) cs

/-- The number of NMI transitions that find the edge latch clear. -/
def latchings (p : Pins) : List PinCall → ℕ
  | [] => 0
  | c :: cs => (isRise p.nmiLine c && !p.nmiEdge).toNat + latchings (p.call c) cs

theorem call_nmiEdge (p : Pins) (c : PinCall) :
    (p.call c).nmiEdge = (isRise p.nmiLine c || p.nmiEdge) := by
  cases c with
  | setIrq asserted => rfl
  | setNmi asserted =>
    simp only [call, setNmi, isRise]
    cases asserted && !p.nmiLine <;> rfl

/-- The edge latch is set once a transition has happened. -/
theorem calls_nmiEdge (p : Pins) (cs : List PinCall) :
    (p.calls cs).nmiEdge = true ↔ p.nmiEdge = true ∨ 0 < p.rises cs := by
  induction cs generalizing p with
  | nil => simp [rises]
  | cons c cs ih =>
    rw [calls_cons, ih, call_nmiEdge, rises]
    cases isRise p.nmiLine c <;> simp

/-- Each transition that finds the edge latch clear sets it. -/
theorem latchings_add (p : Pins) (cs : List PinCall) :
    p.nmiEdge.toNat + p.latchings cs = (p.calls cs).nmiEdge.toNat := by
  induction cs generalizing p with
  | nil => rfl
  | cons c cs ih =>
    rw [calls_cons, ← ih, latchings, call_nmiEdge]
    cases isRise p.nmiLine c <;> cases p.nmiEdge <;> simp

theorem rises_of_not_mem (p : Pins) {cs : List PinCall}
    (h : ∀ asserted, PinCall.setNmi asserted ∉ cs) : p.rises cs = 0 := by
  induction cs generalizing p with
  | nil => rfl
  | cons c cs ih =>
    rw [rises, ih (p.call c) fun asserted hmem => h asserted (List.mem_cons_of_mem _ hmem)]
    cases c with
    | setIrq asserted => rfl
    | setNmi asserted => exact absurd List.mem_cons_self (h asserted)

/-- A pin that is asserted, and not released, stays so and makes no transition. -/
theorem held (p : Pins) {cs : List PinCall} (hline : p.nmiLine = true)
    (hheld : PinCall.setNmi false ∉ cs) : p.rises cs = 0 ∧ (p.calls cs).nmiLine = true := by
  induction cs generalizing p with
  | nil => exact ⟨rfl, hline⟩
  | cons c cs ih =>
    have hcall : (p.call c).nmiLine = true := by
      rcases c with (_ | _) | _
      · simp at hheld
      · rfl
      · exact hline
    obtain ⟨hrises, hafter⟩ := ih (p.call c) hcall fun h => hheld (List.mem_cons_of_mem _ h)
    refine ⟨?_, hafter⟩
    rw [rises, hrises]
    cases c <;> simp [isRise, hline]

/-- A transition that is not released leaves the pin asserted. -/
theorem asserted_of_rise (p : Pins) {cs : List PinCall} (hrise : 0 < p.rises cs)
    (hheld : PinCall.setNmi false ∉ cs) : (p.calls cs).nmiLine = true := by
  induction cs generalizing p with
  | nil => simp [rises] at hrise
  | cons c cs ih =>
    have htail : PinCall.setNmi false ∉ cs := fun h => hheld (List.mem_cons_of_mem _ h)
    rw [rises] at hrise
    cases hc : isRise p.nmiLine c with
    | false =>
      rw [hc] at hrise
      exact ih (p.call c) (by simpa using hrise) htail
    | true =>
      refine (held (p.call c) ?_ htail).2
      cases c with
      | setIrq asserted => cases hc
      | setNmi asserted => exact (Bool.and_eq_true_iff.mp hc).1

end Pins

/-- What a bus operation gives back: its value, the bus after it, and the pin
calls it made on the processor while it ran. -/
structure Callback (β α : Type) where
  value : α
  bus : β
  calls : List PinCall := []

/-- The bus concept: `tick` is called once per bus cycle, immediately before the
access it belongs to. -/
class BusLike (β : Type) where
  read : β → U16 → Callback β U8
  write : β → U16 → U8 → Callback β Unit
  tick : β → Callback β Unit

abbrev Memory := U16 → U8

/-- Flat 64 KiB memory, which counts its own cycles and makes no pin calls. -/
structure FlatBus where
  memory : Memory := fun _ => 0
  cycles : U64 := 0

/-- The rest of the loop that loads a test image, from byte `k` on. The index is truncated
to sixteen bits. -/
def FlatBus.loadFrom (addr : U16) : ℕ → List U8 → Memory → Memory
  | _, [], mem => mem
  | k, byte :: data, mem =>
    loadFrom addr (k + 1) data (Function.update mem (BitVec.ofNat 16 (addr.toNat + k)) byte)

def FlatBus.load (b : FlatBus) (addr : U16) (data : List U8) : FlatBus :=
  { b with memory := FlatBus.loadFrom addr 0 data b.memory }

/-- A byte stored through the bus's index operator, which consumes no cycle. -/
def FlatBus.poke (b : FlatBus) (addr : U16) (byte : U8) : FlatBus :=
  { b with memory := Function.update b.memory addr byte }

def FlatBus.setVector (b : FlatBus) (vector target : U16) : FlatBus :=
  (b.poke vector (offset target)).poke (vector + 1) (page target)

def FlatBus.resetCycles (b : FlatBus) : FlatBus := { b with cycles := 0 }

/-- A bus that never moves the interrupt pins. -/
class SilentBus (β : Type) [BusLike β] : Prop where
  read_calls (b : β) (addr : U16) : (BusLike.read b addr).calls = []
  write_calls (b : β) (addr : U16) (data : U8) : (BusLike.write b addr data).calls = []
  tick_calls (b : β) : (BusLike.tick b).calls = []

/-- A bus that behaves as plain memory: a read returns the byte last written and
changes no byte, and a tick changes no byte. It may still keep further state and
drive the interrupt pins. -/
class PlainMemory (β : Type) extends BusLike β where
  memory : β → Memory
  value_read (b : β) (addr : U16) : (read b addr).value = memory b addr
  memory_read (b : β) (addr : U16) : memory (read b addr).bus = memory b
  memory_write (b : β) (addr : U16) (data : U8) :
    memory (write b addr data).bus = Function.update (memory b) addr data
  memory_tick (b : β) : memory (tick b).bus = memory b

attribute [simp] PlainMemory.value_read PlainMemory.memory_read PlainMemory.memory_write
  PlainMemory.memory_tick

instance : PlainMemory FlatBus where
  read b addr := { value := b.memory addr, bus := b }
  write b addr data :=
    { value := (), bus := { b with memory := Function.update b.memory addr data } }
  tick b := { value := (), bus := { b with cycles := b.cycles + 1 } }
  memory := FlatBus.memory
  value_read _ _ := rfl
  memory_read _ _ := rfl
  memory_write _ _ _ := rfl
  memory_tick _ := rfl

instance : SilentBus FlatBus where
  read_calls _ _ := rfl
  write_calls _ _ _ := rfl
  tick_calls _ := rfl

/-- One access of the processor to its bus. -/
inductive BusAccess
  | read (addr : U16) (value : U8)
  | write (addr : U16) (value : U8)
  deriving DecidableEq, Repr

/-- What crosses the boundary between the processor and its bus. -/
inductive BusEvent
  | tick
  | access (a : BusAccess)
  | pin (c : PinCall)
  deriving DecidableEq, Repr

namespace BusEvent

def access? : BusEvent → Option BusAccess
  | .access a => some a
  | _ => none

def pin? : BusEvent → Option PinCall
  | .pin c => some c
  | _ => none

/-- The accesses of an event log, in order. -/
def accesses (es : List BusEvent) : List BusAccess := es.filterMap access?

/-- The pin calls of an event log, in order. -/
def pinCalls (es : List BusEvent) : List PinCall := es.filterMap pin?

/-- An event log without its pin calls: the ticks and accesses the processor issued. -/
def issued (es : List BusEvent) : List BusEvent := es.filter fun e => e.pin?.isNone

@[simp] theorem accesses_append (es fs : List BusEvent) :
    accesses (es ++ fs) = accesses es ++ accesses fs := List.filterMap_append

@[simp] theorem pinCalls_append (es fs : List BusEvent) :
    pinCalls (es ++ fs) = pinCalls es ++ pinCalls fs := List.filterMap_append

@[simp] theorem issued_append (es fs : List BusEvent) :
    issued (es ++ fs) = issued es ++ issued fs := List.filter_append ..

@[simp] theorem accesses_pins (cs : List PinCall) : accesses (cs.map .pin) = [] := by
  induction cs with
  | nil => rfl
  | cons c cs ih => simp [accesses, access?]

@[simp] theorem pinCalls_pins (cs : List PinCall) : pinCalls (cs.map .pin) = cs := by
  induction cs with
  | nil => rfl
  | cons c cs ih => simpa [pinCalls, pin?] using ih

@[simp] theorem issued_pins (cs : List PinCall) : issued (cs.map .pin) = [] := by
  induction cs with
  | nil => rfl
  | cons c cs ih => simp [issued, pin?]

/-- The events of one access: a tick, then the access, each with its pin calls. -/
def ofAccess (tickCalls : List PinCall) (a : BusAccess) (accessCalls : List PinCall) :
    List BusEvent := .tick :: (tickCalls.map .pin ++ .access a :: accessCalls.map .pin)

variable (cs ds : List PinCall) (a : BusAccess)

@[simp] theorem accesses_ofAccess : accesses (ofAccess cs a ds) = [a] := by
  change accesses ([.tick] ++ (cs.map .pin ++ ([.access a] ++ ds.map .pin))) = _
  simp only [accesses_append, accesses_pins]
  rfl

@[simp] theorem pinCalls_ofAccess : pinCalls (ofAccess cs a ds) = cs ++ ds := by
  change pinCalls ([.tick] ++ (cs.map .pin ++ ([.access a] ++ ds.map .pin))) = _
  simp only [pinCalls_append, pinCalls_pins]
  rfl

@[simp] theorem issued_ofAccess : issued (ofAccess cs a ds) = [.tick, .access a] := by
  change issued ([.tick] ++ (cs.map .pin ++ ([.access a] ++ ds.map .pin))) = _
  simp only [issued_append, issued_pins]
  rfl

end BusEvent

/-- A bus together with the log of everything that crossed it. -/
structure Logged (β : Type) where
  bus : β
  log : List BusEvent := []

/-- Extend the log of a bus by an event and the pin calls made during it. -/
def Logged.record {α β : Type} (b : Logged β) (e : BusEvent) (r : Callback β α) :
    Callback (Logged β) α :=
  { value := r.value
    bus := { bus := r.bus, log := b.log ++ e :: r.calls.map .pin }
    calls := r.calls }

instance {β : Type} [BusLike β] : BusLike (Logged β) where
  read b addr :=
    let r := BusLike.read b.bus addr
    b.record (.access (.read addr r.value)) r
  write b addr data := b.record (.access (.write addr data)) (BusLike.write b.bus addr data)
  tick b := b.record .tick (BusLike.tick b.bus)

instance {β : Type} [PlainMemory β] : PlainMemory (Logged β) where
  memory b := PlainMemory.memory b.bus
  value_read b addr := PlainMemory.value_read b.bus addr
  memory_read b addr := PlainMemory.memory_read b.bus addr
  memory_write b addr data := PlainMemory.memory_write b.bus addr data
  memory_tick b := PlainMemory.memory_tick b.bus

end Mos6502
