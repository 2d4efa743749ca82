import Mos6502.Cpu

/-!
# The processor's own state under any bus

The members that no bus callback can touch are the registers, the jam latch and
the polled mask. Their behaviour is specified for arbitrary bytes on the bus, and
the specification is sound for every bus.
-/

namespace Mos6502

open Effects

/-- The members of the processor that only the processor itself writes. -/
structure Core where
  regs : Registers
  jammed : Bool
  pollI : Bool

namespace Core

/-- The calls of a policy when nothing is known about the bytes that are read. -/
def spec : Program.Spec CpuCall.Result Core
  | .regs, s, r, s' => r = s.regs ∧ s' = s
  | .setRegs r, s, _, s' => s' = { s with regs := r }
  | .read _, s, _, s' => s' = s
  | .write _ _, s, _, s' => s' = s
  | .jam, s, _, s' => s' = { s with jammed := true }
  | .pollImmediate, s, _, s' => s' = { s with pollI := s.regs.i }

/-- `Q` holds after every run of the policy, whatever bytes it reads. -/
def Holds {α : Type} (p : Policy α) (s : Core) (Q : α → Core → Prop) : Prop :=
  Program.Holds spec p s Q

section rules

variable {α γ : Type} (s : Core)

@[simp] theorem holds_pure (a : α) (Q : α → Core → Prop) : Holds (pure a) s Q ↔ Q a s := Iff.rfl

@[simp] theorem holds_bind (p : Policy α) (f : α → Policy γ) (Q : γ → Core → Prop) :
    Holds (p >>= f) s Q ↔ Holds p s fun a s' => Holds (f a) s' Q := Program.holds_bind ..

@[simp] theorem holds_regs (Q : Registers → Core → Prop) :
    Holds Policy.regs s Q ↔ Q s.regs s := by
  simp [Holds, Policy.regs, spec]

@[simp] theorem holds_setRegs (r : Registers) (Q : Unit → Core → Prop) :
    Holds (Policy.setRegs r) s Q ↔ Q () { s with regs := r } := by
  exact ⟨fun h => h () _ rfl, fun h _ _ heq => heq ▸ h⟩

@[simp] theorem holds_modifyRegs (f : Registers → Registers) (Q : Unit → Core → Prop) :
    Holds (Policy.modifyRegs f) s Q ↔ Q () { s with regs := f s.regs } := by
  simp [Policy.modifyRegs]

@[simp] theorem holds_read (addr : U16) (Q : U8 → Core → Prop) :
    Holds (Policy.read addr) s Q ↔ ∀ value, Q value s := by
  simp [Holds, Policy.read, spec]

@[simp] theorem holds_readIf (condition : Bool) (addr : U16) (Q : Unit → Core → Prop) :
    Holds (Policy.readIf condition addr) s Q ↔ Q () s := by
  cases condition <;> simp [Policy.readIf]

@[simp] theorem holds_write (addr : U16) (value : U8) (Q : Unit → Core → Prop) :
    Holds (Policy.write addr value) s Q ↔ Q () s := by
  exact ⟨fun h => h () _ rfl, fun h _ _ heq => heq ▸ h⟩

@[simp] theorem holds_jam (Q : Unit → Core → Prop) :
    Holds Policy.jam s Q ↔ Q () { s with jammed := true } := by
  exact ⟨fun h => h () _ rfl, fun h _ _ heq => heq ▸ h⟩

@[simp] theorem holds_pollImmediate (Q : Unit → Core → Prop) :
    Holds Policy.pollImmediate s Q ↔ Q () { s with pollI := s.regs.i } := by
  exact ⟨fun h => h () _ rfl, fun h _ _ heq => heq ▸ h⟩

end rules

/-- Resolving a mode moves the program counter and nothing else. -/
theorem holds_effective {A : Access} {mode : OperandMode} {s : Core} {Q : U16 → Core → Prop}
    (h : ∀ addr pc, Q addr { s with regs := { s.regs with pc } }) :
    Holds (mode.effective A) s Q := by
  cases mode <;>
    simp [OperandMode.effective, zeroPageIndexed, absoluteIndexed, indirectX, indirectY, indexed,
      Policy.fetch, Policy.fetchWord, Policy.readZeroPageWord, h]

theorem holds_resolve {A : Access} {mode : IndexedMode} {s : Core} {Q : Effective → Core → Prop}
    (h : ∀ e pc, Q e { s with regs := { s.regs with pc } }) : Holds (mode.resolve A) s Q := by
  cases mode <;>
    simp [IndexedMode.resolve, absoluteIndexed, indirectY, indexed, Policy.fetch, Policy.fetchWord,
      Policy.readZeroPageWord, h]

/-- What an instruction does to the processor's own state, whatever it reads: only
JAM jams, only RTI moves the polled mask, a BRK sets I, and I stays set unless the
instruction is one that may clear it. -/
structure Executed (i : Instr) (s s' : Core) : Prop where
  jammed : s'.jammed = (s.jammed || i.jams)
  pollI : s'.pollI = if i.pollsImmediately then s'.regs.i else s.pollI
  break_sets : i.isBreak = true → s'.regs.i = true
  keeps_set : i.mayClearI = false → s.regs.i = true → s'.regs.i = true

/-- An instruction that leaves the jam latch, the mask and I alone. -/
theorem Executed.of_regs {i : Instr} {s : Core} {r : Registers} (hjams : i.jams = false)
    (hpolls : i.pollsImmediately = false) (hbreak : i.isBreak = false) (hi : r.i = s.regs.i) :
    Executed i s { s with regs := r } where
  jammed := by simp [hjams]
  pollI := by simp [hpolls]
  break_sets h := by simp [hbreak] at h
  keeps_set _ hset := hi.trans hset

/-- What the entry to an interrupt service leaves behind: I is set, and neither the
jam latch nor the polled mask has moved. -/
theorem holds_interruptSequence (V : Variant) (isBreak : Bool) (vector : U16) {s : Core} :
    Holds (Policy.interruptSequence V isBreak vector) s fun _ s' =>
      s'.regs.i = true ∧ s'.jammed = s.jammed ∧ s'.pollI = s.pollI := by
  cases isBreak <;>
    simp [Policy.interruptSequence, Policy.push, Policy.fetch]

private theorem holds_impliedInstr (op : ImpliedOp) (mode : Mode) (s : Core) :
    Holds (impliedInstr op) s fun _ s' => Executed (.ImpliedInstr op mode) s s' := by
  cases op with
  | CLI =>
    simp [impliedInstr, ImpliedOp.apply]
    exact ⟨by simp [Instr.jams], rfl, nofun, nofun⟩
  | SEI =>
    simp [impliedInstr, ImpliedOp.apply]
    exact ⟨by simp [Instr.jams], rfl, nofun, fun _ _ => rfl⟩
  | PLP =>
    simp [impliedInstr, ImpliedOp.apply, Policy.peekStack, Policy.pull]
    exact fun _ => ⟨by simp [Instr.jams], rfl, nofun, nofun⟩
  | PLA =>
    simp [impliedInstr, ImpliedOp.apply, Policy.peekStack, Policy.pull]
    exact fun _ => .of_regs rfl rfl rfl rfl
  | _ =>
    simp [impliedInstr, ImpliedOp.apply, Policy.push]
    exact .of_regs rfl rfl rfl rfl

private theorem holds_specialInstr (V : Variant) (op : SpecialOp) (mode : Mode) (s : Core) :
    Holds (op.execute V) s fun _ s' => Executed (.SpecialInstr op mode) s s' := by
  cases op with
  | BRK =>
    refine (holds_interruptSequence V true kIrqVector).mono fun _ s' h => ?_
    obtain ⟨hi, hjammed, hpollI⟩ := h
    exact ⟨by simp [hjammed, Instr.jams], hpollI, fun _ => hi, fun _ _ => hi⟩
  | RTI =>
    simp [SpecialOp.execute, Special.rti, Policy.peekStack, Policy.pull]
    exact fun _ _ _ => ⟨by simp [Instr.jams], rfl, nofun, nofun⟩
  | JAM =>
    simp [SpecialOp.execute, Special.jam]
    exact ⟨by simp [Instr.jams], rfl, nofun, fun _ h => h⟩
  | JMP_IND =>
    simp [SpecialOp.execute, Special.jmpInd, Policy.fetchWord, Policy.fetch]
    exact fun _ _ => .of_regs rfl rfl rfl rfl
  | JSR | RTS | JMP_ABS =>
    simp [SpecialOp.execute, Special.jsr, Special.rts, Special.jmpAbs, Policy.fetchWord,
      Policy.fetch, Policy.peekStack, Policy.push, Policy.pull]
    exact fun _ _ => .of_regs rfl rfl rfl rfl

/-- Every instruction meets its core specification on every bus. -/
theorem holds_execute (V : Variant) (i : Instr) (s : Core) :
    Holds (i.execute V) s fun _ s' => Executed i s s' := by
  cases i with
  | ReadInstr op mode =>
    refine (holds_bind ..).mpr (holds_effective fun addr pc => ?_)
    simp only [holds_bind, holds_read, holds_modifyRegs]
    intro value
    obtain ⟨a, x, y, sp, c, v, z, n, h, _⟩ := op.apply_keeps V value { s.regs with pc }
    exact .of_regs rfl rfl rfl (by rw [h])
  | WriteInstr op mode =>
    refine (holds_bind ..).mpr (holds_effective fun addr pc => ?_)
    simp only [holds_bind, holds_regs, holds_write]
    exact .of_regs rfl rfl rfl rfl
  | RmwInstr op mode =>
    refine (holds_bind ..).mpr (holds_effective fun addr pc => ?_)
    have hkeeps (value : U8) : Executed (.RmwInstr op mode) s
        { s with regs := (op.apply V value { s.regs with pc }).2 } := by
      obtain ⟨a, c, v, z, n, h⟩ := op.apply_keeps V value { s.regs with pc }
      exact .of_regs rfl rfl rfl (by rw [h])
    cases V.rmwDummyWriteBack <;> simp <;> exact hkeeps
  | AccumInstr op mode =>
    simp only [Instr.execute, accumInstr, holds_bind, holds_regs, holds_read, holds_modifyRegs]
    intro _
    obtain ⟨a, c, v, z, n, h⟩ := op.apply_keeps V s.regs.a s.regs
    exact .of_regs rfl rfl rfl (by rw [h])
  | ImpliedInstr op mode => exact holds_impliedInstr op mode s
  | BranchInstr cond mode =>
    simp only [Instr.execute, branchInstr, takeBranch, Policy.fetch, holds_bind, holds_regs,
      holds_setRegs, holds_read]
    intro value
    split
    · simp only [holds_bind, holds_regs, holds_read, holds_readIf, holds_modifyRegs]
      exact fun _ => .of_regs rfl rfl rfl rfl
    · exact .of_regs rfl rfl rfl rfl
  | UnstableStoreInstr op mode =>
    refine (holds_bind ..).mpr (holds_resolve fun e pc => ?_)
    simp only [holds_bind, holds_regs, holds_setRegs, holds_write]
    obtain ⟨sp, h, _⟩ := op.value_keeps { s.regs with pc } (page e.base)
    exact .of_regs rfl rfl rfl (by rw [h])
  | SpecialInstr op mode => exact holds_specialInstr V op mode s

end Core

namespace Machine

variable {β : Type}

/-- The processor's own state in a machine. -/
def core (m : Machine β NullHooks) : Core :=
  { regs := m.cpu.regs, jammed := m.cpu.jammed, pollI := m.cpu.pollI }

theorem core_pollImmediate (m : Machine β NullHooks) :
    m.pollImmediate.core = { m.core with pollI := m.core.regs.i } := rfl

/-- The specification of the processor's own state is sound for every bus. -/
theorem exec_holds [BusLike β] {α : Type} {p : Policy α} {m : Machine β NullHooks}
    {Q : α → Core → Prop} (h : Core.Holds p m.core Q) : Q (m.exec p).1 (m.exec p).2.core := by
  refine Program.run_holds core (fun c t => ?_) h
  cases c with
  | regs => exact ⟨rfl, rfl⟩
  | read _ | setRegs _ | write _ _ | jam | pollImmediate => rfl

/-- A reset sets I and the polled mask, and lifts a jam. -/
theorem reset_core [BusLike β] (m : Machine β NullHooks) :
    m.reset.core.regs.i = true ∧ m.reset.core.pollI = true ∧ m.reset.core.jammed = false := by
  let cleared : Machine β NullHooks := { m with
    cpu := { m.cpu with
      jammed := false
      pendingNmi := false
      pendingIrq := false
      pins := { m.cpu.pins with nmiEdge := false } } }
  have hreset : m.reset = (cleared.exec resetSequence).2.pollImmediate := rfl
  have h := exec_holds (p := resetSequence) (m := cleared)
    (Q := fun _ s => s.regs.i = true ∧ s.jammed = false)
    (by simp [resetSequence, Policy.peekStack, core, cleared])
  rw [hreset, core_pollImmediate]
  exact ⟨h.1, h.1, h.2⟩

end Machine

end Mos6502
