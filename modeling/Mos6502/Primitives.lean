import Mos6502.Effects.Program
import Mos6502.Registers

/-!
# The primitives that policies drive

Operations, addressing modes and instruction shapes are written against the
processor's public primitives and nothing else: its registers, `read` and
`write`, `jam` and `pollImmediate`. They are therefore programs over these
calls, which any processor can run.
-/

namespace Mos6502

open Effects

/-- The calls a policy can make on the processor that runs it. -/
inductive CpuCall
  | regs
  | setRegs (r : Registers)
  | read (addr : U16)
  | write (addr : U16) (value : U8)
  | jam
  | pollImmediate

/-- The answer to each call. -/
@[reducible] def CpuCall.Result : CpuCall → Type
  | .regs => Registers
  | .read _ => U8
  | .setRegs _ | .write _ _ | .jam | .pollImmediate => Unit

/-- A policy: a program over the processor's primitives. -/
abbrev Policy (α : Type) := Program CpuCall.Result α

namespace Policy

def regs : Policy Registers := Program.perform CpuCall.regs
def setRegs (r : Registers) : Policy Unit := Program.perform (CpuCall.setRegs r)
def read (addr : U16) : Policy U8 := Program.perform (CpuCall.read addr)
def write (addr : U16) (value : U8) : Policy Unit := Program.perform (CpuCall.write addr value)
def jam : Policy Unit := Program.perform CpuCall.jam
def pollImmediate : Policy Unit := Program.perform CpuCall.pollImmediate

def modifyRegs (f : Registers → Registers) : Policy Unit := do
  let r ← regs
  setRegs (f r)

/-- A read whose value is discarded, issued only when `condition` holds. -/
def readIf (condition : Bool) (addr : U16) : Policy Unit :=
  if condition then do let _ ← read addr else pure ()

def fetch : Policy U8 := do
  let r ← regs
  setRegs { r with pc := r.pc + 1 }
  read r.pc

def fetchWord : Policy U16 := do
  let lo ← fetch
  let hi ← fetch
  pure (word lo hi)

/-- Pointer fetches inside page zero wrap at $FF - $00, never $0100. -/
def readZeroPageWord (addr : U8) : Policy U16 := do
  let lo ← read (addr.setWidth 16)
  let hi ← read ((addr + 1).setWidth 16)
  pure (word lo hi)

def push (value : U8) : Policy Unit := do
  let r ← regs
  write (stackAddr r.s) value
  modifyRegs fun r => { r with s := r.s - 1 }

def pull : Policy U8 := do
  modifyRegs fun r => { r with s := r.s + 1 }
  let r ← regs
  read (stackAddr r.s)

/-- The discarded stack access that precedes a pull. -/
def peekStack : Policy U8 := do
  let r ← regs
  read (stackAddr r.s)

/-- Shared by BRK, IRQ and NMI. `isBreak` selects both the pushed B flag and
whether the padding byte after the opcode is consumed. -/
def interruptSequence (V : Variant) (isBreak : Bool) (vector : U16) : Policy Unit := do
  -- BRK's padding byte is fetched; an interrupt discards two reads at the current PC.
  let _ ← (if isBreak then fetch else do
    let r ← regs
    let _ ← read r.pc
    read r.pc)
  let r ← regs
  push (page r.pc)
  push (offset r.pc)
  let r ← regs
  push (r.pack isBreak)
  modifyRegs fun r =>
    { r with i := true, d := if V.clearDecimalOnInterrupt then false else r.d }
  let lo ← read vector
  let hi ← read (vector + 1)
  modifyRegs fun r => { r with pc := word lo hi }

section run

variable {σ : Type} (h : Program.Handler CpuCall.Result σ) (m : σ)

@[simp] theorem run_regs : Program.run h regs m = h .regs m := rfl

@[simp] theorem run_setRegs (r : Registers) : Program.run h (setRegs r) m = h (.setRegs r) m := rfl

@[simp] theorem run_read (addr : U16) : Program.run h (read addr) m = h (.read addr) m := rfl

@[simp] theorem run_write (addr : U16) (value : U8) :
    Program.run h (write addr value) m = h (.write addr value) m := rfl

@[simp] theorem run_jam : Program.run h jam m = h .jam m := rfl

@[simp] theorem run_pollImmediate : Program.run h pollImmediate m = h .pollImmediate m := rfl

end run

end Policy

end Mos6502
