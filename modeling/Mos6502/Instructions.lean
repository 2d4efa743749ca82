import Mos6502.Addressing
import Mos6502.Operations

/-!
# Instruction shapes

The small set of templates that combine an operation with an addressing mode. A
combination that the source's templates would not compile cannot be written here:
each shape takes an operation of its own signature and a mode that offers what
the shape asks of it.
-/

namespace Mos6502

inductive Instr
  | ReadInstr (op : ReadOp) (mode : OperandMode)
  | WriteInstr (op : WriteOp) (mode : OperandMode)
  | RmwInstr (op : RmwOp) (mode : OperandMode)
  | AccumInstr (op : RmwOp) (mode : Mode)
  | ImpliedInstr (op : ImpliedOp) (mode : Mode)
  | BranchInstr (cond : BranchOp) (mode : Mode)
  | UnstableStoreInstr (op : UnstableStoreOp) (mode : IndexedMode)
  | SpecialInstr (op : SpecialOp) (mode : Mode)
  deriving DecidableEq, Repr

/-- The addressing mode of an instruction, as the disassembler sees it. -/
def Instr.mode : Instr → Mode
  | .ReadInstr _ mode | .WriteInstr _ mode | .RmwInstr _ mode => mode.toMode
  | .UnstableStoreInstr _ mode => mode.toOperandMode.toMode
  | .AccumInstr _ mode | .ImpliedInstr _ mode | .BranchInstr _ mode | .SpecialInstr _ mode => mode

namespace Instr

/-- JAM is the only instruction that wedges the processor. -/
def jams : Instr → Bool
  | .SpecialInstr .JAM _ => true
  | _ => false

/-- RTI is the only instruction whose change of I the next poll already sees. -/
def pollsImmediately : Instr → Bool
  | .SpecialInstr .RTI _ => true
  | _ => false

def isBreak : Instr → Bool
  | .SpecialInstr .BRK _ => true
  | _ => false

/-- The instructions that may clear I. -/
def mayClearI : Instr → Bool
  | .ImpliedInstr .CLI _ | .ImpliedInstr .PLP _ | .SpecialInstr .RTI _ => true
  | _ => false

theorem eq_of_isBreak {i : Instr} (h : i.isBreak = true) : ∃ mode, i = .SpecialInstr .BRK mode := by
  cases i with
  | SpecialInstr op mode => cases op <;> first | exact ⟨mode, rfl⟩ | cases h
  | _ => cases h

theorem eq_of_jams {i : Instr} (h : i.jams = true) : ∃ mode, i = .SpecialInstr .JAM mode := by
  cases i with
  | SpecialInstr op mode => cases op <;> first | exact ⟨mode, rfl⟩ | cases h
  | _ => cases h

end Instr

open Policy

def readInstr (V : Variant) (op : ReadOp) (mode : OperandMode) : Policy Unit := do
  let addr ← mode.effective .Read
  let value ← read addr
  modifyRegs fun r => op.apply V value r

def writeInstr (op : WriteOp) (mode : OperandMode) : Policy Unit := do
  let addr ← mode.effective .Write
  let r ← regs
  write addr (op.value r)

/-- The NMOS part writes the old value back before the new one; the CMOS part
reads it a second time. -/
def rmwInstr (V : Variant) (op : RmwOp) (mode : OperandMode) : Policy Unit := do
  let addr ← mode.effective .ReadModifyWrite
  let value ← read addr
  (if V.rmwDummyWriteBack then write addr value else do
    let _ ← read addr)
  let r ← regs
  setRegs (op.apply V value r).2
  write addr (op.apply V value r).1

/-- The same operation, applied to the accumulator. -/
def accumInstr (V : Variant) (op : RmwOp) : Policy Unit := do
  let r ← regs
  let _ ← read r.pc
  modifyRegs fun r => { (op.apply V r.a r).2 with a := (op.apply V r.a r).1 }

def impliedInstr (op : ImpliedOp) : Policy Unit := do
  let r ← regs
  let _ ← read r.pc
  op.apply

/-- The end of a taken branch: a discarded read at the untaken path and, across a
page boundary, one of the target with an uncorrected high byte. -/
def takeBranch (offset : U8) : Policy Unit := do
  let r ← regs
  let source := r.pc
  let target := source + offset.signExtend 16
  let _ ← read source
  readIf (crossesPage source target) ((source &&& 0xFF00) ||| (target &&& 0x00FF))
  modifyRegs fun r => { r with pc := target }

def branchInstr (cond : BranchOp) : Policy Unit := do
  let offset ← fetch
  let r ← regs
  if cond.test r then takeBranch offset else pure ()

/-- When the index crosses a page, the stored value replaces the high byte of the
address it is stored at. -/
def unstableStoreInstr (op : UnstableStoreOp) (mode : IndexedMode) : Policy Unit := do
  let e ← mode.resolve .Write
  let r ← regs
  let stored := op.value (page e.base) r
  setRegs stored.2
  write (if crossesPage e.base e.addr then (stored.1.setWidth 16 <<< 8) ||| (e.addr &&& 0x00FF)
    else e.addr) stored.1

/-- What an opcode of this shape, operation and mode does after its own fetch. -/
def Instr.execute (V : Variant) : Instr → Policy Unit
  | .ReadInstr op mode => readInstr V op mode
  | .WriteInstr op mode => writeInstr op mode
  | .RmwInstr op mode => rmwInstr V op mode
  | .AccumInstr op _ => accumInstr V op
  | .ImpliedInstr op _ => impliedInstr op
  | .BranchInstr cond _ => branchInstr cond
  | .UnstableStoreInstr op mode => unstableStoreInstr op mode
  | .SpecialInstr op _ => op.execute V

end Mos6502
