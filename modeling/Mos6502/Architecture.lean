import Mos6502.Bus
import Mos6502.Instructions

/-!
# The programmer's model

What an instruction does to the registers and to plain memory, and which accesses
it makes on the way, as functions of the state after the opcode fetch. Nothing
here runs bus cycles: this is the specification that the policies are shown to
implement.
-/

namespace Mos6502

/-- The programmer-visible state: registers and memory. -/
@[ext] structure Arch where
  regs : Registers
  mem : Memory

namespace Arch

/-- The read of `addr`, with the byte it returns. -/
def rd (a : Arch) (addr : U16) : BusAccess := .read addr (a.mem addr)

/-- The operand bytes: the two bytes after the opcode. -/
def lo (a : Arch) : U8 := a.mem a.regs.pc
def hi (a : Arch) : U8 := a.mem (a.regs.pc + 1)

/-- The little-endian word at a page-zero pointer, which wraps in page zero. -/
def zeroPageWord (a : Arch) (zp : U8) : U16 :=
  word (a.mem (zp.setWidth 16)) (a.mem ((zp + 1).setWidth 16))

def advance (a : Arch) (bytes : ℕ) : Arch :=
  { a with regs := { a.regs with pc := a.regs.pc + BitVec.ofNat 16 bytes } }

def jump (a : Arch) (target : U16) : Arch := { a with regs := { a.regs with pc := target } }

def store (a : Arch) (addr : U16) (value : U8) : Arch :=
  { a with mem := Function.update a.mem addr value }

def push (a : Arch) (value : U8) : Arch :=
  { regs := { a.regs with s := a.regs.s - 1 }
    mem := Function.update a.mem (stackAddr a.regs.s) value }

/-- The address of the byte `k` pulls away. -/
def pulled (a : Arch) (k : ℕ) : U16 := stackAddr (a.regs.s + BitVec.ofNat 8 k)

def drop (a : Arch) (k : ℕ) : Arch :=
  { a with regs := { a.regs with s := a.regs.s + BitVec.ofNat 8 k } }

end Arch

/-- The address an indexed access touches before its high byte is corrected. -/
def unfixed (base addr : U16) : U16 := word (offset addr) (page base)

/-! ### Effective addresses -/

namespace OperandMode

/-- The address before indexing. -/
def base (mode : OperandMode) (a : Arch) : U16 :=
  match mode with
  | .Immediate => a.regs.pc
  | .ZeroPage | .ZeroPageX | .ZeroPageY | .IndirectX => a.lo.setWidth 16
  | .Absolute | .AbsoluteX | .AbsoluteY => word a.lo a.hi
  | .IndirectY => a.zeroPageWord a.lo

/-- The effective address. -/
def address (mode : OperandMode) (a : Arch) : U16 :=
  match mode with
  | .Immediate | .ZeroPage | .Absolute => mode.base a
  | .ZeroPageX => (a.lo + a.regs.x).setWidth 16
  | .ZeroPageY => (a.lo + a.regs.y).setWidth 16
  | .AbsoluteX => mode.base a + a.regs.x.setWidth 16
  | .AbsoluteY | .IndirectY => mode.base a + a.regs.y.setWidth 16
  | .IndirectX => a.zeroPageWord (a.lo + a.regs.x)

/-- The modes that can cross a page. -/
def crosses : OperandMode → Bool
  | .AbsoluteX | .AbsoluteY | .IndirectY => true
  | _ => false

/-- The reads of the operand bytes. An immediate operand is read by the instruction. -/
def operandReads (mode : OperandMode) (a : Arch) : List BusAccess :=
  match mode with
  | .Immediate => []
  | .ZeroPage | .ZeroPageX | .ZeroPageY | .IndirectX | .IndirectY => [a.rd a.regs.pc]
  | .Absolute | .AbsoluteX | .AbsoluteY => [a.rd a.regs.pc, a.rd (a.regs.pc + 1)]

/-- The reads in page zero that follow: of the unindexed address, and of the pointer. -/
def pointerReads (mode : OperandMode) (a : Arch) : List BusAccess :=
  match mode with
  | .ZeroPageX | .ZeroPageY => [a.rd (a.lo.setWidth 16)]
  | .IndirectX =>
    [a.rd (a.lo.setWidth 16), a.rd ((a.lo + a.regs.x).setWidth 16),
      a.rd ((a.lo + a.regs.x + 1).setWidth 16)]
  | .IndirectY => [a.rd (a.lo.setWidth 16), a.rd ((a.lo + 1).setWidth 16)]
  | .Immediate | .ZeroPage | .Absolute | .AbsoluteX | .AbsoluteY => []

/-- Whether the dummy read at the uncorrected address is issued. -/
def paysFixup (mode : OperandMode) (A : Access) (a : Arch) : Bool :=
  mode.crosses && (A != .Read || crossesPage (mode.base a) (mode.address a))

def fixupReads (mode : OperandMode) (A : Access) (a : Arch) : List BusAccess :=
  if mode.paysFixup A a then [a.rd (unfixed (mode.base a) (mode.address a))] else []

/-- All accesses of the resolution of a mode. -/
def reads (mode : OperandMode) (A : Access) (a : Arch) : List BusAccess :=
  mode.operandReads a ++ mode.pointerReads a ++ mode.fixupReads A a

theorem write_notMem_reads (mode : OperandMode) (A : Access) (a : Arch) (addr : U16) (value : U8) :
    BusAccess.write addr value ∉ mode.reads A a := by
  have hfixup : BusAccess.write addr value ∉ mode.fixupReads A a := by
    unfold fixupReads
    split <;> simp [Arch.rd]
  cases mode <;> simpa [reads, operandReads, pointerReads, Arch.rd] using hfixup

/-- The state once the operand bytes are consumed. -/
def consume (mode : OperandMode) (a : Arch) : Arch := a.advance mode.toMode.operandBytes

end OperandMode

/-! ### Effects -/

/-- The entry to an interrupt service, a BRK's included. -/
def interruptEffect (V : Variant) (isBreak : Bool) (vector : U16) (a : Arch) : Arch :=
  let a := if isBreak then a.advance 1 else a
  let pushed := ((a.push (page a.regs.pc)).push (offset a.regs.pc)).push (a.regs.pack isBreak)
  { mem := pushed.mem
    regs := { pushed.regs with
      i := true
      d := if V.clearDecimalOnInterrupt then false else a.regs.d
      pc := word (pushed.mem vector) (pushed.mem (vector + 1)) } }

def interruptAccesses (V : Variant) (isBreak : Bool) (vector : U16) (a : Arch) :
    List BusAccess :=
  let entered := interruptEffect V isBreak vector a
  let saved := if isBreak then a.regs.pc + 1 else a.regs.pc
  (if isBreak then [a.rd a.regs.pc] else [a.rd a.regs.pc, a.rd a.regs.pc]) ++
    [.write (stackAddr a.regs.s) (page saved), .write (stackAddr (a.regs.s - 1)) (offset saved),
      .write (stackAddr (a.regs.s - 2)) (a.regs.pack isBreak), entered.rd vector,
      entered.rd (vector + 1)]

/-- A reset loads the vector and sets I; its phantom pushes move S and store nothing. -/
def resetEffect (a : Arch) : Arch :=
  { a with regs := { a.regs with
      s := a.regs.s - 3
      i := true
      pc := word (a.mem kResetVector) (a.mem (kResetVector + 1)) } }

/-- The accesses of a reset: two at the old program counter, then the walk of the stack
and the vector. -/
def resetReads (a : Arch) : List BusAccess :=
  [a.rd a.regs.pc, a.rd a.regs.pc, a.rd (stackAddr a.regs.s), a.rd (stackAddr (a.regs.s - 1)),
    a.rd (stackAddr (a.regs.s - 2)), a.rd kResetVector, a.rd (kResetVector + 1)]

/-- The register effect of the implied operations that leave the stack alone. -/
def ImpliedOp.update (op : ImpliedOp) (r : Registers) : Registers :=
  match op with
  | .TAX => { r with x := r.a }.setZN r.a
  | .TAY => { r with y := r.a }.setZN r.a
  | .TXA => { r with a := r.x }.setZN r.x
  | .TYA => { r with a := r.y }.setZN r.y
  | .TSX => { r with x := r.s }.setZN r.s
  | .TXS => { r with s := r.x }
  | .INX => { r with x := r.x + 1 }.setZN (r.x + 1)
  | .INY => { r with y := r.y + 1 }.setZN (r.y + 1)
  | .DEX => { r with x := r.x - 1 }.setZN (r.x - 1)
  | .DEY => { r with y := r.y - 1 }.setZN (r.y - 1)
  | .CLC => { r with c := false }
  | .SEC => { r with c := true }
  | .CLI => { r with i := false }
  | .SEI => { r with i := true }
  | .CLV => { r with v := false }
  | .CLD => { r with d := false }
  | .SED => { r with d := true }
  | .NOP | .PHA | .PHP | .PLA | .PLP => r

def ImpliedOp.effect (op : ImpliedOp) (a : Arch) : Arch :=
  match op with
  | .PHA => a.push a.regs.a
  | .PHP => a.push (a.regs.pack true)
  | .PLA =>
    let value := a.mem (a.pulled 1)
    { a.drop 1 with regs := { (a.drop 1).regs with a := value }.setZN value }
  | .PLP => { a.drop 1 with regs := (a.drop 1).regs.unpack (a.mem (a.pulled 1)) }
  | _ => { a with regs := op.update a.regs }

def ImpliedOp.accesses (op : ImpliedOp) (a : Arch) : List BusAccess :=
  match op with
  | .PHA => [.write (stackAddr a.regs.s) a.regs.a]
  | .PHP => [.write (stackAddr a.regs.s) (a.regs.pack true)]
  | .PLA | .PLP => [a.rd (stackAddr a.regs.s), a.rd (a.pulled 1)]
  | _ => []

/-- The memory in which JSR fetches its second operand byte: the return address is
already on the stack. -/
def jsrPushed (a : Arch) : Arch :=
  ((a.advance 1).push (page (a.regs.pc + 1))).push (offset (a.regs.pc + 1))

/-- The address of the high byte of an indirect jump's target. -/
def jmpIndHigh (V : Variant) (ptr : U16) : U16 :=
  if V.jmpIndirectPageBug then word (offset (ptr + 1)) (page ptr) else ptr + 1

def SpecialOp.effect (V : Variant) (op : SpecialOp) (a : Arch) : Arch :=
  match op with
  | .BRK => interruptEffect V true kIrqVector a
  | .JSR => (jsrPushed a).jump (word a.lo (jsrPushed a).lo)
  | .RTS => (a.drop 2).jump (word (a.mem (a.pulled 1)) (a.mem (a.pulled 2)) + 1)
  | .RTI =>
    let restored := { a.drop 3 with regs := (a.drop 3).regs.unpack (a.mem (a.pulled 1)) }
    restored.jump (word (a.mem (a.pulled 2)) (a.mem (a.pulled 3)))
  | .JMP_ABS => a.jump (word a.lo a.hi)
  | .JMP_IND =>
    a.jump (word (a.mem (word a.lo a.hi)) (a.mem (jmpIndHigh V (word a.lo a.hi))))
  | .JAM => a

def SpecialOp.accesses (V : Variant) (op : SpecialOp) (a : Arch) : List BusAccess :=
  match op with
  | .BRK => interruptAccesses V true kIrqVector a
  | .JSR =>
    [a.rd a.regs.pc, a.rd (stackAddr a.regs.s),
      .write (stackAddr a.regs.s) (page (a.regs.pc + 1)),
      .write (stackAddr (a.regs.s - 1)) (offset (a.regs.pc + 1)),
      (jsrPushed a).rd (a.regs.pc + 1)]
  | .RTS =>
    [a.rd a.regs.pc, a.rd (stackAddr a.regs.s), a.rd (a.pulled 1), a.rd (a.pulled 2),
      a.rd (word (a.mem (a.pulled 1)) (a.mem (a.pulled 2)))]
  | .RTI =>
    [a.rd a.regs.pc, a.rd (stackAddr a.regs.s), a.rd (a.pulled 1), a.rd (a.pulled 2),
      a.rd (a.pulled 3)]
  | .JMP_ABS => [a.rd a.regs.pc, a.rd (a.regs.pc + 1)]
  | .JMP_IND =>
    [a.rd a.regs.pc, a.rd (a.regs.pc + 1), a.rd (word a.lo a.hi)] ++
      (if V.jmpIndirectPageBug then [] else [a.rd (a.regs.pc + 2)]) ++
      [a.rd (jmpIndHigh V (word a.lo a.hi))]
  | .JAM =>
    a.rd a.regs.pc :: [0xFFFF, 0xFFFE, 0xFFFE, 0xFFFF, 0xFFFF, 0xFFFF, 0xFFFF, 0xFFFF, 0xFFFF].map
      a.rd

/-- The address after a branch instruction, and its target. -/
def branchTarget (a : Arch) : U16 := a.regs.pc + 1 + a.lo.signExtend 16

/-- The address an unstable store writes, and the value and registers of the store. -/
def unstableStore (op : UnstableStoreOp) (mode : IndexedMode) (a : Arch) :
    U16 × U8 × Registers :=
  let m := mode.toOperandMode
  let stored := op.value (page (m.base a)) (m.consume a).regs
  (if crossesPage (m.base a) (m.address a) then word (offset (m.address a)) stored.1
    else m.address a, stored)

namespace Instr

/-- The bytes after the opcode that an instruction consumes before its code goes on. -/
def consumed : Instr → ℕ
  | .ReadInstr _ mode | .WriteInstr _ mode | .RmwInstr _ mode => mode.toMode.operandBytes
  | .UnstableStoreInstr _ mode => mode.toOperandMode.toMode.operandBytes
  | .AccumInstr _ _ | .ImpliedInstr _ _ => 0
  | .BranchInstr _ _ => 1
  | .SpecialInstr op _ =>
    match op with
    | .JSR | .JMP_ABS | .JMP_IND => 2
    | .BRK => 1
    | .RTS | .RTI | .JAM => 0

def effect (V : Variant) (i : Instr) (a : Arch) : Arch :=
  match i with
  | .ReadInstr op mode =>
    { mode.consume a with regs := op.apply V (a.mem (mode.address a)) (mode.consume a).regs }
  | .WriteInstr op mode => (mode.consume a).store (mode.address a) (op.value a.regs)
  | .RmwInstr op mode =>
    let result := op.apply V (a.mem (mode.address a)) (mode.consume a).regs
    { regs := result.2, mem := Function.update a.mem (mode.address a) result.1 }
  | .AccumInstr op _ =>
    { a with regs := { (op.apply V a.regs.a a.regs).2 with a := (op.apply V a.regs.a a.regs).1 } }
  | .ImpliedInstr op _ => op.effect a
  | .BranchInstr cond _ => if cond.test a.regs then a.jump (branchTarget a) else a.advance 1
  | .UnstableStoreInstr op mode =>
    let s := unstableStore op mode a
    { regs := s.2.2, mem := Function.update a.mem s.1 s.2.1 }
  | .SpecialInstr op _ => op.effect V a

/-- The accesses after the opcode fetch, in order. -/
def accesses (V : Variant) (i : Instr) (a : Arch) : List BusAccess :=
  match i with
  | .ReadInstr _ mode => mode.reads .Read a ++ [a.rd (mode.address a)]
  | .WriteInstr op mode =>
    mode.reads .Write a ++ [.write (mode.address a) (op.value a.regs)]
  | .RmwInstr op mode =>
    let ea := mode.address a
    mode.reads .ReadModifyWrite a ++
      [a.rd ea, if V.rmwDummyWriteBack then .write ea (a.mem ea) else a.rd ea,
        .write ea (op.apply V (a.mem ea) (mode.consume a).regs).1]
  | .AccumInstr _ _ => [a.rd a.regs.pc]
  | .ImpliedInstr op _ => a.rd a.regs.pc :: op.accesses a
  | .BranchInstr cond _ =>
    if cond.test a.regs then
      [a.rd a.regs.pc, a.rd (a.regs.pc + 1)] ++
        (if crossesPage (a.regs.pc + 1) (branchTarget a) then
          [a.rd (unfixed (a.regs.pc + 1) (branchTarget a))] else [])
    else [a.rd a.regs.pc]
  | .UnstableStoreInstr op mode =>
    let s := unstableStore op mode a
    mode.toOperandMode.reads .Write a ++ [.write s.1 s.2.1]
  | .SpecialInstr op _ => op.accesses V a

end Instr

end Mos6502
