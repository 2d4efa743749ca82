import Mos6502.Primitives

/-!
# Addressing modes

The "where" of an instruction, independent of the "what". Each mode runs its own
bus cycles in hardware order, and the indexed ones have a different cycle profile
for each access kind.
-/

namespace Mos6502

inductive Mode
  | Implied | Accumulator | Immediate | ZeroPage | ZeroPageX | ZeroPageY
  | Absolute | AbsoluteX | AbsoluteY | Indirect | IndirectX | IndirectY | Relative
  deriving DecidableEq, Repr

def Mode.operandBytes : Mode → ℕ
  | .Implied | .Accumulator => 0
  | .Immediate | .ZeroPage | .ZeroPageX | .ZeroPageY | .IndirectX | .IndirectY | .Relative => 1
  | .Absolute | .AbsoluteX | .AbsoluteY | .Indirect => 2

/-- The modes that resolve to an effective address. -/
inductive OperandMode
  | Immediate | ZeroPage | ZeroPageX | ZeroPageY
  | Absolute | AbsoluteX | AbsoluteY | IndirectX | IndirectY
  deriving DecidableEq, Repr

def OperandMode.toMode : OperandMode → Mode
  | .Immediate => .Immediate
  | .ZeroPage => .ZeroPage
  | .ZeroPageX => .ZeroPageX
  | .ZeroPageY => .ZeroPageY
  | .Absolute => .Absolute
  | .AbsoluteX => .AbsoluteX
  | .AbsoluteY => .AbsoluteY
  | .IndirectX => .IndirectX
  | .IndirectY => .IndirectY

/-- The modes whose resolution also yields the address before indexing. -/
inductive IndexedMode
  | AbsoluteX | AbsoluteY | IndirectY
  deriving DecidableEq, Repr

def IndexedMode.toOperandMode : IndexedMode → OperandMode
  | .AbsoluteX => .AbsoluteX
  | .AbsoluteY => .AbsoluteY
  | .IndirectY => .IndirectY

/-- An indexed resolution, before and after indexing. -/
structure Effective where
  base : U16
  addr : U16
  deriving DecidableEq, Repr

open Policy

/-- Index an address. The dummy read lands on the address whose high byte has not
been corrected yet: reads issue it on a page cross, writes always. -/
def indexed (A : Access) (base : U16) (index : U8) : Policy Effective := do
  let addr := base + index.setWidth 16
  let unfixed := (base &&& 0xFF00) ||| (addr &&& 0x00FF)
  readIf (A != .Read || crossesPage base addr) unfixed
  pure { base, addr }

def zeroPageIndexed (index : Registers → U8) : Policy U16 := do
  let base ← fetch
  let _ ← read (base.setWidth 16)
  let r ← regs
  pure ((base + index r).setWidth 16)

/-- abs,X and abs,Y. -/
def absoluteIndexed (A : Access) (index : Registers → U8) : Policy Effective := do
  let base ← fetchWord
  let r ← regs
  indexed A base (index r)

/-- (zp,X): index first, then dereference. The pointer fetch wraps in page zero. -/
def indirectX : Policy U16 := do
  let zp ← fetch
  let _ ← read (zp.setWidth 16)
  let r ← regs
  readZeroPageWord (zp + r.x)

/-- (zp),Y: dereference first, then index - so it can cross a page. -/
def indirectY (A : Access) : Policy Effective := do
  let zp ← fetch
  let base ← readZeroPageWord zp
  let r ← regs
  indexed A base r.y

def IndexedMode.resolve (A : Access) : IndexedMode → Policy Effective
  | .AbsoluteX => absoluteIndexed A Registers.x
  | .AbsoluteY => absoluteIndexed A Registers.y
  | .IndirectY => indirectY A

def OperandMode.effective (A : Access) : OperandMode → Policy U16
  | .Immediate => do
    -- No cycle here: the operand fetch is the instruction's read.
    let r ← regs
    setRegs { r with pc := r.pc + 1 }
    pure r.pc
  | .ZeroPage => do
    let addr ← fetch
    pure (addr.setWidth 16)
  | .ZeroPageX => zeroPageIndexed Registers.x
  | .ZeroPageY => zeroPageIndexed Registers.y
  | .Absolute => fetchWord
  | .AbsoluteX => do
    let e ← absoluteIndexed A Registers.x
    pure e.addr
  | .AbsoluteY => do
    let e ← absoluteIndexed A Registers.y
    pure e.addr
  | .IndirectX => indirectX
  | .IndirectY => do
    let e ← indirectY A
    pure e.addr

end Mos6502
