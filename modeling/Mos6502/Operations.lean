import Mos6502.Primitives

/-!
# Operations

The "what" of an instruction, independent of the "where". Operations are grouped
by signature: the register-level ones are functions of the register file, and
those that own bus cycles are policies.
-/

namespace Mos6502

/-! ### Helpers -/

def compare (reg value : U8) (r : Registers) : Registers :=
  let diff : U16 := reg.setWidth 16 - value.setWidth 16
  { r with c := decide (reg ≥ value) }.setZN (diff.setWidth 8)

/-- NMOS decimal ADC: the low nibble is corrected first, N and V are taken from
the half-corrected high nibble, and Z comes from the plain binary sum. -/
def addWithCarry (V : Variant) (value : U8) (r : Registers) : Registers :=
  let a := r.a
  let carry : U16 := if r.c then 1 else 0
  let bin : U16 := a.setWidth 16 + value.setWidth 16 + carry
  if V.decimalMode && r.d then
    let lo₀ : U16 := (a &&& 0x0F).setWidth 16 + (value &&& 0x0F).setWidth 16 + carry
    let hi₀ : U16 := (a >>> 4).setWidth 16 + (value >>> 4).setWidth 16
    let lo := if lo₀ > 0x09 then lo₀ + 0x06 else lo₀
    let hi := if lo₀ > 0x09 then hi₀ + 1 else hi₀
    let hiAdjusted := if hi > 0x09 then hi + 0x06 else hi
    { r with
      z := (bin &&& 0xFF) == 0
      n := ((hi <<< 4) &&& 0x80) != 0
      v := ((~~~(a ^^^ value) &&& (a ^^^ (hi <<< 4).setWidth 8)) &&& 0x80) != 0
      c := decide (hiAdjusted > 0x0F)
      a := ((hiAdjusted <<< 4) ||| (lo &&& 0x0F)).setWidth 8 }
  else
    { r with
      c := decide (bin > 0xFF)
      v := ((~~~(a ^^^ value) &&& (a ^^^ bin.setWidth 8)) &&& 0x80) != 0
      a := bin.setWidth 8 }.setZN (bin.setWidth 8)

/-- NMOS decimal SBC: every flag comes from the binary subtraction; only the
stored result is BCD-corrected. -/
def subtractWithBorrow (V : Variant) (value : U8) (r : Registers) : Registers :=
  let a := r.a
  let carry : U16 := if r.c then 1 else 0
  let bin : U16 := a.setWidth 16 + (~~~value).setWidth 16 + carry
  let flagged :=
    { r with
      c := decide (bin > 0xFF)
      v := (((a ^^^ value) &&& (a ^^^ bin.setWidth 8)) &&& 0x80) != 0 }.setZN (bin.setWidth 8)
  if V.decimalMode && r.d then
    -- The nibble differences are signed: bit 4 of a negative one is set.
    let lo₀ : U32 := (a &&& 0x0F).setWidth 32 - (value &&& 0x0F).setWidth 32 -
      (1 - carry).setWidth 32
    let hi₀ : U32 := (a >>> 4).setWidth 32 - (value >>> 4).setWidth 32
    let lo := if (lo₀ &&& 0x10) != 0 then lo₀ - 0x06 else lo₀
    let hi₁ := if (lo₀ &&& 0x10) != 0 then hi₀ - 1 else hi₀
    let hi := if (hi₁ &&& 0x10) != 0 then hi₁ - 0x06 else hi₁
    { flagged with a := (((hi &&& 0x0F) <<< 4) ||| (lo &&& 0x0F)).setWidth 8 }
  else
    { flagged with a := bin.setWidth 8 }

/-! ### Read operations -/

inductive ReadOp
  | LDA | LDX | LDY | ORA | AND | EOR | ADC | SBC | CMP | CPX | CPY | BIT
  | LAX | NOP_R | ANC | ALR | ARR | SBX | LAS | ANE | LXA
  deriving DecidableEq, Repr

/-- Decimal-mode `ARR`: the flags come from the unadjusted rotate, and each
nibble is then corrected independently. -/
def arrDecimal (t result : U8) (r : Registers) : Registers :=
  let lowNibble := t &&& 0x0F
  let highNibble := t >>> 4
  let adjusted :=
    if lowNibble + (lowNibble &&& 1) > 5 then (result &&& 0xF0) ||| ((result + 6) &&& 0x0F)
    else result
  let carry := decide (highNibble + (highNibble &&& 1) > 5)
  { r with
    n := r.c
    z := result == 0
    v := ((t ^^^ result) &&& 0x40) != 0
    c := carry
    a := if carry then adjusted + 0x60 else adjusted }

def ReadOp.apply (V : Variant) (op : ReadOp) (value : U8) (r : Registers) : Registers :=
  match op with
  | .LDA => { r with a := value }.setZN value
  | .LDX => { r with x := value }.setZN value
  | .LDY => { r with y := value }.setZN value
  | .ORA => { r with a := r.a ||| value }.setZN (r.a ||| value)
  | .AND => { r with a := r.a &&& value }.setZN (r.a &&& value)
  | .EOR => { r with a := r.a ^^^ value }.setZN (r.a ^^^ value)
  | .ADC => addWithCarry V value r
  | .SBC => subtractWithBorrow V value r
  | .CMP => compare r.a value r
  | .CPX => compare r.x value r
  | .CPY => compare r.y value r
  | .BIT =>
    { r with
      z := (r.a &&& value) == 0
      n := (value &&& 0x80) != 0
      v := (value &&& 0x40) != 0 }
  | .LAX => { r with a := value, x := value }.setZN value
  | .NOP_R => r
  | .ANC =>
    let r := { r with a := r.a &&& value }.setZN (r.a &&& value)
    { r with c := r.n }
  | .ALR =>
    let t := r.a &&& value
    { r with c := (t &&& 0x01) != 0, a := t >>> 1 }.setZN (t >>> 1)
  | .ARR =>
    let t := r.a &&& value
    let result := (t >>> 1) ||| (if r.c then 0x80 else 0)
    if V.decimalMode && r.d then arrDecimal t result r
    else
      let r := { r with a := result }.setZN result
      { r with
        c := ((result >>> 6) &&& 1) != 0
        v := (((result >>> 6) ^^^ (result >>> 5)) &&& 1) != 0 }
  | .SBX =>
    let lhs := r.a &&& r.x
    { r with c := decide (lhs ≥ value), x := lhs - value }.setZN (lhs - value)
  | .LAS =>
    let result := value &&& r.s
    { r with a := result, x := result, s := result }.setZN result
  -- The "magic" constant of the unstable operations is 0xEE.
  | .ANE =>
    let result := (r.a ||| 0xEE) &&& r.x &&& value
    { r with a := result }.setZN result
  | .LXA =>
    let result := (r.a ||| 0xEE) &&& value
    { r with a := result, x := result }.setZN result

/-! ### Write operations -/

inductive WriteOp
  | STA | STX | STY | SAX
  deriving DecidableEq, Repr

def WriteOp.value (op : WriteOp) (r : Registers) : U8 :=
  match op with
  | .STA => r.a
  | .STX => r.x
  | .STY => r.y
  | .SAX => r.a &&& r.x

inductive UnstableStoreOp
  | SHA | SHX | SHY | TAS
  deriving DecidableEq, Repr

/-- The value of an unstable store is masked by the high byte of the base address
plus one; `TAS` also loads the stack pointer. -/
def UnstableStoreOp.value (op : UnstableStoreOp) (baseHigh : U8) (r : Registers) :
    U8 × Registers :=
  match op with
  | .SHA => (r.a &&& r.x &&& (baseHigh + 1), r)
  | .SHX => (r.x &&& (baseHigh + 1), r)
  | .SHY => (r.y &&& (baseHigh + 1), r)
  | .TAS =>
    let s := r.a &&& r.x
    (s &&& (baseHigh + 1), { r with s })

/-! ### Read-modify-write operations -/

inductive RmwOp
  | ASL | LSR | ROL | ROR | INC | DEC | SLO | RLA | SRE | RRA | DCP | ISC
  deriving DecidableEq, Repr

namespace Rmw

def asl (value : U8) (r : Registers) : U8 × Registers :=
  let result := value <<< 1
  (result, { r with c := (value &&& 0x80) != 0 }.setZN result)

def lsr (value : U8) (r : Registers) : U8 × Registers :=
  let result := value >>> 1
  (result, { r with c := (value &&& 0x01) != 0 }.setZN result)

def rol (value : U8) (r : Registers) : U8 × Registers :=
  let result := (value <<< 1) ||| (if r.c then 1 else 0)
  (result, { r with c := (value &&& 0x80) != 0 }.setZN result)

def ror (value : U8) (r : Registers) : U8 × Registers :=
  let result := (value >>> 1) ||| (if r.c then 0x80 else 0)
  (result, { r with c := (value &&& 0x01) != 0 }.setZN result)

end Rmw

def RmwOp.apply (V : Variant) (op : RmwOp) (value : U8) (r : Registers) : U8 × Registers :=
  match op with
  | .ASL => Rmw.asl value r
  | .LSR => Rmw.lsr value r
  | .ROL => Rmw.rol value r
  | .ROR => Rmw.ror value r
  | .INC => (value + 1, r.setZN (value + 1))
  | .DEC => (value - 1, r.setZN (value - 1))
  | .SLO =>
    let (result, r) := Rmw.asl value r
    (result, { r with a := r.a ||| result }.setZN (r.a ||| result))
  | .RLA =>
    let (result, r) := Rmw.rol value r
    (result, { r with a := r.a &&& result }.setZN (r.a &&& result))
  | .SRE =>
    let (result, r) := Rmw.lsr value r
    (result, { r with a := r.a ^^^ result }.setZN (r.a ^^^ result))
  | .RRA =>
    let (result, r) := Rmw.ror value r
    (result, addWithCarry V result r)
  | .DCP => (value - 1, compare r.a (value - 1) r)
  | .ISC => (value + 1, subtractWithBorrow V (value + 1) r)

/-! ### Implied operations -/

inductive ImpliedOp
  | TAX | TAY | TXA | TYA | TSX | TXS | INX | INY | DEX | DEY
  | CLC | SEC | CLI | SEI | CLV | CLD | SED | NOP
  | PHA | PHP | PLA | PLP
  deriving DecidableEq, Repr

open Policy in
def ImpliedOp.apply : ImpliedOp → Policy Unit
  | .TAX => modifyRegs fun r => { r with x := r.a }.setZN r.a
  | .TAY => modifyRegs fun r => { r with y := r.a }.setZN r.a
  | .TXA => modifyRegs fun r => { r with a := r.x }.setZN r.x
  | .TYA => modifyRegs fun r => { r with a := r.y }.setZN r.y
  | .TSX => modifyRegs fun r => { r with x := r.s }.setZN r.s
  | .TXS => modifyRegs fun r => { r with s := r.x }
  | .INX => modifyRegs fun r => { r with x := r.x + 1 }.setZN (r.x + 1)
  | .INY => modifyRegs fun r => { r with y := r.y + 1 }.setZN (r.y + 1)
  | .DEX => modifyRegs fun r => { r with x := r.x - 1 }.setZN (r.x - 1)
  | .DEY => modifyRegs fun r => { r with y := r.y - 1 }.setZN (r.y - 1)
  | .CLC => modifyRegs fun r => { r with c := false }
  | .SEC => modifyRegs fun r => { r with c := true }
  | .CLI => modifyRegs fun r => { r with i := false }
  | .SEI => modifyRegs fun r => { r with i := true }
  | .CLV => modifyRegs fun r => { r with v := false }
  | .CLD => modifyRegs fun r => { r with d := false }
  | .SED => modifyRegs fun r => { r with d := true }
  | .NOP => pure ()
  | .PHA => do
    let r ← regs
    push r.a
  | .PHP => do
    let r ← regs
    push (r.pack true)
  | .PLA => do
    let _ ← peekStack
    let value ← pull
    modifyRegs fun r => { r with a := value }.setZN value
  | .PLP => do
    let _ ← peekStack
    let p ← pull
    modifyRegs fun r => r.unpack p

/-! ### Conditions -/

inductive BranchOp
  | BPL | BMI | BVC | BVS | BCC | BCS | BNE | BEQ
  deriving DecidableEq, Repr

def BranchOp.test (op : BranchOp) (r : Registers) : Bool :=
  match op with
  | .BPL => !r.n
  | .BMI => r.n
  | .BVC => !r.v
  | .BVS => r.v
  | .BCC => !r.c
  | .BCS => r.c
  | .BNE => !r.z
  | .BEQ => r.z

/-! ### Special operations

These own their bus cycles outright. -/

inductive SpecialOp
  | BRK | JSR | RTS | RTI | JMP_ABS | JMP_IND | JAM
  deriving DecidableEq, Repr

namespace Special

open Policy

def brk (V : Variant) : Policy Unit := interruptSequence V true kIrqVector

/-- JSR pushes the address of its last operand byte between the two operand fetches. -/
def jsr : Policy Unit := do
  let lo ← fetch
  let _ ← peekStack
  let r ← regs
  push (page r.pc)
  push (offset r.pc)
  let hi ← fetch
  modifyRegs fun r => { r with pc := word lo hi }

def rts : Policy Unit := do
  let r ← regs
  let _ ← read r.pc
  let _ ← peekStack
  let lo ← pull
  let hi ← pull
  modifyRegs fun r => { r with pc := word lo hi }
  -- This read and the increment undo JSR's off-by-one.
  let r ← regs
  let _ ← read r.pc
  modifyRegs fun r => { r with pc := r.pc + 1 }

def rti : Policy Unit := do
  let r ← regs
  let _ ← read r.pc
  let _ ← peekStack
  let p ← pull
  modifyRegs fun r => r.unpack p
  let lo ← pull
  let hi ← pull
  modifyRegs fun r => { r with pc := word lo hi }
  pollImmediate

def jmpAbs : Policy Unit := do
  let target ← fetchWord
  modifyRegs fun r => { r with pc := target }

/-- The NMOS part fetches the high byte from the pointer's own page; the CMOS fix
costs a cycle. -/
def jmpInd (V : Variant) : Policy Unit := do
  let ptr ← fetchWord
  let lo ← read ptr
  let r ← regs
  readIf (!V.jmpIndirectPageBug) r.pc
  let hi ← read (if V.jmpIndirectPageBug then (ptr &&& 0xFF00) ||| ((ptr + 1) &&& 0x00FF)
    else ptr + 1)
  modifyRegs fun r => { r with pc := word lo hi }

/-- Opcodes that wedge the chip until reset, over an eleven-cycle sequence. -/
def jam : Policy Unit := do
  let r ← regs
  let _ ← read r.pc
  let _ ← read 0xFFFF
  let _ ← read 0xFFFE
  let _ ← read 0xFFFE
  let _ ← read 0xFFFF
  let _ ← read 0xFFFF
  let _ ← read 0xFFFF
  let _ ← read 0xFFFF
  let _ ← read 0xFFFF
  let _ ← read 0xFFFF
  Policy.jam

end Special

def SpecialOp.execute (V : Variant) : SpecialOp → Policy Unit
  | .BRK => Special.brk V
  | .JSR => Special.jsr
  | .RTS => Special.rts
  | .RTI => Special.rti
  | .JMP_ABS => Special.jmpAbs
  | .JMP_IND => Special.jmpInd V
  | .JAM => Special.jam

/-! ### What the operations leave alone -/

section frame

variable (V : Variant) (value : U8) (r : Registers)

theorem addWithCarry_keeps :
    ∃ a c v z n, addWithCarry V value r = { r with a, c, v, z, n } := by
  unfold addWithCarry
  extract_lets
  split <;> exact ⟨_, _, _, _, _, rfl⟩

theorem subtractWithBorrow_keeps :
    ∃ a c v z n, subtractWithBorrow V value r = { r with a, c, v, z, n } := by
  unfold subtractWithBorrow
  extract_lets
  split <;> exact ⟨_, _, _, _, _, rfl⟩

/-- A read operation leaves the program counter, D and I alone, and only `LAS`
loads the stack pointer. -/
theorem ReadOp.apply_keeps (op : ReadOp) :
    ∃ a x y s c v z n, op.apply V value r = { r with a, x, y, s, c, v, z, n } ∧
      (op ≠ .LAS → s = r.s) := by
  cases op with
  | LAS => exact ⟨_, _, _, _, _, _, _, _, rfl, fun h => absurd rfl h⟩
  | ADC =>
    obtain ⟨a, c, v, z, n, h⟩ := addWithCarry_keeps V value r
    exact ⟨_, _, _, _, _, _, _, _, h, fun _ => rfl⟩
  | SBC =>
    obtain ⟨a, c, v, z, n, h⟩ := subtractWithBorrow_keeps V value r
    exact ⟨_, _, _, _, _, _, _, _, h, fun _ => rfl⟩
  | ARR =>
    simp only [ReadOp.apply]
    split <;> exact ⟨_, _, _, _, _, _, _, _, rfl, fun _ => rfl⟩
  | _ => exact ⟨_, _, _, _, _, _, _, _, rfl, fun _ => rfl⟩

/-- A read-modify-write operation changes at most the accumulator and N, V, Z, C. -/
theorem RmwOp.apply_keeps (op : RmwOp) :
    ∃ a c v z n, (op.apply V value r).2 = { r with a, c, v, z, n } := by
  cases op with
  | RRA =>
    obtain ⟨a, c, v, z, n, h⟩ := addWithCarry_keeps V (Rmw.ror value r).1 (Rmw.ror value r).2
    exact ⟨_, _, _, _, _, h⟩
  | ISC => exact subtractWithBorrow_keeps V (value + 1) r
  | _ => exact ⟨_, _, _, _, _, rfl⟩

/-- An unstable store changes at most the stack pointer, and only `TAS` does. -/
theorem UnstableStoreOp.value_keeps (op : UnstableStoreOp) (baseHigh : U8) :
    ∃ s, (op.value baseHigh r).2 = { r with s } ∧ (op ≠ .TAS → s = r.s) := by
  cases op with
  | TAS => exact ⟨_, rfl, fun h => absurd rfl h⟩
  | _ => exact ⟨_, rfl, fun _ => rfl⟩

end frame

end Mos6502
