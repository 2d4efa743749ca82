import Mos6502.Bus
import Mos6502.InstructionTable

/-!
# The disassembler

Built from the same table as the dispatcher, by position. The peek of the source
is any callable, so here it may have effects of its own: `M` is the identity for a
debugger's view of memory and a state monad for a peek that goes through the bus.
-/

namespace Mos6502

def instructionLength (opcode : U8) : ℕ := 1 + (row opcode).instr.mode.operandBytes

/-- The format `%02X`. -/
def hexByte (b : U8) : String :=
  String.ofList [(Nat.digitChar (b.toNat / 16)).toUpper, (Nat.digitChar (b.toNat % 16)).toUpper]

/-- The format `%04X`. -/
def hexWord (w : U16) : String := hexByte (page w) ++ hexByte (offset w)

/-- The operand text: empty for an implied operand. -/
def operandText (mode : Mode) (pc : U16) (lo hi : U8) : String :=
  match mode with
  | .Implied => ""
  | .Accumulator => "A"
  | .Immediate => "#$" ++ hexByte lo
  | .ZeroPage => "$" ++ hexByte lo
  | .ZeroPageX => "$" ++ hexByte lo ++ ",X"
  | .ZeroPageY => "$" ++ hexByte lo ++ ",Y"
  | .Absolute => "$" ++ hexWord (word lo hi)
  | .AbsoluteX => "$" ++ hexWord (word lo hi) ++ ",X"
  | .AbsoluteY => "$" ++ hexWord (word lo hi) ++ ",Y"
  | .Indirect => "($" ++ hexWord (word lo hi) ++ ")"
  | .IndirectX => "($" ++ hexByte lo ++ ",X)"
  | .IndirectY => "($" ++ hexByte lo ++ "),Y"
  | .Relative => "$" ++ hexWord (pc + 2 + lo.signExtend 16)

/-- The text of the instruction at `pc`, and the address that follows it. -/
def disassemble {M : Type → Type} [Monad M] (peek : U16 → M U8) (pc : U16) :
    M (String × U16) := do
  let opcode ← peek pc
  let info := row opcode
  let mode := info.instr.mode
  let lo ← (if mode.operandBytes ≥ 1 then peek (pc + 1) else pure 0)
  let hi ← (if mode.operandBytes ≥ 2 then peek (pc + 2) else pure 0)
  let next := pc + 1 + BitVec.ofNat 16 mode.operandBytes
  let operand := operandText mode pc lo hi
  pure (if operand = "" then info.mnemonic else info.mnemonic ++ " " ++ operand, next)

/-- The disassembler over a memory that a debugger looks at without side effects. -/
def disassembleMemory (mem : Memory) (pc : U16) : String × U16 :=
  Id.run (disassemble (fun addr => pure (mem addr)) pc)

example : disassembleMemory (fun a => if a = 0x040A then 0xD0 else 0xFC) 0x040A =
    ("BNE $0408", 0x040C) := by decide +kernel

end Mos6502
