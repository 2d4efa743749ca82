import Mos6502.Disassembler
import Mos6502.PlainStep

/-!
# The printed operand

The text of the disassembler, read back. The reader knows the assembly syntax alone: the
digits of an operand, and the punctuation around them that says how the address is made
of the digits, X, Y and memory. The table of instructions does not come into it, so the
printed operand and the operand that the processor uses are two decodings of the same
bytes.
-/

namespace Mos6502

/-! ### Reading -/

/-- An operand in assembly syntax. -/
inductive Operand
  | implied
  | accumulator
  | immediate (value : U8)
  | zeroPage (addr : U8)
  | zeroPageX (addr : U8)
  | zeroPageY (addr : U8)
  | absolute (addr : U16)
  | absoluteX (addr : U16)
  | absoluteY (addr : U16)
  | indirect (ptr : U16)
  | indirectX (zp : U8)
  | indirectY (zp : U8)
  deriving DecidableEq, Repr

def isHexDigit (c : Char) : Bool := c.isDigit || ('A' ≤ c && c ≤ 'F')

def hexDigitValue (c : Char) : ℕ := if c.isDigit then c.toNat - 48 else c.toNat - 55

def readDigits (w : ℕ) (digits : List Char) : BitVec w :=
  BitVec.ofNat w (digits.foldl (fun n c => 16 * n + hexDigitValue c) 0)

/-- The operand of digits and of what follows them, for each way that an operand starts:
two digits are a byte, and four are a word. -/
def readImmediate (digits rest : List Char) : Option Operand :=
  match digits.length, rest with
  | 2, [] => some (.immediate (readDigits 8 digits))
  | _, _ => none

def readDirect (digits rest : List Char) : Option Operand :=
  match digits.length, rest with
  | 2, [] => some (.zeroPage (readDigits 8 digits))
  | 2, [',', 'X'] => some (.zeroPageX (readDigits 8 digits))
  | 2, [',', 'Y'] => some (.zeroPageY (readDigits 8 digits))
  | 4, [] => some (.absolute (readDigits 16 digits))
  | 4, [',', 'X'] => some (.absoluteX (readDigits 16 digits))
  | 4, [',', 'Y'] => some (.absoluteY (readDigits 16 digits))
  | _, _ => none

def readIndirect (digits rest : List Char) : Option Operand :=
  match digits.length, rest with
  | 2, [',', 'X', ')'] => some (.indirectX (readDigits 8 digits))
  | 2, [')', ',', 'Y'] => some (.indirectY (readDigits 8 digits))
  | 4, [')'] => some (.indirect (readDigits 16 digits))
  | _, _ => none

def readOperand : List Char → Option Operand
  | [] => some .implied
  | ['A'] => some .accumulator
  | '#' :: '$' :: text =>
    readImmediate (text.takeWhile isHexDigit) (text.dropWhile isHexDigit)
  | '(' :: '$' :: text =>
    readIndirect (text.takeWhile isHexDigit) (text.dropWhile isHexDigit)
  | '$' :: text => readDirect (text.takeWhile isHexDigit) (text.dropWhile isHexDigit)
  | _ => none

/-- The operand of a printed instruction: what follows the mnemonic and a blank. -/
def readText (text : String) : Option Operand :=
  readOperand ((text.toList.dropWhile (· != ' ')).drop 1)

example : readText "STA ($20),Y" = some (.indirectY 0x20) := by decide +kernel

/-! ### Meaning -/

namespace Operand

/-- The address that an operand stands for, with the registers and the memory. Page zero
wraps, for the index and for the second byte of a pointer, and so does the page of the
pointer of an indirect jump. -/
def address (a : Arch) : Operand → Option U16
  | .implied | .accumulator | .immediate _ => none
  | .zeroPage addr => some (addr.setWidth 16)
  | .zeroPageX addr => some ((addr + a.regs.x).setWidth 16)
  | .zeroPageY addr => some ((addr + a.regs.y).setWidth 16)
  | .absolute addr => some addr
  | .absoluteX addr => some (addr + a.regs.x.setWidth 16)
  | .absoluteY addr => some (addr + a.regs.y.setWidth 16)
  | .indirect ptr => some (word (a.mem ptr) (a.mem (word (offset ptr + 1) (page ptr))))
  | .indirectX zp =>
    some (word (a.mem ((zp + a.regs.x).setWidth 16)) (a.mem ((zp + a.regs.x + 1).setWidth 16)))
  | .indirectY zp =>
    some (word (a.mem (zp.setWidth 16)) (a.mem ((zp + 1).setWidth 16)) + a.regs.y.setWidth 16)

/-- The operand that a mode prints. -/
@[simp] def ofMode (mode : Mode) (pc : U16) (lo hi : U8) : Operand :=
  match mode with
  | .Implied => .implied
  | .Accumulator => .accumulator
  | .Immediate => .immediate lo
  | .ZeroPage => .zeroPage lo
  | .ZeroPageX => .zeroPageX lo
  | .ZeroPageY => .zeroPageY lo
  | .Absolute => .absolute (word lo hi)
  | .AbsoluteX => .absoluteX (word lo hi)
  | .AbsoluteY => .absoluteY (word lo hi)
  | .Indirect => .indirect (word lo hi)
  | .IndirectX => .indirectX lo
  | .IndirectY => .indirectY lo
  | .Relative => .absolute (pc + 2 + lo.signExtend 16)

end Operand

/-! ### What is printed is read back -/

private def upperHex (n : ℕ) : Char := (Nat.digitChar n).toUpper

private theorem upperHex_spec : ∀ n : Fin 16,
    isHexDigit (upperHex n) = true ∧ hexDigitValue (upperHex n) = n := by
  decide

private theorem isHexDigit_upperHex {n : ℕ} (h : n < 16) : isHexDigit (upperHex n) = true :=
  (upperHex_spec ⟨n, h⟩).1

private theorem hexDigitValue_upperHex {n : ℕ} (h : n < 16) : hexDigitValue (upperHex n) = n :=
  (upperHex_spec ⟨n, h⟩).2

private theorem toList_hexByte (b : U8) :
    (hexByte b).toList = [upperHex (b.toNat / 16), upperHex (b.toNat % 16)] := by
  simp [hexByte, upperHex]

theorem isHexDigit_hexByte (b : U8) : ∀ c ∈ (hexByte b).toList, isHexDigit c = true := by
  have hb := b.isLt
  simp [toList_hexByte, isHexDigit_upperHex (show b.toNat / 16 < 16 by omega),
    isHexDigit_upperHex (show b.toNat % 16 < 16 by omega)]

theorem isHexDigit_hexWord (w : U16) : ∀ c ∈ (hexWord w).toList, isHexDigit c = true := by
  intro c hc
  rw [hexWord, String.toList_append, List.mem_append] at hc
  exact hc.elim (isHexDigit_hexByte _ c) (isHexDigit_hexByte _ c)

theorem length_hexByte (b : U8) : (hexByte b).toList.length = 2 := by
  rw [toList_hexByte]
  rfl

theorem length_hexWord (w : U16) : (hexWord w).toList.length = 4 := by
  rw [hexWord, String.toList_append, List.length_append, length_hexByte, length_hexByte]

private theorem foldl_hexByte (b : U8) (n : ℕ) :
    (hexByte b).toList.foldl (fun n c => 16 * n + hexDigitValue c) n = 256 * n + b.toNat := by
  have hb := b.isLt
  simp only [toList_hexByte, List.foldl_cons, List.foldl_nil,
    hexDigitValue_upperHex (show b.toNat / 16 < 16 by omega),
    hexDigitValue_upperHex (show b.toNat % 16 < 16 by omega)]
  omega

theorem readDigits_hexByte (b : U8) : readDigits 8 (hexByte b).toList = b := by
  rw [readDigits, foldl_hexByte, Nat.mul_zero, Nat.zero_add, BitVec.ofNat_toNat,
    BitVec.setWidth_eq]

theorem readDigits_hexWord (w : U16) : readDigits 16 (hexWord w).toList = w := by
  have hw : 256 * (page w).toNat + (offset w).toNat = w.toNat := by
    rw [toNat_page, toNat_offset]
    omega
  rw [readDigits, hexWord, String.toList_append, List.foldl_append, foldl_hexByte, foldl_hexByte,
    Nat.mul_zero, Nat.zero_add, hw, BitVec.ofNat_toNat, BitVec.setWidth_eq]

/-- A text of digits ends where the punctuation starts. -/
private theorem split_digits {digits rest : List Char} (hdigits : ∀ c ∈ digits, isHexDigit c = true)
    (hrest : rest.takeWhile isHexDigit = []) :
    (digits ++ rest).takeWhile isHexDigit = digits ∧
      (digits ++ rest).dropWhile isHexDigit = rest := by
  have hsplit := List.takeWhile_append_dropWhile (p := isHexDigit) (l := rest)
  rw [hrest, List.nil_append] at hsplit
  rw [List.takeWhile_append_of_pos hdigits, List.dropWhile_append_of_pos hdigits, hrest,
    List.append_nil, hsplit]
  exact ⟨rfl, rfl⟩

section opening

variable {digits : List Char} (rest : List Char)

private theorem readOperand_immediate (hdigits : ∀ c ∈ digits, isHexDigit c = true)
    (hrest : rest.takeWhile isHexDigit = []) :
    readOperand ('#' :: '$' :: (digits ++ rest)) = readImmediate digits rest := by
  obtain ⟨htake, hdrop⟩ := split_digits hdigits hrest
  simp only [readOperand, htake, hdrop]

private theorem readOperand_direct (hdigits : ∀ c ∈ digits, isHexDigit c = true)
    (hrest : rest.takeWhile isHexDigit = []) :
    readOperand ('$' :: (digits ++ rest)) = readDirect digits rest := by
  obtain ⟨htake, hdrop⟩ := split_digits hdigits hrest
  simp only [readOperand, htake, hdrop]

private theorem readOperand_indirect (hdigits : ∀ c ∈ digits, isHexDigit c = true)
    (hrest : rest.takeWhile isHexDigit = []) :
    readOperand ('(' :: '$' :: (digits ++ rest)) = readIndirect digits rest := by
  obtain ⟨htake, hdrop⟩ := split_digits hdigits hrest
  simp only [readOperand, htake, hdrop]

end opening

/-- **Round trip.** The operand that a mode prints is read back from its text. -/
theorem readOperand_operandText (mode : Mode) (pc : U16) (lo hi : U8) :
    readOperand (operandText mode pc lo hi).toList = some (Operand.ofMode mode pc lo hi) := by
  have hbyte := isHexDigit_hexByte lo
  have hword (w : U16) := isHexDigit_hexWord w
  have hread := readDigits_hexByte lo
  have hlength := length_hexByte lo
  cases mode with
  | Implied | Accumulator => simp [operandText, readOperand]
  | Immediate =>
    simpa [operandText, readImmediate, hlength, hread] using readOperand_immediate [] hbyte rfl
  | ZeroPage =>
    simpa [operandText, readDirect, hlength, hread] using readOperand_direct [] hbyte rfl
  | ZeroPageX =>
    simpa [operandText, readDirect, hlength, hread] using readOperand_direct [',', 'X'] hbyte rfl
  | ZeroPageY =>
    simpa [operandText, readDirect, hlength, hread] using readOperand_direct [',', 'Y'] hbyte rfl
  | IndirectX =>
    simpa [operandText, readIndirect, hlength, hread] using
      readOperand_indirect [',', 'X', ')'] hbyte rfl
  | IndirectY =>
    simpa [operandText, readIndirect, hlength, hread] using
      readOperand_indirect [')', ',', 'Y'] hbyte rfl
  | Absolute =>
    simpa [operandText, readDirect, length_hexWord, readDigits_hexWord] using
      readOperand_direct [] (hword (word lo hi)) rfl
  | AbsoluteX =>
    simpa [operandText, readDirect, length_hexWord, readDigits_hexWord] using
      readOperand_direct [',', 'X'] (hword (word lo hi)) rfl
  | AbsoluteY =>
    simpa [operandText, readDirect, length_hexWord, readDigits_hexWord] using
      readOperand_direct [',', 'Y'] (hword (word lo hi)) rfl
  | Indirect =>
    simpa [operandText, readIndirect, length_hexWord, readDigits_hexWord] using
      readOperand_indirect [')'] (hword (word lo hi)) rfl
  | Relative =>
    simpa [operandText, readDirect, length_hexWord, readDigits_hexWord] using
      readOperand_direct [] (hword (pc + 2 + lo.signExtend 16)) rfl

theorem mnemonic_ne_blank (op : U8) : ∀ c ∈ (row op).mnemonic.toList, (c != ' ') = true :=
  List.all_eq_true.mp
    (row_of_all (P := fun r => r.mnemonic.toList.all (· != ' ') = true) (by decide +kernel) op)

/-- The text is the mnemonic alone, or the mnemonic, a blank and the operand. -/
theorem disassembleMemory_text (mem : Memory) (pc : U16) :
    (disassembleMemory mem pc).1 =
      let operand := operandText (instr (mem pc)).mode pc (mem (pc + 1)) (mem (pc + 2))
      if operand = "" then (row (mem pc)).mnemonic
      else (row (mem pc)).mnemonic ++ " " ++ operand := by
  have hbytes (mode : Mode) :
      operandText mode pc (if mode.operandBytes ≥ 1 then mem (pc + 1) else 0)
          (if mode.operandBytes ≥ 2 then mem (pc + 2) else 0) =
        operandText mode pc (mem (pc + 1)) (mem (pc + 2)) := by
    cases mode <;> rfl
  rw [← hbytes]
  rfl

/-- **Reading a line.** The operand of a disassembled instruction is that of its mode and of
the two bytes after its opcode. -/
theorem readText_disassembleMemory (mem : Memory) (pc : U16) :
    readText (disassembleMemory mem pc).1 =
      some (Operand.ofMode (instr (mem pc)).mode pc (mem (pc + 1)) (mem (pc + 2))) := by
  rw [readText, disassembleMemory_text, ← readOperand_operandText]
  generalize operandText (instr (mem pc)).mode pc (mem (pc + 1)) (mem (pc + 2)) = operand
  have hmnemonic := mnemonic_ne_blank (mem pc)
  simp only
  split
  · next hempty =>
    rw [hempty, ← List.append_nil (row (mem pc)).mnemonic.toList,
      List.dropWhile_append_of_pos hmnemonic]
    rfl
  · rw [String.toList_append, String.toList_append, List.append_assoc,
      List.dropWhile_append_of_pos hmnemonic]
    rfl

/-! ### The operand that is used -/

/-- The operand that the disassembler prints for an instruction of this mode at the program
counter. -/
def Arch.printed (a : Arch) (mode : Mode) : Operand :=
  Operand.ofMode mode a.regs.pc (a.mem (a.regs.pc + 1)) (a.mem (a.regs.pc + 2))

section address

variable (a : Arch)

private theorem pc_advance : (a.advance 1).regs.pc + 1 = a.regs.pc + 2 := by
  rw [Arch.advance, BitVec.add_assoc]
  rfl

private theorem lo_advance : (a.advance 1).lo = a.mem (a.regs.pc + 1) := rfl

private theorem hi_advance : (a.advance 1).hi = a.mem (a.regs.pc + 2) := by
  rw [Arch.hi, pc_advance]
  rfl

/-- The effective address of a mode is the address of the operand that it prints. -/
theorem OperandMode.address_printed {mode : OperandMode} (h : mode ≠ .Immediate) :
    (a.printed mode.toMode).address a = some (mode.address (a.advance 1)) := by
  have hlo := lo_advance a
  have hhi := hi_advance a
  cases mode with
  | Immediate => exact absurd rfl h
  | _ => simp only [Arch.printed, OperandMode.toMode, Operand.ofMode, Operand.address,
      OperandMode.address, OperandMode.base, Arch.zeroPageWord, hlo, hhi] <;> rfl

/-- The target of a branch, of an absolute jump and of an indirect one. -/
theorem branchTarget_printed :
    (a.printed .Relative).address a = some (branchTarget (a.advance 1)) := by
  simp only [Arch.printed, Operand.ofMode, Operand.address, branchTarget, lo_advance, pc_advance]

theorem jmpAbs_printed :
    (a.printed .Absolute).address a = some (word (a.advance 1).lo (a.advance 1).hi) := by
  simp only [Arch.printed, Operand.ofMode, Operand.address, lo_advance, hi_advance]

theorem jmpInd_printed (V : Variant) (hbug : V.jmpIndirectPageBug = true) :
    (a.printed .Indirect).address a =
      some (((SpecialOp.effect V .JMP_IND) (a.advance 1)).regs.pc) := by
  have hoffset (ptr : U16) : offset ptr + 1 = offset (ptr + 1) := by
    rw [offset, offset, BitVec.setWidth_add _ _ (by omega)]
    rfl
  simp only [Arch.printed, Operand.ofMode, Operand.address, SpecialOp.effect, jmpIndHigh, hbug,
    if_true, lo_advance, hi_advance, hoffset]
  rfl

/-- The second operand byte of JSR is fetched after the pushes. -/
theorem jsr_printed (V : Variant) (hhigh : a.regs.pc + 2 ≠ stackAddr a.regs.s)
    (hlow : a.regs.pc + 2 ≠ stackAddr (a.regs.s - 1)) :
    (a.printed .Absolute).address a =
      some (((SpecialOp.effect V .JSR) (a.advance 1)).regs.pc) := by
  have hfetched : (jsrPushed (a.advance 1)).lo = a.mem (a.regs.pc + 2) := by
    change Function.update (Function.update a.mem _ _) _ _ ((a.advance 1).regs.pc + 1) = _
    rw [pc_advance]
    exact (Function.update_of_ne hlow _ _).trans (Function.update_of_ne hhigh _ _)
  rw [jmpAbs_printed, SpecialOp.effect, hfetched, hi_advance]
  rfl

end address

namespace Machine

variable {β : Type} [PlainMemory β]

/-- **The printed operand is the operand that is used.** On plain memory, with nothing
pending, the text at the program counter read back as assembly syntax gives the byte
that an immediate operand is read as, the address of the last accesses of the
instructions that read, write or modify memory, and the program counter after a taken
branch, a jump or a call. -/
theorem printed_operand_used (m : Machine β NullHooks) (hjammed : m.cpu.jammed = false)
    (hnmi : m.cpu.pendingNmi = false) (hirq : m.cpu.pendingIrq = false) :
    let i := instr (m.arch.mem m.cpu.regs.pc)
    let accesses := m.stepAccesses Nmos6502
    let next := (m.stepMachine Nmos6502).cpu.regs.pc
    ∃ operand, readText (disassembleMemory m.arch.mem m.cpu.regs.pc).1 = some operand ∧
      (∀ op mode, i = .ReadInstr op mode → ∃ accs addr value,
        accesses = accs ++ [.read addr value] ∧
          if mode = .Immediate then operand = .immediate value
          else operand.address m.arch = some addr) ∧
      (∀ op mode, i = .WriteInstr op mode → ∃ accs addr value,
        accesses = accs ++ [.write addr value] ∧ operand.address m.arch = some addr) ∧
      (∀ op mode, i = .RmwInstr op mode → ∃ accs addr old new,
        accesses = accs ++ [.read addr old, .write addr old, .write addr new] ∧
          operand.address m.arch = some addr) ∧
      (∀ op mode, i = .UnstableStoreInstr op mode →
        page (mode.toOperandMode.base (m.arch.advance 1)) =
          page (mode.toOperandMode.address (m.arch.advance 1)) →
        ∃ accs addr value,
          accesses = accs ++ [.write addr value] ∧ operand.address m.arch = some addr) ∧
      (∀ cond mode, i = .BranchInstr cond mode → cond.test m.cpu.regs = true →
        operand.address m.arch = some next) ∧
      (∀ mode, i = .SpecialInstr .JMP_ABS mode ∨ i = .SpecialInstr .JMP_IND mode →
        operand.address m.arch = some next) ∧
      ∀ mode, i = .SpecialInstr .JSR mode → m.cpu.regs.pc + 2 ≠ stackAddr m.cpu.regs.s →
        m.cpu.regs.pc + 2 ≠ stackAddr (m.cpu.regs.s - 1) →
          operand.address m.arch = some next := by
  intro i accesses next
  have hkind := stepKind_of_idle_plain hjammed hnmi hirq
  have hfits : i.modeFits = true := instr_modeFits _
  have haccesses : accesses =
      m.arch.rd m.cpu.regs.pc :: i.accesses Nmos6502 (m.arch.advance 1) := by
    rw [show accesses = _ from stepAccesses_eq Nmos6502 m, hkind]
    rfl
  have hnext : next = (i.effect Nmos6502 (m.arch.advance 1)).regs.pc := by
    rw [show next = _ from congrArg (·.regs.pc) (stepMachine_arch Nmos6502 m), hkind]
    rfl
  refine ⟨m.arch.printed i.mode, readText_disassembleMemory _ _, ?_⟩
  clear_value i accesses next
  refine ⟨?_, ?_, ?_, ?_, ?_, ?_, ?_⟩
  · rintro op mode rfl
    refine ⟨m.arch.rd m.cpu.regs.pc :: mode.reads .Read (m.arch.advance 1), _, _, haccesses, ?_⟩
    split
    · next himmediate =>
      subst himmediate
      rfl
    · next hmode => exact OperandMode.address_printed m.arch hmode
  · rintro op mode rfl
    refine ⟨m.arch.rd m.cpu.regs.pc :: mode.reads .Write (m.arch.advance 1), _, _, haccesses, ?_⟩
    exact OperandMode.address_printed m.arch (bne_iff_ne.mp hfits)
  · rintro op mode rfl
    refine ⟨m.arch.rd m.cpu.regs.pc :: mode.reads .ReadModifyWrite (m.arch.advance 1), _, _, _,
      haccesses, ?_⟩
    exact OperandMode.address_printed m.arch (bne_iff_ne.mp hfits)
  · rintro op mode rfl hpage
    have hcross : crossesPage (mode.toOperandMode.base (m.arch.advance 1))
        (mode.toOperandMode.address (m.arch.advance 1)) = false := by
      rw [← Bool.not_eq_true, crossesPage_iff]
      exact not_not.mpr hpage
    have hmode : mode.toOperandMode ≠ .Immediate := by cases mode <;> decide
    have hstored : (unstableStore op mode (m.arch.advance 1)).1 =
        mode.toOperandMode.address (m.arch.advance 1) := by
      simp only [unstableStore, hcross, Bool.false_eq_true, if_false]
    refine ⟨m.arch.rd m.cpu.regs.pc :: mode.toOperandMode.reads .Write (m.arch.advance 1), _, _,
      haccesses, ?_⟩
    rw [hstored]
    exact OperandMode.address_printed m.arch hmode
  · rintro cond mode rfl htest
    obtain rfl : mode = .Relative := eq_of_beq hfits
    have htest' : cond.test (m.arch.advance 1).regs = true := by
      rw [← htest]
      cases cond <;> rfl
    rw [hnext, Instr.effect, htest', if_pos rfl]
    exact branchTarget_printed m.arch
  · rintro mode (rfl | rfl)
    · obtain rfl : mode = .Absolute := eq_of_beq hfits
      rw [hnext]
      exact jmpAbs_printed m.arch
    · obtain rfl : mode = .Indirect := eq_of_beq hfits
      rw [hnext]
      exact jmpInd_printed m.arch Nmos6502 rfl
  · rintro mode rfl hhigh hlow
    obtain rfl : mode = .Absolute := eq_of_beq hfits
    rw [hnext]
    exact jsr_printed m.arch Nmos6502 hhigh hlow

/-- `STA ($20),Y` with the pointer `$12F0`: the store goes into the next page. -/
theorem printed_operand_used_sta :
    let m := fresh { y := 0x20 } { memory := fun a =>
      if a = 0 then 0x91 else if a = 1 then 0x20 else if a = 0x20 then 0xF0 else 0x12 : FlatBus }
    (disassembleMemory m.arch.mem 0).1 = "STA ($20),Y" ∧
      ∃ operand accs value, readText "STA ($20),Y" = some operand ∧
        operand.address m.arch = some 0x1310 ∧
        m.stepAccesses Nmos6502 = accs ++ [.write 0x1310 value] := by
  intro m
  have htext : (disassembleMemory m.arch.mem 0).1 = "STA ($20),Y" := by decide +kernel
  obtain ⟨operand, hread, _, hwrite, _⟩ := printed_operand_used m rfl rfl rfl
  obtain ⟨accs, addr, value, haccesses, haddress⟩ := hwrite .STA .IndirectY (by decide +kernel)
  have hread' : readText "STA ($20),Y" = some operand := htext ▸ hread
  have hoperand : operand = .indirectY 0x20 := by
    rw [← Option.some_inj, ← hread']
    decide +kernel
  have haddr : addr = 0x1310 := by
    rw [hoperand] at haddress
    rw [← Option.some_inj, ← haddress]
    decide +kernel
  subst haddr
  exact ⟨htext, operand, accs, value, hread', haddress, haccesses⟩

end Machine

end Mos6502
