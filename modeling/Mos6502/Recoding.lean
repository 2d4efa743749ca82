import Mos6502.StepFrame

/-!
# Other opcodes in the same places

Some instructions have several opcodes. What a step does, and which accesses it makes, is the
same with any of them, as long as the opcodes are only executed: here for memory in which some
bytes are replaced, and a step that neither uses one of these bytes as data nor stores there.
-/

namespace Mos6502

/-! ### Memory with other bytes in it -/

/-- Memory with the bytes of `code` in the places where it has any. -/
def recode (code : U16 → Option U8) (mem : Memory) : Memory :=
  fun addr => (code addr).getD (mem addr)

def Arch.recode (code : U16 → Option U8) (a : Arch) : Arch :=
  { a with mem := Mos6502.recode code a.mem }

/-- An access to a memory with the bytes of `code` in it. -/
def BusAccess.recode (code : U16 → Option U8) : BusAccess → BusAccess
  | .read addr value => .read addr ((code addr).getD value)
  | .write addr value => .write addr value

/-- The addresses of the bytes that the effective address of a mode is made of. -/
def OperandMode.used (mode : OperandMode) (a : Arch) : List U16 :=
  match mode with
  | .Immediate => []
  | .ZeroPage | .ZeroPageX | .ZeroPageY => [a.regs.pc]
  | .Absolute | .AbsoluteX | .AbsoluteY => [a.regs.pc, a.regs.pc + 1]
  | .IndirectX =>
    [a.regs.pc, (a.lo + a.regs.x).setWidth 16, (a.lo + a.regs.x + 1).setWidth 16]
  | .IndirectY => [a.regs.pc, a.lo.setWidth 16, (a.lo + 1).setWidth 16]

/-- The addresses that an interrupt sequence stores to, and those of its vector. -/
def interruptTouched (vector : U16) (a : Arch) : List U16 :=
  [stackAddr a.regs.s, stackAddr (a.regs.s - 1), stackAddr (a.regs.s - 2), vector, vector + 1]

/-- The addresses at which the code of an instruction uses or stores a byte, in the state after
the opcode fetch. What it reads only to discard it is not among them. -/
def Instr.touched (V : Variant) (i : Instr) (a : Arch) : List U16 :=
  match i with
  | .ReadInstr _ mode | .WriteInstr _ mode | .RmwInstr _ mode => mode.address a :: mode.used a
  | .AccumInstr _ _ => []
  | .ImpliedInstr op _ =>
    match op with
    | .PHA | .PHP => [stackAddr a.regs.s]
    | .PLA | .PLP => [a.pulled 1]
    | _ => []
  | .BranchInstr _ _ => [a.regs.pc]
  | .UnstableStoreInstr op mode => (unstableStore op mode a).1 :: mode.toOperandMode.used a
  | .SpecialInstr op _ =>
    match op with
    | .BRK => interruptTouched kIrqVector a
    | .JSR => [a.regs.pc, a.regs.pc + 1, stackAddr a.regs.s, stackAddr (a.regs.s - 1)]
    | .RTS => [a.pulled 1, a.pulled 2]
    | .RTI => [a.pulled 1, a.pulled 2, a.pulled 3]
    | .JMP_ABS => [a.regs.pc, a.regs.pc + 1]
    | .JMP_IND => [a.regs.pc, a.regs.pc + 1, word a.lo a.hi, jmpIndHigh V (word a.lo a.hi)]
    | .JAM => []

section recode

variable {code : U16 → Option U8}

theorem recode_of_none {addr : U16} (h : code addr = none) (mem : Memory) :
    recode code mem addr = mem addr := by
  rw [recode, h, Option.getD_none]

/-- A store to an address without a new opcode. -/
theorem update_recode {addr : U16} (h : code addr = none) (mem : Memory) (value : U8) :
    Function.update (recode code mem) addr value =
      recode code (Function.update mem addr value) := by
  funext addr'
  rcases eq_or_ne addr' addr with rfl | hne
  · rw [recode_of_none h, Function.update_self, Function.update_self]
  · simp only [recode, Function.update_of_ne hne]

namespace Arch

@[simp] theorem recode_regs (a : Arch) : (a.recode code).regs = a.regs := rfl

@[simp] theorem recode_pulled (a : Arch) (k : ℕ) : (a.recode code).pulled k = a.pulled k := rfl

@[simp] theorem recode_rd (a : Arch) (addr : U16) :
    (a.recode code).rd addr = (a.rd addr).recode code := rfl

theorem recode_advance (a : Arch) (bytes : ℕ) :
    (a.recode code).advance bytes = (a.advance bytes).recode code := rfl

theorem recode_mem {addr : U16} (h : code addr = none) (a : Arch) :
    (a.recode code).mem addr = a.mem addr := recode_of_none h a.mem

theorem recode_lo {a : Arch} (h : code a.regs.pc = none) : (a.recode code).lo = a.lo :=
  recode_mem h a

theorem recode_hi {a : Arch} (h : code (a.regs.pc + 1) = none) : (a.recode code).hi = a.hi :=
  recode_mem h a

theorem recode_zeroPageWord {a : Arch} {zp : U8} (h : code (zp.setWidth 16) = none)
    (h' : code ((zp + 1).setWidth 16) = none) :
    (a.recode code).zeroPageWord zp = a.zeroPageWord zp :=
  congrArg₂ word (recode_mem h a) (recode_mem h' a)

theorem store_recode {a : Arch} {addr : U16} (h : code addr = none) (value : U8) :
    (a.recode code).store addr value = (a.store addr value).recode code :=
  Arch.ext rfl (update_recode h a.mem value)

theorem push_recode {a : Arch} (h : code (stackAddr a.regs.s) = none) (value : U8) :
    (a.recode code).push value = (a.push value).recode code :=
  Arch.ext rfl (update_recode h a.mem value)

end Arch

/-! ### Instructions -/

/-- A mode resolves to the same address. -/
theorem OperandMode.address_recode {mode : OperandMode} {a : Arch}
    (h : ∀ addr ∈ mode.used a, code addr = none) :
    mode.base (a.recode code) = mode.base a ∧ mode.address (a.recode code) = mode.address a := by
  cases mode with
  | Immediate => exact ⟨rfl, rfl⟩
  | ZeroPage | ZeroPageX | ZeroPageY =>
    have hlo := Arch.recode_lo (h _ List.mem_cons_self)
    simp [base, address, hlo]
  | Absolute | AbsoluteX | AbsoluteY =>
    have hlo := Arch.recode_lo (h _ List.mem_cons_self)
    have hhi := Arch.recode_hi (h _ (List.mem_cons_of_mem _ List.mem_cons_self))
    simp [base, address, hlo, hhi]
  | IndirectX | IndirectY =>
    simp only [used, List.forall_mem_cons] at h
    have hlo := Arch.recode_lo h.1
    have hpointer := Arch.recode_zeroPageWord (a := a) h.2.1 h.2.2.1
    simp [base, address, hlo, hpointer]

/-- Resolving a mode makes the same accesses. -/
theorem OperandMode.reads_recode {mode : OperandMode} {a : Arch}
    (h : ∀ addr ∈ mode.used a, code addr = none) (A : Access) :
    mode.reads A (a.recode code) = (mode.reads A a).map (·.recode code) := by
  obtain ⟨hbase, haddress⟩ := address_recode h
  have hfixup : mode.fixupReads A (a.recode code) = (mode.fixupReads A a).map (·.recode code) := by
    have hpays : mode.paysFixup A (a.recode code) = mode.paysFixup A a := by
      rw [paysFixup, paysFixup, hbase, haddress]
    rw [fixupReads, fixupReads, hpays, hbase, haddress]
    cases mode.paysFixup A a <;> rfl
  rw [reads, reads, List.map_append, List.map_append, hfixup]
  congr 1
  cases mode with
  | Immediate | ZeroPage | Absolute | AbsoluteX | AbsoluteY => rfl
  | ZeroPageX | ZeroPageY | IndirectX | IndirectY =>
    have hlo := Arch.recode_lo (h _ List.mem_cons_self)
    simp [operandReads, pointerReads, hlo]

/-- The service of an interrupt. -/
theorem interruptEffect_recode {V : Variant} {isBreak : Bool} {vector : U16} {a : Arch}
    (h : ∀ addr ∈ interruptTouched vector a, code addr = none) :
    interruptEffect V isBreak vector (a.recode code) =
      (interruptEffect V isBreak vector a).recode code := by
  simp only [interruptTouched, List.forall_mem_cons] at h
  obtain ⟨hone, htwo, hthree, hvector, hvector', -⟩ := h
  have hpushed (b : Arch) (hs : b.regs.s = a.regs.s) (hi lo status : U8) :
      (((b.recode code).push hi).push lo).push status =
        (((b.push hi).push lo).push status).recode code := by
    have hfirst : code (stackAddr b.regs.s) = none := hs ▸ hone
    have hsecond : code (stackAddr (b.push hi).regs.s) = none := by
      change code (stackAddr (b.regs.s - 1)) = none
      rwa [hs]
    have hthird : code (stackAddr ((b.push hi).push lo).regs.s) = none := by
      change code (stackAddr (b.regs.s - 1 - 1)) = none
      rwa [hs, BitVec.sub_sub]
    rw [Arch.push_recode hfirst, Arch.push_recode hsecond, Arch.push_recode hthird]
  cases isBreak with
  | false =>
    simp only [interruptEffect, Bool.false_eq_true, if_false, Arch.recode_regs, hpushed a rfl,
      Arch.recode_mem hvector, Arch.recode_mem hvector']
    rfl
  | true =>
    simp only [interruptEffect, if_true, Arch.recode_advance, Arch.recode_regs,
      hpushed (a.advance 1) rfl, Arch.recode_mem hvector, Arch.recode_mem hvector']
    rfl

theorem interruptAccesses_recode {V : Variant} {isBreak : Bool} {vector : U16} {a : Arch}
    (h : ∀ addr ∈ interruptTouched vector a, code addr = none) :
    interruptAccesses V isBreak vector (a.recode code) =
      (interruptAccesses V isBreak vector a).map (·.recode code) := by
  simp only [interruptAccesses, interruptEffect_recode h]
  cases isBreak <;> rfl

theorem jsrPushed_recode {a : Arch} (hfirst : code (stackAddr a.regs.s) = none)
    (hsecond : code (stackAddr (a.regs.s - 1)) = none) :
    jsrPushed (a.recode code) = (jsrPushed a).recode code := by
  have hpushed (value : U8) : code (stackAddr ((a.advance 1).push value).regs.s) = none := hsecond
  rw [jsrPushed, jsrPushed, Arch.recode_advance, Arch.push_recode (a := a.advance 1) hfirst,
    Arch.push_recode (hpushed _)]
  rfl

theorem SpecialOp.effect_recode {V : Variant} {op : SpecialOp} {mode : Mode} {a : Arch}
    (h : ∀ addr ∈ (Instr.SpecialInstr op mode).touched V a, code addr = none) :
    op.effect V (a.recode code) = (op.effect V a).recode code := by
  cases op with
  | BRK => exact interruptEffect_recode h
  | JSR =>
    simp only [Instr.touched, List.forall_mem_cons] at h
    obtain ⟨hlo, hhi, hfirst, hsecond, -⟩ := h
    have htarget : ((jsrPushed a).recode code).lo = (jsrPushed a).lo := Arch.recode_lo hhi
    simp only [effect, jsrPushed_recode hfirst hsecond, Arch.recode_lo hlo, htarget]
    rfl
  | RTS =>
    simp only [Instr.touched, List.forall_mem_cons] at h
    simp only [effect, Arch.recode_pulled, Arch.recode_mem h.1, Arch.recode_mem h.2.1]
    rfl
  | RTI =>
    simp only [Instr.touched, List.forall_mem_cons] at h
    simp only [effect, Arch.recode_pulled, Arch.recode_mem h.1, Arch.recode_mem h.2.1,
      Arch.recode_mem h.2.2.1]
    rfl
  | JMP_ABS =>
    simp only [Instr.touched, List.forall_mem_cons] at h
    simp only [effect, Arch.recode_lo h.1, Arch.recode_hi h.2.1]
    rfl
  | JMP_IND =>
    simp only [Instr.touched, List.forall_mem_cons] at h
    simp only [effect, Arch.recode_lo h.1, Arch.recode_hi h.2.1, Arch.recode_mem h.2.2.1,
      Arch.recode_mem h.2.2.2.1]
    rfl
  | JAM => rfl

theorem SpecialOp.accesses_recode {V : Variant} {op : SpecialOp} {mode : Mode} {a : Arch}
    (h : ∀ addr ∈ (Instr.SpecialInstr op mode).touched V a, code addr = none) :
    op.accesses V (a.recode code) = (op.accesses V a).map (·.recode code) := by
  cases op with
  | BRK => exact interruptAccesses_recode h
  | JSR =>
    simp only [Instr.touched, List.forall_mem_cons] at h
    obtain ⟨-, -, hfirst, hsecond, -⟩ := h
    rw [accesses, jsrPushed_recode hfirst hsecond]
    rfl
  | RTS =>
    simp only [Instr.touched, List.forall_mem_cons] at h
    simp only [accesses, Arch.recode_pulled, Arch.recode_mem h.1, Arch.recode_mem h.2.1]
    rfl
  | JMP_IND =>
    simp only [Instr.touched, List.forall_mem_cons] at h
    simp only [accesses, Arch.recode_lo h.1, Arch.recode_hi h.2.1]
    cases V.jmpIndirectPageBug <;> rfl
  | RTI | JMP_ABS | JAM => rfl

/-- The store of an unstable instruction depends only on the registers and the operand. -/
theorem unstableStore_recode {op : UnstableStoreOp} {mode : IndexedMode} {a : Arch}
    (h : ∀ addr ∈ mode.toOperandMode.used a, code addr = none) :
    unstableStore op mode (a.recode code) = unstableStore op mode a := by
  obtain ⟨hbase, haddress⟩ := OperandMode.address_recode h
  simp only [unstableStore, hbase, haddress]
  rfl

/-- **Effects.** An instruction has the same effect beside the new opcodes. -/
theorem Instr.effect_recode {V : Variant} {i : Instr} {a : Arch}
    (h : ∀ addr ∈ i.touched V a, code addr = none) :
    i.effect V (a.recode code) = (i.effect V a).recode code := by
  cases i with
  | ReadInstr op mode =>
    obtain ⟨hoperand, hused⟩ := List.forall_mem_cons.mp h
    obtain ⟨-, haddress⟩ := OperandMode.address_recode hused
    simp only [effect, haddress, Arch.recode_mem hoperand]
    rfl
  | WriteInstr op mode =>
    obtain ⟨hoperand, hused⟩ := List.forall_mem_cons.mp h
    obtain ⟨-, haddress⟩ := OperandMode.address_recode hused
    rw [effect, haddress]
    exact Arch.store_recode (a := mode.consume a) hoperand _
  | RmwInstr op mode =>
    obtain ⟨hoperand, hused⟩ := List.forall_mem_cons.mp h
    obtain ⟨-, haddress⟩ := OperandMode.address_recode hused
    simp only [effect, haddress, Arch.recode_mem hoperand]
    exact Arch.ext rfl (update_recode hoperand a.mem _)
  | AccumInstr op mode => rfl
  | ImpliedInstr op mode =>
    cases op with
    | PHA | PHP => exact Arch.push_recode (h _ List.mem_cons_self) _
    | PLA | PLP =>
      have hpulled := Arch.recode_mem (h _ List.mem_cons_self)
      simp only [effect, ImpliedOp.effect, Arch.recode_pulled, hpulled]
      rfl
    | _ => rfl
  | BranchInstr cond mode =>
    have hlo := Arch.recode_lo (h _ List.mem_cons_self)
    simp only [effect, branchTarget, hlo, Arch.recode_regs]
    split <;> rfl
  | UnstableStoreInstr op mode =>
    obtain ⟨hoperand, hused⟩ := List.forall_mem_cons.mp h
    simp only [effect, unstableStore_recode hused]
    exact Arch.ext rfl (update_recode hoperand a.mem _)
  | SpecialInstr op mode => exact SpecialOp.effect_recode h

/-- **Accesses.** It makes the same accesses, and reads the new opcodes where it reads any. -/
theorem Instr.accesses_recode {V : Variant} {i : Instr} {a : Arch}
    (h : ∀ addr ∈ i.touched V a, code addr = none) :
    i.accesses V (a.recode code) = (i.accesses V a).map (·.recode code) := by
  cases i with
  | ReadInstr op mode =>
    obtain ⟨-, hused⟩ := List.forall_mem_cons.mp h
    obtain ⟨-, haddress⟩ := OperandMode.address_recode hused
    rw [accesses, accesses, haddress, OperandMode.reads_recode hused, List.map_append]
    rfl
  | WriteInstr op mode =>
    obtain ⟨-, hused⟩ := List.forall_mem_cons.mp h
    obtain ⟨-, haddress⟩ := OperandMode.address_recode hused
    rw [accesses, accesses, haddress, OperandMode.reads_recode hused, List.map_append]
    rfl
  | RmwInstr op mode =>
    obtain ⟨hoperand, hused⟩ := List.forall_mem_cons.mp h
    obtain ⟨-, haddress⟩ := OperandMode.address_recode hused
    simp only [accesses, haddress, Arch.recode_mem hoperand, OperandMode.reads_recode hused,
      List.map_append]
    cases V.rmwDummyWriteBack <;> rfl
  | AccumInstr op mode => rfl
  | ImpliedInstr op mode => cases op <;> rfl
  | BranchInstr cond mode =>
    have hlo := Arch.recode_lo (h _ List.mem_cons_self)
    have htarget : branchTarget (a.recode code) = branchTarget a := by
      rw [branchTarget, branchTarget, hlo, Arch.recode_regs]
    rw [accesses, accesses, htarget, Arch.recode_regs]
    cases cond.test a.regs <;> cases crossesPage (a.regs.pc + 1) (branchTarget a) <;> rfl
  | UnstableStoreInstr op mode =>
    obtain ⟨-, hused⟩ := List.forall_mem_cons.mp h
    simp only [accesses, unstableStore_recode hused, OperandMode.reads_recode hused,
      List.map_append]
    rfl
  | SpecialInstr op mode => exact SpecialOp.accesses_recode h

/-! ### Steps -/

namespace StepKind

/-- The addresses at which a step uses or stores a byte, its opcode fetch apart. -/
def touched (V : Variant) (kind : StepKind) (a : Arch) : List U16 :=
  match kind with
  | .jammed => []
  | .nmi => interruptTouched kNmiVector a
  | .irq => interruptTouched kIrqVector a
  | .instruction op => (instr op).touched V (a.advance 1)

/-- Steps of one kind, which may execute different opcodes of one instruction. -/
inductive SameAction : StepKind → StepKind → Prop
  | refl (kind : StepKind) : SameAction kind kind
  | instruction {op op' : U8} : instr op = instr op' →
    SameAction (.instruction op) (.instruction op')

variable {V : Variant} {kind kind' : StepKind} {a : Arch}

theorem effect_recode (hsame : SameAction kind kind')
    (h : ∀ addr ∈ kind.touched V a, code addr = none) :
    kind'.effect V (a.recode code) = (kind.effect V a).recode code := by
  have hone : kind.effect V (a.recode code) = (kind.effect V a).recode code := by
    cases kind with
    | jammed => rfl
    | nmi | irq => exact interruptEffect_recode h
    | instruction op => exact Instr.effect_recode h
  cases hsame with
  | refl => exact hone
  | instruction heq =>
    rw [← hone, effect, effect, heq]

theorem accesses_recode (hsame : SameAction kind kind')
    (h : ∀ addr ∈ kind.touched V a, code addr = none) :
    kind'.accesses V (a.recode code) = (kind.accesses V a).map (·.recode code) := by
  have hone : kind.accesses V (a.recode code) = (kind.accesses V a).map (·.recode code) := by
    cases kind with
    | jammed => rfl
    | nmi | irq => exact interruptAccesses_recode h
    | instruction op => exact congrArg _ (Instr.accesses_recode h)
  cases hsame with
  | refl => exact hone
  | instruction heq =>
    rw [← hone, accesses, accesses, heq]

theorem SameAction.mask (hsame : SameAction kind kind') : kind'.mask = kind.mask := by
  cases hsame with
  | refl => rfl
  | instruction heq =>
    funext r r'
    rw [StepKind.mask, StepKind.mask, heq]

theorem SameAction.jams (hsame : SameAction kind kind') : kind'.jams = kind.jams := by
  cases hsame with
  | refl => rfl
  | instruction heq => rw [StepKind.jams, StepKind.jams, heq]

theorem stackBelow_subset_interruptTouched (vector : U16) (a : Arch) :
    stackBelow a.regs.s 3 ⊆ interruptTouched vector a := by
  simp [stackBelow, interruptTouched, List.range_succ]

/-- A step touches the addresses that it stores into. -/
theorem stored_subset_touched (V : Variant) (kind : StepKind) (a : Arch) :
    kind.stored a ⊆ kind.touched V a := by
  cases kind with
  | jammed => exact List.nil_subset _
  | nmi | irq => exact stackBelow_subset_interruptTouched _ a
  | instruction op =>
    change (instr op).stored (a.advance 1) ⊆ (instr op).touched V (a.advance 1)
    generalize a.advance 1 = a
    cases instr op with
    | WriteInstr op mode | RmwInstr op mode | UnstableStoreInstr op mode =>
      exact List.cons_subset_cons _ (List.nil_subset _)
    | ImpliedInstr op mode =>
      cases op <;> simp [Instr.stored, Instr.touched, stackBelow]
    | SpecialInstr op mode =>
      cases op with
      | BRK => exact stackBelow_subset_interruptTouched _ a
      | JSR => simp [Instr.stored, Instr.touched, stackBelow, List.range_succ]
      | _ => exact List.nil_subset _
    | _ => exact List.nil_subset _

end StepKind

/-- The addresses of the bytes that a call of the host uses: those of the reset vector. -/
def HostCall.touched : HostCall → List U16
  | .pin _ => []
  | .reset => [kResetVector, kResetVector + 1]

theorem resetEffect_recode {a : Arch} (h : ∀ addr ∈ HostCall.reset.touched, code addr = none) :
    resetEffect (a.recode code) = (resetEffect a).recode code := by
  simp only [HostCall.touched, List.forall_mem_cons] at h
  simp only [resetEffect, Arch.recode_mem h.1, Arch.recode_mem h.2.1]
  rfl

end recode

end Mos6502
