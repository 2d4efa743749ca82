import Mos6502.PlainStep
import Mos6502.Runs

/-!
# Cycle counts

A step takes one cycle for each of its accesses, so its cycle count is the length of
its access list. For an instruction that length is a base that depends on the opcode
alone, and a penalty for crossing a page or taking a branch. The bases are those of
the published table.
-/

namespace Mos6502

/-- The published base cycle count for every opcode, illegals included, with no
page-cross penalty and no branch taken. -/
def kBaseCycles (opcode : U8) : ℕ :=
  [7, 6, 11, 8, 3, 3, 5, 5, 3, 2, 2, 2, 4, 4, 6, 6,
    2, 5, 11, 8, 4, 4, 6, 6, 2, 4, 2, 7, 4, 4, 7, 7,
    6, 6, 11, 8, 3, 3, 5, 5, 4, 2, 2, 2, 4, 4, 6, 6,
    2, 5, 11, 8, 4, 4, 6, 6, 2, 4, 2, 7, 4, 4, 7, 7,
    6, 6, 11, 8, 3, 3, 5, 5, 3, 2, 2, 2, 3, 4, 6, 6,
    2, 5, 11, 8, 4, 4, 6, 6, 2, 4, 2, 7, 4, 4, 7, 7,
    6, 6, 11, 8, 3, 3, 5, 5, 4, 2, 2, 2, 5, 4, 6, 6,
    2, 5, 11, 8, 4, 4, 6, 6, 2, 4, 2, 7, 4, 4, 7, 7,
    2, 6, 2, 6, 3, 3, 3, 3, 2, 2, 2, 2, 4, 4, 4, 4,
    2, 6, 11, 6, 4, 4, 4, 4, 2, 5, 2, 5, 5, 5, 5, 5,
    2, 6, 2, 6, 3, 3, 3, 3, 2, 2, 2, 2, 4, 4, 4, 4,
    2, 5, 11, 5, 4, 4, 4, 4, 2, 4, 2, 4, 4, 4, 4, 4,
    2, 6, 2, 8, 3, 3, 5, 5, 2, 2, 2, 2, 4, 4, 6, 6,
    2, 5, 11, 8, 4, 4, 6, 6, 2, 4, 2, 7, 4, 4, 7, 7,
    2, 6, 2, 8, 3, 3, 5, 5, 2, 2, 2, 2, 4, 4, 6, 6,
    2, 5, 11, 8, 4, 4, 6, 6, 2, 4, 2, 7, 4, 4, 7, 7].getD opcode.toNat 0

/-! ### The lengths of access lists -/

/-- The cycles that resolving a mode takes when no page is crossed. -/
def OperandMode.baseCycles (mode : OperandMode) (A : Access) : ℕ :=
  match mode with
  | .Immediate => 0
  | .ZeroPage => 1
  | .ZeroPageX | .ZeroPageY | .Absolute => 2
  | .AbsoluteX | .AbsoluteY => if A = .Read then 2 else 3
  | .IndirectX => 4
  | .IndirectY => if A = .Read then 3 else 4

/-- A read pays for the correction of its high byte; the other accesses always do. -/
def OperandMode.penalty (mode : OperandMode) (a : Arch) : ℕ :=
  if mode.crosses ∧ page (mode.base a) ≠ page (mode.address a) then 1 else 0

theorem OperandMode.length_reads_read (mode : OperandMode) (a : Arch) :
    (mode.reads .Read a).length = mode.baseCycles .Read + mode.penalty a := by
  have hfixup : (mode.fixupReads .Read a).length = mode.penalty a := by
    unfold fixupReads paysFixup penalty
    cases mode.crosses <;> simp [← crossesPage_iff]
    split <;> rfl
  rw [reads, List.length_append, hfixup]
  cases mode <;> rfl

theorem OperandMode.length_reads {A : Access} (hA : A ≠ .Read) (mode : OperandMode) (a : Arch) :
    (mode.reads A a).length = mode.baseCycles A := by
  cases mode <;>
    simp [reads, operandReads, pointerReads, fixupReads, paysFixup, crosses, baseCycles, hA]

namespace Instr

/-- The cycles of an instruction, its opcode fetch included and without any penalty. -/
def baseCycles (V : Variant) : Instr → ℕ
  | .ReadInstr _ mode => 2 + mode.baseCycles .Read
  | .WriteInstr _ mode => 2 + mode.baseCycles .Write
  | .RmwInstr _ mode => 4 + mode.baseCycles .ReadModifyWrite
  | .UnstableStoreInstr _ mode => 2 + mode.toOperandMode.baseCycles .Write
  | .AccumInstr _ _ | .BranchInstr _ _ => 2
  | .ImpliedInstr op _ =>
    match op with
    | .PHA | .PHP => 3
    | .PLA | .PLP => 4
    | _ => 2
  | .SpecialInstr op _ =>
    match op with
    | .BRK => 7
    | .JSR | .RTS | .RTI => 6
    | .JMP_ABS => 3
    | .JMP_IND => if V.jmpIndirectPageBug then 5 else 6
    | .JAM => 11

/-- The cycles on top of the base, in the state after the opcode fetch: a read across a
page, a taken branch, and a taken branch to another page than that of the next
instruction. -/
def penalty (i : Instr) (a : Arch) : ℕ :=
  match i with
  | .ReadInstr _ mode => mode.penalty a
  | .BranchInstr cond _ =>
    if cond.test a.regs then
      if page (a.regs.pc + 1) ≠ page (branchTarget a) then 2 else 1
    else 0
  | _ => 0

theorem length_accesses (V : Variant) (i : Instr) (a : Arch) :
    (i.accesses V a).length + 1 = i.baseCycles V + i.penalty a := by
  cases i with
  | ReadInstr op mode =>
    simp only [accesses, List.length_append, mode.length_reads_read, baseCycles, penalty]
    simp only [List.length_singleton]
    omega
  | WriteInstr op mode =>
    simp [accesses, baseCycles, penalty, OperandMode.length_reads]
    omega
  | RmwInstr op mode =>
    simp [accesses, baseCycles, penalty, OperandMode.length_reads]
    omega
  | UnstableStoreInstr op mode =>
    simp [accesses, baseCycles, penalty, OperandMode.length_reads]
    omega
  | AccumInstr op mode => rfl
  | ImpliedInstr op mode => cases op <;> rfl
  | BranchInstr cond mode =>
    simp only [accesses, baseCycles, penalty, ← crossesPage_iff]
    split_ifs <;> rfl
  | SpecialInstr op mode =>
    cases op with
    | JMP_IND =>
      cases h : V.jmpIndirectPageBug <;>
        simp [accesses, SpecialOp.accesses, baseCycles, penalty, h]
    | _ => rfl

end Instr

/-- The bases of the published table are those of the instructions. -/
theorem kBaseCycles_eq (opcode : U8) : kBaseCycles opcode = (instr opcode).baseCycles Nmos6502 := by
  have h := row_of_all (P := fun r => kBaseCycles r.code = r.instr.baseCycles Nmos6502)
    (by decide +kernel) opcode
  rwa [code_row] at h

theorem Instr.baseCycles_le (V : Variant) (i : Instr) : i.baseCycles V ≤ 11 := by
  have hmode (mode : OperandMode) (A : Access) : mode.baseCycles A ≤ 4 := by
    cases mode <;> cases A <;> decide
  cases i with
  | ReadInstr op mode | WriteInstr op mode | RmwInstr op mode =>
    have := hmode mode
    simp only [baseCycles]
    grind
  | UnstableStoreInstr op mode =>
    have := hmode mode.toOperandMode .Write
    simp only [baseCycles]
    omega
  | ImpliedInstr op mode => cases op <;> simp [baseCycles]
  | SpecialInstr op mode =>
    cases op <;> simp only [baseCycles] <;> first | omega | (split <;> omega)
  | AccumInstr op mode | BranchInstr cond mode => simp [baseCycles]

theorem Instr.penalty_le (i : Instr) (a : Arch) : i.penalty a ≤ 2 := by
  cases i with
  | ReadInstr op mode =>
    simp only [penalty, OperandMode.penalty]
    split <;> omega
  | BranchInstr cond mode =>
    simp only [penalty]
    split_ifs <;> omega
  | _ => exact Nat.zero_le 2

/-! ### The cycles of a step -/

namespace StepKind

/-- The cycles that a step of this kind takes. -/
def cycles (V : Variant) (kind : StepKind) (a : Arch) : ℕ :=
  match kind with
  | .jammed => 1
  | .nmi | .irq => 7
  | .instruction op => (instr op).baseCycles V + (instr op).penalty (a.advance 1)

theorem length_accesses (V : Variant) (kind : StepKind) (a : Arch) :
    (kind.accesses V a).length = kind.cycles V a := by
  cases kind with
  | jammed | nmi | irq => rfl
  | instruction op => exact (instr op).length_accesses V (a.advance 1)

theorem cycles_lt (V : Variant) (kind : StepKind) (a : Arch) : kind.cycles V a < 2 ^ 32 := by
  cases kind with
  | jammed | nmi | irq => simp [cycles]
  | instruction op =>
    have hbase := (instr op).baseCycles_le V
    have hpenalty := (instr op).penalty_le (a.advance 1)
    simp only [cycles]
    omega

end StepKind

namespace Machine

variable {β : Type}

/-- The value that a step returns is the number of its accesses, in 32 bits. -/
theorem step_fst [BusLike β] (V : Variant) (m : Machine β NullHooks) :
    (m.step V).1 = BitVec.ofNat 32 (m.stepAccesses V).length := by
  simp only [step, step_cycles]
  rw [BitVec.add_comm, BitVec.add_sub_cancel]
  apply BitVec.eq_of_toNat_eq
  simp only [BitVec.toNat_setWidth, BitVec.toNat_ofNat]
  omega

/-- The bus is ticked once for each access. -/
theorem count_tick [BusLike β] (V : Variant) (m : Machine β NullHooks) :
    (m.stepEvents V).count .tick = (m.stepAccesses V).length := by
  have hissued : (m.stepEvents V).count .tick = (BusEvent.issued (m.stepEvents V)).count .tick :=
    (List.count_filter (by rfl)).symm
  rw [hissued, step_issued]
  induction m.stepAccesses V with
  | nil => rfl
  | cons a as ih =>
    rw [List.flatMap_cons, List.count_append, ih, List.length_cons, Nat.add_comm]
    rfl

variable [PlainMemory β]

theorem step_toNat (V : Variant) (m : Machine β NullHooks) :
    (m.step V).1.toNat = (m.stepAccesses V).length := by
  have hlt := m.stepKind.cycles_lt V m.arch
  rw [← StepKind.length_accesses, ← stepAccesses_eq] at hlt
  rw [step_fst, BitVec.toNat_ofNat, Nat.mod_eq_of_lt hlt]

/-- On plain memory a step returns the cycles of its kind. -/
theorem step_toNat_eq_cycles (V : Variant) (m : Machine β NullHooks) :
    (m.step V).1.toNat = m.stepKind.cycles V m.arch := by
  rw [step_toNat, stepAccesses_eq, StepKind.length_accesses]

/-- **Exact cycle counts.** On plain memory, an NMOS processor with nothing pending
takes the published number of cycles for its opcode, plus one for an indexed read
across a page, plus one or two for a taken branch, and nothing else; a service takes
seven cycles and a jammed step one. On every step the count is that of the ticks and
that of the accesses, and each access has its tick right before it. -/
theorem exact_cycles (m : Machine β NullHooks) :
    (m.cpu.jammed = false → m.cpu.pendingNmi = false → m.cpu.pendingIrq = false →
      (m.step Nmos6502).1.toNat =
        kBaseCycles (m.arch.mem m.cpu.regs.pc) +
          (instr (m.arch.mem m.cpu.regs.pc)).penalty (m.arch.advance 1)) ∧
    (m.cpu.jammed = false → m.cpu.pendingNmi = true ∨ m.cpu.pendingIrq = true →
      (m.step Nmos6502).1.toNat = 7) ∧
    (m.cpu.jammed = true → (m.step Nmos6502).1.toNat = 1) ∧
    (m.step Nmos6502).1.toNat = (m.stepEvents Nmos6502).count .tick ∧
    (m.step Nmos6502).1.toNat = (m.stepAccesses Nmos6502).length ∧
    BusEvent.issued (m.stepEvents Nmos6502) =
      (m.stepAccesses Nmos6502).flatMap fun a => [.tick, .access a] := by
  refine ⟨fun hjammed hnmi hirq => ?_, fun hjammed hpending => ?_, fun hjammed => ?_, ?_,
    step_toNat _ m, step_issued _ m⟩
  · rw [step_toNat_eq_cycles, stepKind_of_idle_plain hjammed hnmi hirq, kBaseCycles_eq]
    rfl
  · have hkind : m.stepKind = .nmi ∨ m.stepKind = .irq := by
      cases hnmi : m.cpu.pendingNmi with
      | true => exact .inl (stepKind_eq_nmi.mpr ⟨hjammed, hnmi⟩)
      | false =>
        have hirq : m.cpu.pendingIrq = true := by simpa [hnmi] using hpending
        exact .inr (stepKind_eq_irq.mpr ⟨hjammed, hnmi, hirq⟩)
    rw [step_toNat_eq_cycles]
    rcases hkind with h | h <;> rw [h] <;> rfl
  · rw [step_toNat_eq_cycles, stepKind_eq_jammed.mpr hjammed]
    rfl
  · rw [count_tick, step_toNat]

/-- A branch taken forwards across the end of its page: two cycles and two more. -/
theorem exact_cycles_bne :
    ((fresh { pc := 0x04FC }
      { memory := fun a => if a = 0x04FC then 0xD0 else 0x10 : FlatBus }).step
        Nmos6502).1.toNat = 4 :=
  ((exact_cycles (fresh { pc := 0x04FC }
    { memory := fun a => if a = 0x04FC then 0xD0 else 0x10 : FlatBus })).1 rfl rfl rfl).trans
    (by decide +kernel)

end Machine

end Mos6502
