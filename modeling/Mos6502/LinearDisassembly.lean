import Mos6502.Disassembler
import Mos6502.StackDiscipline

/-!
# Linear disassembly against execution

The disassembler takes the length of an instruction from its addressing mode, while the
processor goes on after the bytes that the instruction happened to fetch. The two agree
for every opcode but BRK, whose addressing mode has no operand byte although its
execution consumes one.
-/

namespace Mos6502

open Effects

/-! ### The bytes of an instruction -/

namespace Instr

/-- The instructions after which the program counter is past their own bytes, in the
state after the opcode fetch: all but taken branches and special instructions. -/
def fallsThrough (i : Instr) (r : Registers) : Bool :=
  match i with
  | .BranchInstr cond _ => !cond.test r
  | .SpecialInstr _ _ => false
  | _ => true

theorem effect_pc (V : Variant) (i : Instr) (a : Arch) (h : i.fallsThrough a.regs = true) :
    (i.effect V a).regs.pc = a.regs.pc + BitVec.ofNat 16 i.consumed := by
  cases i with
  | ReadInstr op mode =>
    obtain ⟨_, _, _, _, _, _, _, _, hkeeps, _⟩ :=
      op.apply_keeps V (a.mem (mode.address a)) (mode.consume a).regs
    simp only [effect, hkeeps]
    rfl
  | WriteInstr op mode => rfl
  | RmwInstr op mode =>
    obtain ⟨_, _, _, _, _, hkeeps⟩ :=
      op.apply_keeps V (a.mem (mode.address a)) (mode.consume a).regs
    simp only [effect, hkeeps]
    rfl
  | AccumInstr op mode =>
    obtain ⟨_, _, _, _, _, hkeeps⟩ := op.apply_keeps V a.regs.a a.regs
    simp only [effect, hkeeps]
    exact (BitVec.add_zero _).symm
  | ImpliedInstr op mode =>
    cases op <;> exact (BitVec.add_zero _).symm
  | BranchInstr cond mode =>
    have htest : cond.test a.regs = false := by simpa [fallsThrough] using h
    simp only [effect, htest]
    rfl
  | UnstableStoreInstr op mode =>
    obtain ⟨_, hkeeps, _⟩ := op.value_keeps (mode.toOperandMode.consume a).regs
      (page (mode.toOperandMode.base a))
    simp only [effect, unstableStore, hkeeps]
    rfl
  | SpecialInstr op mode => cases h

end Instr

/-- **Lengths.** The table gives every opcode the operand bytes that its execution
consumes, except that it leaves out the padding byte of BRK. -/
theorem instructionLength_add (op : U8) :
    instructionLength op + (instr op).isBreak.toNat = 1 + (instr op).consumed := by
  have hrow := row_of_all (P := fun r =>
    r.instr.mode.operandBytes + r.instr.isBreak.toNat = r.instr.consumed) (by decide +kernel) op
  rw [instructionLength, Nat.add_assoc]
  exact congrArg (1 + ·) hrow

/-- The address that the disassembler puts after the instruction at `pc`. -/
theorem disassembleMemory_next (mem : Memory) (pc : U16) :
    (disassembleMemory mem pc).2 = pc + BitVec.ofNat 16 (instructionLength (mem pc)) := by
  rw [instructionLength, BitVec.ofNat_add, ← BitVec.add_assoc]
  rfl

/-- The addresses that a linear disassembly visits from `pc` on, when it looks at the
memory `mems i` for its instruction number `i`. -/
def linearSweep (mems : ℕ → Memory) (pc : U16) : ℕ → U16 :=
  orbit (fun i pc => (disassembleMemory (mems i) pc).2) pc

namespace Machine

variable {β : Type} [PlainMemory β]

section continuation

variable (V : Variant) (host : ℕ → List PinCall) (m : Machine β NullHooks)

/-- Step `u` undoes the push of step `t`: it is the pull of the same pair, with the stack
pointer back where the push left it and the pushed bytes intact. -/
structure Undoes (t u : ℕ) : Prop where
  later : t < u
  pair : ∃ pair, m.stackWord V host t = .opening pair ∧ m.stackWord V host u = .closing pair
  pointer : (m.pinnedSteps V host u).cpu.regs.s = (m.pinnedSteps V host (t + 1)).cpu.regs.s
  intact : stackBytes (m.pinnedSteps V host u).arch.mem (m.pinnedSteps V host u).cpu.regs.s
      (m.pushedAt V host t).length =
    stackBytes (m.pinnedSteps V host (t + 1)).arch.mem (m.pinnedSteps V host (t + 1)).cpu.regs.s
      (m.pushedAt V host t).length

/-- The code of the instruction that step `t` executes goes on in line at step `t'`:
right after it, or after the RTS or RTI that undoes a JSR or a BRK. A taken branch, a
jump and a return do not go on in line. -/
def ContinuesAt (t t' : ℕ) : Prop :=
  ∃ op, (m.pinnedSteps V host t).stepKind = .instruction op ∧
    match instr op with
    | .BranchInstr cond _ => cond.test (m.pinnedSteps V host t).cpu.regs = false ∧ t' = t + 1
    | .SpecialInstr .JSR _ | .SpecialInstr .BRK _ => ∃ u, m.Undoes V host t u ∧ t' = u + 1
    | .SpecialInstr _ _ => False
    | _ => t' = t + 1

/-- The linear disassembly from the instruction of step `times 0` on, looking at memory
as it is before each of the steps `times i`. -/
def sweepAlong (times : ℕ → ℕ) : ℕ → U16 :=
  linearSweep (fun i => (m.pinnedSteps V host (times i)).arch.mem)
    (m.pinnedSteps V host (times 0)).cpu.regs.pc

end continuation

variable {V : Variant} {host : ℕ → List PinCall} {m : Machine β NullHooks}

/-- A pull that undoes a push restores what their pair promises. -/
theorem Undoes.restores {t u : ℕ} (h : m.Undoes V host t u) :
    ∃ pair, m.stackWord V host t = .opening pair ∧
      pair.Restores ((m.pinnedSteps V host t).stepKind.executes Instr.isBreak)
        (m.pinnedSteps V host t).cpu.regs (m.pinnedSteps V host (u + 1)).cpu.regs := by
  obtain ⟨pair, hopen, hclose⟩ := h.pair
  obtain ⟨hsaved, hpulls, hloads⟩ := StepKind.of_opening hopen (m.pinnedSteps V host t).arch
  have hlength : (m.pushedAt V host t).length = pair.size := length_pushedAt hopen
  have hroom : (m.pushedAt V host t).length + 0 ≤ 256 := by
    rw [hlength]
    cases pair <;> decide
  have hpushed := (m.pinnedSteps V host t).stepKind.stackBytes_effect V
    (m.pinnedSteps V host t).arch hloads hpulls.le hroom fun _ _ _ hlive => absurd hlive.2 (by
      simp [RingStack.Live])
  refine ⟨pair, hopen, ?_⟩
  rw [pinnedSteps_succ_regs]
  refine StepKind.restores V hclose ?_
  rw [← hlength]
  refine h.intact.trans ?_
  rw [pinnedSteps_succ_regs, pinnedSteps_succ_arch]
  rw [hpulls] at hpushed
  exact hpushed.trans ((List.append_nil _).trans hsaved)

/-- An instruction that falls through leaves the program counter past its bytes. -/
theorem pc_of_fallsThrough {t : ℕ} {op : U8}
    (hkind : (m.pinnedSteps V host t).stepKind = .instruction op)
    (h : (instr op).fallsThrough (m.pinnedSteps V host t).cpu.regs = true) :
    (m.pinnedSteps V host (t + 1)).cpu.regs.pc =
      (m.pinnedSteps V host t).cpu.regs.pc + 1 + BitVec.ofNat 16 (instr op).consumed := by
  have hregs : (m.pinnedSteps V host (t + 1)).cpu.regs =
      ((instr op).effect V ((m.pinnedSteps V host t).arch.advance 1)).regs := by
    rw [pinnedSteps_succ_regs, hkind]
    rfl
  have hadvance :
      (instr op).fallsThrough ((m.pinnedSteps V host t).arch.advance 1).regs = true := by
    rw [← h]
    cases instr op with
    | BranchInstr cond mode => cases cond <;> rfl
    | _ => rfl
  rw [hregs, (instr op).effect_pc V _ hadvance]
  rfl

/-- **Continuation.** Where the code goes on in line, the program counter is past the
bytes that the instruction consumes. -/
theorem ContinuesAt.pc {t t' : ℕ} (h : m.ContinuesAt V host t t') :
    (m.pinnedSteps V host t').cpu.regs.pc =
      (m.pinnedSteps V host t).cpu.regs.pc + 1 +
        BitVec.ofNat 16 (instr ((m.pinnedSteps V host t).arch.mem
          (m.pinnedSteps V host t).cpu.regs.pc)).consumed := by
  obtain ⟨op, hkind, hcontinues⟩ := h
  rw [mem_pc_of_instruction hkind]
  have hword : m.stackWord V host t = (instr op).bracket := by rw [stackWord, hkind]; rfl
  cases hinstr : instr op with
  | SpecialInstr sop mode =>
    rw [hinstr] at hcontinues hword
    cases sop with
    | JSR =>
      obtain ⟨u, hu, rfl⟩ := hcontinues
      obtain ⟨pair, hopen, hrestores⟩ := hu.restores
      cases hword.symm.trans hopen
      exact hrestores.trans (BitVec.add_assoc _ 1 2).symm
    | BRK =>
      obtain ⟨u, hu, rfl⟩ := hcontinues
      obtain ⟨pair, hopen, hrestores⟩ := hu.restores
      cases hword.symm.trans hopen
      have hbreak : (m.pinnedSteps V host t).stepKind.executes Instr.isBreak = true := by
        rw [hkind, StepKind.executes, hinstr]
        rfl
      rw [hrestores.2, hbreak]
      exact (BitVec.add_assoc _ 1 1).symm
    | _ => exact hcontinues.elim
  | BranchInstr cond mode =>
    rw [hinstr] at hcontinues
    obtain ⟨htest, rfl⟩ := hcontinues
    rw [← hinstr]
    refine pc_of_fallsThrough hkind ?_
    rw [hinstr, Instr.fallsThrough, htest]
    rfl
  | _ =>
    rw [hinstr] at hcontinues
    subst hcontinues
    rw [← hinstr]
    refine pc_of_fallsThrough hkind ?_
    rw [hinstr]
    rfl

/-- The continuation is the disassembler's next address exactly when the instruction is
no BRK. -/
theorem ContinuesAt.next_iff {t t' : ℕ} (h : m.ContinuesAt V host t t') :
    (m.pinnedSteps V host t').cpu.regs.pc =
        (disassembleMemory (m.pinnedSteps V host t).arch.mem
          (m.pinnedSteps V host t).cpu.regs.pc).2 ↔
      (m.pinnedSteps V host t).stepKind.executes Instr.isBreak = false := by
  have hpc := h.pc
  obtain ⟨op, hkind, _⟩ := h
  have hlength : 1 + BitVec.ofNat 16 (instr op).consumed =
      BitVec.ofNat 16 (instructionLength op) + BitVec.ofNat 16 (instr op).isBreak.toNat := by
    rw [← BitVec.ofNat_add, instructionLength_add, BitVec.ofNat_add]
    rfl
  rw [hpc, disassembleMemory_next, mem_pc_of_instruction hkind, hkind, StepKind.executes,
    BitVec.add_assoc, hlength]
  cases (instr op).isBreak <;> simp [← BitVec.add_assoc]

/-- **Linear disassembly.** The place where an instruction's code goes on in line is the
disassembler's next address exactly when the instruction is no BRK; and in a run of
any length whose instructions at one level each go on in line, the addresses executed at
that level are the successive next addresses exactly when no BRK is among them. -/
theorem linear_disassembly_iff (V : Variant) (host : ℕ → List PinCall) (m : Machine β NullHooks) :
    (∀ t t', m.ContinuesAt V host t t' →
      ((m.pinnedSteps V host t').cpu.regs.pc =
          (disassembleMemory (m.pinnedSteps V host t).arch.mem
            (m.pinnedSteps V host t).cpu.regs.pc).2 ↔
        (m.pinnedSteps V host t).stepKind.executes Instr.isBreak = false)) ∧
    ∀ (times : ℕ → ℕ) (n : ℕ), (∀ i < n, m.ContinuesAt V host (times i) (times (i + 1))) →
      ((∀ i ≤ n, (m.pinnedSteps V host (times i)).cpu.regs.pc = m.sweepAlong V host times i) ↔
        ∀ i < n, (m.pinnedSteps V host (times i)).stepKind.executes Instr.isBreak = false) := by
  refine ⟨fun t t' h => h.next_iff, fun times n hchain => ⟨fun hsweep i hi => ?_, fun hbreak => ?_⟩⟩
  · rw [← (hchain i hi).next_iff, hsweep i hi.le, hsweep (i + 1) hi]
    rfl
  · intro i hi
    induction i with
    | zero => rfl
    | succ i ih =>
      rw [((hchain i hi).next_iff).mpr (hbreak i hi), ih (by omega)]
      rfl

/-- `JSR $0410` across the end of memory: the RTS goes on at the disassembler's `$0001`. -/
theorem linear_disassembly_jsr :
    let code : List (U16 × U8) := [(0xFFFE, 0x20), (0xFFFF, 0x10), (0x0000, 0x04), (0x0410, 0x60)]
    let m : Machine FlatBus NullHooks :=
      fresh { pc := 0xFFFE } { memory := fun a => (code.lookup a).getD 0xEA }
    (m.pinnedSteps Nmos6502 (fun _ => []) 2).cpu.regs.pc =
      (disassembleMemory m.arch.mem m.cpu.regs.pc).2 := by
  intro code m
  have hundoes : m.Undoes Nmos6502 (fun _ => []) 0 1 :=
    ⟨by decide, ⟨.call, by decide +kernel, by decide +kernel⟩, by decide +kernel,
      by decide +kernel⟩
  have hinstr : instr 0x20 = .SpecialInstr .JSR .Absolute := by decide +kernel
  have hcontinues : m.ContinuesAt Nmos6502 (fun _ => []) 0 2 := by
    refine ⟨0x20, by decide +kernel, ?_⟩
    rw [hinstr]
    exact ⟨1, hundoes, rfl⟩
  have hnext := ((linear_disassembly_iff Nmos6502 (fun _ => []) m).1 0 2 hcontinues).mpr
    (by decide +kernel)
  rwa [pinnedSteps_zero] at hnext

/-- A BRK at `$0400` goes on at `$0402`, where the disassembler has `$0401`. -/
theorem not_linear_disassembly_brk :
    ¬ ∀ (m : Machine FlatBus NullHooks) (host : ℕ → List PinCall) (t t' : ℕ),
      m.ContinuesAt Nmos6502 host t t' →
        (m.pinnedSteps Nmos6502 host t').cpu.regs.pc =
          (disassembleMemory (m.pinnedSteps Nmos6502 host t).arch.mem
            (m.pinnedSteps Nmos6502 host t).cpu.regs.pc).2 := by
  intro h
  let code : List (U16 × U8) := [(0x0400, 0x00), (0x0410, 0x40), (0xFFFE, 0x10), (0xFFFF, 0x04)]
  let m : Machine FlatBus NullHooks :=
    fresh { pc := 0x0400 } { memory := fun a => (code.lookup a).getD 0xEA }
  have hundoes : m.Undoes Nmos6502 (fun _ => []) 0 1 :=
    ⟨by decide, ⟨.interrupt, by decide +kernel, by decide +kernel⟩, by decide +kernel,
      by decide +kernel⟩
  have hinstr : instr 0x00 = .SpecialInstr .BRK .Implied := by decide +kernel
  have hcontinues : m.ContinuesAt Nmos6502 (fun _ => []) 0 2 := by
    refine ⟨0x00, by decide +kernel, ?_⟩
    rw [hinstr]
    exact ⟨1, hundoes, rfl⟩
  exact absurd (h m (fun _ => []) 0 2 hcontinues) (by decide +kernel)

end Machine

end Mos6502
