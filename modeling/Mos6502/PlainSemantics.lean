import Mos6502.Architecture

/-!
# Policies over plain memory

A second reading of the policies: over plain memory, where a read returns the byte
stored and every access is put on a trace. The main result, `exec_execute`, is
that each instruction has exactly the effect and the accesses that the
programmer's model gives it.
-/

namespace Mos6502

open Effects

/-- What a policy can see and change when its bus is plain memory. -/
@[ext] structure Plain where
  regs : Registers
  mem : Memory
  trace : List BusAccess
  jammed : Bool
  pollI : Bool

namespace Plain

def handle : Program.Handler CpuCall.Result Plain
  | .regs, s => (s.regs, s)
  | .setRegs r, s => ((), { s with regs := r })
  | .read addr, s => (s.mem addr, { s with trace := s.trace ++ [.read addr (s.mem addr)] })
  | .write addr value, s =>
    ((), { s with
      mem := Function.update s.mem addr value, trace := s.trace ++ [.write addr value] })
  | .jam, s => ((), { s with jammed := true })
  | .pollImmediate, s => ((), { s with pollI := s.regs.i })

def exec {α : Type} (p : Policy α) (s : Plain) : α × Plain := p.run handle s

def arch (s : Plain) : Arch := { regs := s.regs, mem := s.mem }

/-- Move to the state `a` by the accesses `accs`. -/
def advanceTo (s : Plain) (a : Arch) (accs : List BusAccess) : Plain :=
  { s with regs := a.regs, mem := a.mem, trace := s.trace ++ accs }

section primitives

variable (s : Plain)

@[simp] theorem exec_pure {α : Type} (a : α) : exec (pure a) s = (a, s) := rfl

@[simp] theorem exec_bind {α γ : Type} (p : Policy α) (f : α → Policy γ) :
    exec (p >>= f) s = exec (f (exec p s).1) (exec p s).2 := Program.run_bind _ _ _ _

@[simp] theorem exec_regs : exec Policy.regs s = (s.regs, s) := rfl

@[simp] theorem exec_setRegs (r : Registers) :
    exec (Policy.setRegs r) s = ((), { s with regs := r }) := rfl

@[simp] theorem exec_modifyRegs (f : Registers → Registers) :
    exec (Policy.modifyRegs f) s = ((), { s with regs := f s.regs }) := rfl

@[simp] theorem exec_read (addr : U16) :
    exec (Policy.read addr) s =
      (s.mem addr, { s with trace := s.trace ++ [.read addr (s.mem addr)] }) := rfl

@[simp] theorem exec_write (addr : U16) (value : U8) :
    exec (Policy.write addr value) s =
      ((), { s with
        mem := Function.update s.mem addr value, trace := s.trace ++ [.write addr value] }) := rfl

@[simp] theorem exec_jam : exec Policy.jam s = ((), { s with jammed := true }) := rfl

@[simp] theorem exec_pollImmediate :
    exec Policy.pollImmediate s = ((), { s with pollI := s.regs.i }) := rfl

@[simp] theorem exec_readIf (condition : Bool) (addr : U16) :
    exec (Policy.readIf condition addr) s =
      ((), { s with trace := s.trace ++ (if condition then [s.arch.rd addr] else []) }) := by
  cases condition <;> simp [Policy.readIf, Arch.rd, arch]

@[simp] theorem exec_fetch :
    exec Policy.fetch s =
      (s.arch.lo, s.advanceTo (s.arch.advance 1) [s.arch.rd s.regs.pc]) := rfl

@[simp] theorem exec_push (value : U8) :
    exec (Policy.push value) s =
      ((), s.advanceTo (s.arch.push value) [.write (stackAddr s.regs.s) value]) := rfl

@[simp] theorem exec_pull :
    exec Policy.pull s =
      (s.mem (s.arch.pulled 1), s.advanceTo (s.arch.drop 1) [s.arch.rd (s.arch.pulled 1)]) := rfl

@[simp] theorem exec_peekStack :
    exec Policy.peekStack s =
      (s.mem (stackAddr s.regs.s), s.advanceTo s.arch [s.arch.rd (stackAddr s.regs.s)]) := rfl

@[simp] theorem arch_advanceTo (a : Arch) (accs : List BusAccess) :
    (s.advanceTo a accs).arch = a := rfl

@[simp] theorem advanceTo_advanceTo (a b : Arch) (accs accs' : List BusAccess) :
    (s.advanceTo a accs).advanceTo b accs' = s.advanceTo b (accs ++ accs') := by
  simp [advanceTo]

theorem exec_fetchWord :
    exec Policy.fetchWord s =
      (word s.arch.lo s.arch.hi,
        s.advanceTo (s.arch.advance 2) [s.arch.rd s.regs.pc, s.arch.rd (s.regs.pc + 1)]) := by
  simp only [Policy.fetchWord, exec_bind, exec_fetch, exec_pure, advanceTo_advanceTo,
    arch_advanceTo]
  simp [Arch.lo, Arch.hi, Arch.advance, Arch.rd, advanceTo, arch, BitVec.add_assoc]

theorem exec_readZeroPageWord (zp : U8) :
    exec (Policy.readZeroPageWord zp) s =
      (s.arch.zeroPageWord zp,
        s.advanceTo s.arch [s.arch.rd (zp.setWidth 16), s.arch.rd ((zp + 1).setWidth 16)]) := by
  simp [Policy.readZeroPageWord, Arch.zeroPageWord, Arch.rd, advanceTo, arch]

/-- The entry to an interrupt service. -/
theorem exec_interruptSequence (V : Variant) (isBreak : Bool) (vector : U16) :
    exec (Policy.interruptSequence V isBreak vector) s =
      ((), s.advanceTo (interruptEffect V isBreak vector s.arch)
        (interruptAccesses V isBreak vector s.arch)) := by
  have hpack (r : Registers) (pc : U16) (sp : U8) :
      Registers.pack { r with pc := pc, s := sp } isBreak = r.pack isBreak := rfl
  cases isBreak <;>
    simp [Policy.interruptSequence, interruptEffect, interruptAccesses, advanceTo, arch, Arch.rd,
      Arch.push, Arch.advance, BitVec.sub_sub, hpack]

end primitives

/-! ### Addressing modes -/

section modes

variable (A : Access) (s : Plain)

theorem exec_indexed (base : U16) (index : U8) :
    exec (indexed A base index) s =
      ({ base, addr := base + index.setWidth 16 },
        s.advanceTo s.arch
          (if A != .Read || crossesPage base (base + index.setWidth 16) then
            [s.arch.rd (unfixed base (base + index.setWidth 16))] else [])) := by
  simp only [indexed, mask_or_mask, exec_bind, exec_readIf, exec_pure]
  rfl

/-- Resolving an indexed mode yields its base and its effective address. -/
theorem exec_resolve (mode : IndexedMode) :
    exec (mode.resolve A) s =
      ({ base := mode.toOperandMode.base s.arch, addr := mode.toOperandMode.address s.arch },
        s.advanceTo (mode.toOperandMode.consume s.arch) (mode.toOperandMode.reads A s.arch)) := by
  cases mode <;>
    simp [IndexedMode.resolve, IndexedMode.toOperandMode, absoluteIndexed, indirectY,
      OperandMode.address, exec_fetchWord, exec_readZeroPageWord, exec_indexed,
      OperandMode.consume, OperandMode.reads, OperandMode.operandReads, OperandMode.pointerReads,
      OperandMode.fixupReads, OperandMode.paysFixup, OperandMode.crosses, OperandMode.toMode,
      Mode.operandBytes, OperandMode.base, advanceTo, arch, Arch.advance, Arch.rd, Arch.lo,
      Arch.hi, Arch.zeroPageWord]

/-- An indexed mode may also be asked for its effective address alone. -/
private theorem exec_resolve_addr (mode : IndexedMode) :
    exec (do
      let e ← mode.resolve A
      pure e.addr) s =
      (mode.toOperandMode.address s.arch,
        s.advanceTo (mode.toOperandMode.consume s.arch) (mode.toOperandMode.reads A s.arch)) := by
  rw [exec_bind, exec_resolve, exec_pure]

/-- Resolving a mode yields its effective address, at the cost of its reads. -/
theorem exec_effective (mode : OperandMode) :
    exec (mode.effective A) s =
      (mode.address s.arch, s.advanceTo (mode.consume s.arch) (mode.reads A s.arch)) := by
  cases mode with
  | AbsoluteX => exact exec_resolve_addr A s .AbsoluteX
  | AbsoluteY => exact exec_resolve_addr A s .AbsoluteY
  | IndirectY => exact exec_resolve_addr A s .IndirectY
  | Immediate | ZeroPage | ZeroPageX | ZeroPageY | Absolute | IndirectX =>
    simp [OperandMode.effective, zeroPageIndexed, indirectX, OperandMode.address, exec_fetchWord,
      exec_readZeroPageWord, OperandMode.consume, OperandMode.reads, OperandMode.operandReads,
      OperandMode.pointerReads, OperandMode.fixupReads, OperandMode.paysFixup,
      OperandMode.crosses, OperandMode.toMode, Mode.operandBytes, OperandMode.base, advanceTo,
      arch, Arch.advance, Arch.rd, Arch.lo, Arch.hi, Arch.zeroPageWord]

end modes

/-! ### Instructions -/

/-- The state after an instruction, as the programmer's model gives it. -/
def after (V : Variant) (i : Instr) (s : Plain) : Plain :=
  { s.advanceTo (i.effect V s.arch) (i.accesses V s.arch) with
    jammed := s.jammed || i.jams
    pollI := if i.pollsImmediately then (i.effect V s.arch).regs.i else s.pollI }

/-- The state after an instruction that neither jams nor polls. -/
theorem after_eq {V : Variant} {i : Instr} {s : Plain} (hjams : i.jams = false)
    (hpolls : i.pollsImmediately = false) :
    s.after V i = s.advanceTo (i.effect V s.arch) (i.accesses V s.arch) := by
  simp [after, hjams, hpolls, advanceTo]

section instructions

variable (V : Variant) (s : Plain)

private theorem exec_readInstr (op : ReadOp) (mode : OperandMode) :
    exec (readInstr V op mode) s = ((), s.after V (.ReadInstr op mode)) := by
  rw [after_eq rfl rfl]
  simp [readInstr, exec_effective, Instr.effect, Instr.accesses, advanceTo, arch, Arch.rd,
    OperandMode.consume, Arch.advance]

private theorem exec_writeInstr (op : WriteOp) (mode : OperandMode) :
    exec (writeInstr op mode) s = ((), s.after V (.WriteInstr op mode)) := by
  have hvalue : op.value (mode.consume s.arch).regs = op.value s.arch.regs := by cases op <;> rfl
  rw [after_eq rfl rfl]
  simp [writeInstr, exec_effective, Instr.effect, Instr.accesses, advanceTo, hvalue, Arch.store]

/-- The dummy write-back of the old value leaves memory as it was. -/
private theorem exec_rmwInstr (op : RmwOp) (mode : OperandMode) :
    exec (rmwInstr V op mode) s = ((), s.after V (.RmwInstr op mode)) := by
  rw [after_eq rfl rfl]
  cases h : V.rmwDummyWriteBack <;>
    simp [rmwInstr, exec_effective, Instr.effect, Instr.accesses, advanceTo, arch, Arch.rd,
      OperandMode.consume, Arch.advance, h]

private theorem exec_accumInstr (op : RmwOp) (mode : Mode) :
    exec (accumInstr V op) s = ((), s.after V (.AccumInstr op mode)) := by
  rw [after_eq rfl rfl]
  simp [accumInstr, Instr.effect, Instr.accesses, advanceTo, arch, Arch.rd]

private theorem exec_impliedInstr (op : ImpliedOp) (mode : Mode) :
    exec (impliedInstr op) s = ((), s.after V (.ImpliedInstr op mode)) := by
  rw [after_eq rfl rfl]
  cases op <;>
    simp [impliedInstr, ImpliedOp.apply, Instr.effect, Instr.accesses, ImpliedOp.effect,
      ImpliedOp.accesses, ImpliedOp.update, advanceTo, arch, Arch.rd, Arch.push, Arch.pulled,
      Arch.drop]

private theorem exec_branchInstr (cond : BranchOp) (mode : Mode) :
    exec (branchInstr cond) s = ((), s.after V (.BranchInstr cond mode)) := by
  have htest (r : Registers) (pc : U16) : cond.test { r with pc } = cond.test r := by
    cases cond <;> rfl
  rw [after_eq rfl rfl]
  simp only [branchInstr, takeBranch, mask_or_mask]
  cases h : cond.test s.regs with
  | false =>
    simp [htest, h, Instr.effect, Instr.accesses, advanceTo, arch, Arch.rd, Arch.advance,
      Arch.lo]
  | true =>
    simp [htest, h, branchTarget, unfixed, Instr.effect, Instr.accesses, advanceTo, arch,
      Arch.rd, Arch.advance, Arch.jump, Arch.lo]
    rfl

private theorem exec_unstableStoreInstr (op : UnstableStoreOp) (mode : IndexedMode) :
    exec (unstableStoreInstr op mode) s = ((), s.after V (.UnstableStoreInstr op mode)) := by
  rw [after_eq rfl rfl]
  simp only [unstableStoreInstr, shift_or_mask]
  simp [exec_resolve, unstableStore, Instr.effect, Instr.accesses, advanceTo, arch,
    OperandMode.consume, Arch.advance]
  exact ⟨rfl, rfl⟩

private theorem exec_specialInstr (op : SpecialOp) (mode : Mode) :
    exec (op.execute V) s = ((), s.after V (.SpecialInstr op mode)) := by
  cases op with
  | JMP_IND =>
    rw [after_eq rfl rfl]
    simp only [SpecialOp.execute, Special.jmpInd, mask_or_mask]
    cases h : V.jmpIndirectPageBug <;>
      simp [h, exec_fetchWord, Instr.effect, Instr.accesses, SpecialOp.effect, SpecialOp.accesses,
        jmpIndHigh, advanceTo, arch, Arch.rd, Arch.jump, Arch.advance, Arch.lo, Arch.hi]
  | _ =>
    simp [SpecialOp.execute, Special.brk, Special.jsr, Special.rts, Special.rti, Special.jmpAbs,
      Special.jam, exec_interruptSequence, exec_fetchWord, after, Instr.effect, Instr.accesses,
      Instr.jams, Instr.pollsImmediately, SpecialOp.effect, SpecialOp.accesses, jsrPushed,
      Registers.unpack, advanceTo, arch, Arch.rd, Arch.push, Arch.pulled, Arch.drop, Arch.jump,
      Arch.advance, Arch.lo, Arch.hi, BitVec.add_assoc]

/-- **The policies implement the programmer's model.** Over plain memory, an
instruction has exactly the effect and the accesses of its specification. -/
theorem exec_execute (i : Instr) : exec (i.execute V) s = ((), s.after V i) := by
  cases i with
  | ReadInstr op mode => exact exec_readInstr V s op mode
  | WriteInstr op mode => exact exec_writeInstr V s op mode
  | RmwInstr op mode => exact exec_rmwInstr V s op mode
  | AccumInstr op mode => exact exec_accumInstr V s op mode
  | ImpliedInstr op mode => exact exec_impliedInstr V s op mode
  | BranchInstr cond mode => exact exec_branchInstr V s cond mode
  | UnstableStoreInstr op mode => exact exec_unstableStoreInstr V s op mode
  | SpecialInstr op mode => exact exec_specialInstr V s op mode

end instructions

/-- A policy stores only into the addresses that it writes. -/
theorem exec_frame {α : Type} (p : Policy α) (s : Plain) :
    ∃ accs, (exec p s).2.trace = s.trace ++ accs ∧
      ∀ addr, (∀ value, .write addr value ∉ accs) → (exec p s).2.mem addr = s.mem addr := by
  refine Program.run_frame (R := fun s s' : Plain => ∃ accs, s'.trace = s.trace ++ accs ∧
    ∀ addr, (∀ value, .write addr value ∉ accs) → s'.mem addr = s.mem addr)
    (fun s => ⟨[], by simp⟩) ?_ ?_ p s
  · rintro s t u ⟨accs, htrace, hframe⟩ ⟨accs', htrace', hframe'⟩
    refine ⟨accs ++ accs', by rw [htrace', htrace, List.append_assoc], fun addr hnot => ?_⟩
    rw [hframe' addr fun value hmem => hnot value (List.mem_append_right _ hmem),
      hframe addr fun value hmem => hnot value (List.mem_append_left _ hmem)]
  · intro c s
    cases c with
    | write addr value =>
      refine ⟨[.write addr value], rfl, fun addr' hnot => Function.update_of_ne ?_ _ _⟩
      rintro rfl
      exact hnot value List.mem_cons_self
    | read addr => exact ⟨_, rfl, fun _ _ => rfl⟩
    | regs | setRegs _ | jam | pollImmediate => exact ⟨[], by simp [handle], fun _ _ => rfl⟩

end Plain

/-- **Frame.** An instruction stores only into the addresses that it writes. -/
theorem Instr.effect_frame (V : Variant) (i : Instr) (a : Arch) {addr : U16}
    (h : ∀ value, .write addr value ∉ i.accesses V a) :
    (i.effect V a).mem addr = a.mem addr := by
  obtain ⟨accs, htrace, hframe⟩ :=
    Plain.exec_frame (i.execute V) ⟨a.regs, a.mem, [], false, false⟩
  rw [Plain.exec_execute] at htrace hframe
  have haccs : i.accesses V a = accs := htrace
  exact hframe addr (haccs ▸ h)

end Mos6502
