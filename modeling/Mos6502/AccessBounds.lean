import Mos6502.StepSpec

/-!
# How many accesses a step makes on any bus

The number of accesses of a step depends on the bytes that the bus answers, which
choose the opcode and whether a page is crossed. Whatever they are, a step makes at
least one access and at most eleven.
-/

namespace Mos6502

open Effects

/-! ### Counting the accesses of a policy -/

namespace Tally

/-- The calls of a policy as far as the number of accesses goes. -/
def spec : Program.Spec CpuCall.Result ℕ
  | .read _, n, _, n' => n' = n + 1
  | .write _ _, n, _, n' => n' = n + 1
  | .regs, n, _, n' => n' = n
  | .setRegs _, n, _, n' => n' = n
  | .jam, n, _, n' => n' = n
  | .pollImmediate, n, _, n' => n' = n

/-- `Q` holds of the count after every run of the policy, whatever it reads. -/
def Holds {α : Type} (p : Policy α) (n : ℕ) (Q : α → ℕ → Prop) : Prop :=
  Program.Holds spec p n Q

section rules

variable {α γ : Type} (n : ℕ)

@[simp] theorem holds_pure (a : α) (Q : α → ℕ → Prop) : Holds (pure a) n Q ↔ Q a n := Iff.rfl

@[simp] theorem holds_bind (p : Policy α) (f : α → Policy γ) (Q : γ → ℕ → Prop) :
    Holds (p >>= f) n Q ↔ Holds p n fun a n' => Holds (f a) n' Q := Program.holds_bind ..

@[simp] theorem holds_regs (Q : Registers → ℕ → Prop) :
    Holds Policy.regs n Q ↔ ∀ r, Q r n := by
  simp [Holds, Policy.regs, spec]

@[simp] theorem holds_setRegs (r : Registers) (Q : Unit → ℕ → Prop) :
    Holds (Policy.setRegs r) n Q ↔ Q () n :=
  ⟨fun h => h () _ rfl, fun h _ _ heq => heq ▸ h⟩

@[simp] theorem holds_modifyRegs (f : Registers → Registers) (Q : Unit → ℕ → Prop) :
    Holds (Policy.modifyRegs f) n Q ↔ Q () n := by
  simp only [Policy.modifyRegs, holds_bind, holds_regs, holds_setRegs]
  exact ⟨fun h => h {}, fun h _ => h⟩

@[simp] theorem holds_read (addr : U16) (Q : U8 → ℕ → Prop) :
    Holds (Policy.read addr) n Q ↔ ∀ value, Q value (n + 1) := by
  simp [Holds, Policy.read, spec]

@[simp] theorem holds_write (addr : U16) (value : U8) (Q : Unit → ℕ → Prop) :
    Holds (Policy.write addr value) n Q ↔ Q () (n + 1) :=
  ⟨fun h => h () _ rfl, fun h _ _ heq => heq ▸ h⟩

@[simp] theorem holds_jam (Q : Unit → ℕ → Prop) : Holds Policy.jam n Q ↔ Q () n :=
  ⟨fun h => h () _ rfl, fun h _ _ heq => heq ▸ h⟩

@[simp] theorem holds_pollImmediate (Q : Unit → ℕ → Prop) :
    Holds Policy.pollImmediate n Q ↔ Q () n :=
  ⟨fun h => h () _ rfl, fun h _ _ heq => heq ▸ h⟩

end rules

/-- A conditional read counts for one or for none. -/
theorem holds_readIf {condition : Bool} {addr : U16} {n : ℕ} {Q : Unit → ℕ → Prop}
    (h : ∀ n', n ≤ n' → n' ≤ n + 1 → Q () n') : Holds (Policy.readIf condition addr) n Q := by
  cases condition with
  | false => exact h n le_rfl (by omega)
  | true =>
    simp only [Policy.readIf, if_true, holds_bind, holds_read, holds_pure]
    exact fun _ => h (n + 1) (by omega) le_rfl

theorem holds_indexed {A : Access} {base : U16} {index : U8} {n : ℕ} {Q : Effective → ℕ → Prop}
    (h : ∀ e n', n ≤ n' → n' ≤ n + 1 → Q e n') : Holds (indexed A base index) n Q := by
  simp only [indexed, holds_bind, holds_pure]
  exact holds_readIf fun n' => h _ n'

theorem holds_absoluteIndexed {A : Access} {index : Registers → U8} {n : ℕ}
    {Q : Effective → ℕ → Prop} (h : ∀ e n', n ≤ n' → n' ≤ n + 4 → Q e n') :
    Holds (absoluteIndexed A index) n Q := by
  simp only [absoluteIndexed, Policy.fetchWord, Policy.fetch, holds_bind, holds_regs,
    holds_setRegs, holds_read, holds_pure]
  intro _ _ _ _ _
  exact holds_indexed fun e n' hlo hhi => h e n' (by omega) (by omega)

theorem holds_indirectY {A : Access} {n : ℕ} {Q : Effective → ℕ → Prop}
    (h : ∀ e n', n ≤ n' → n' ≤ n + 4 → Q e n') : Holds (indirectY A) n Q := by
  simp only [indirectY, Policy.fetch, Policy.readZeroPageWord, holds_bind, holds_regs,
    holds_setRegs, holds_read, holds_pure]
  intro _ _ _ _ _
  exact holds_indexed fun e n' hlo hhi => h e n' (by omega) (by omega)

/-- Resolving a mode takes at most four accesses. -/
theorem holds_effective {A : Access} {mode : OperandMode} {n : ℕ} {Q : U16 → ℕ → Prop}
    (h : ∀ addr n', n ≤ n' → n' ≤ n + 4 → Q addr n') : Holds (mode.effective A) n Q := by
  cases mode with
  | AbsoluteX | AbsoluteY => exact (holds_bind ..).mpr (holds_absoluteIndexed fun e => h e.addr)
  | IndirectY => exact (holds_bind ..).mpr (holds_indirectY fun e => h e.addr)
  | _ =>
    simp only [OperandMode.effective, zeroPageIndexed, indirectX, Policy.fetch, Policy.fetchWord,
      Policy.readZeroPageWord, holds_bind, holds_regs, holds_setRegs, holds_read, holds_pure]
    intros
    exact h _ _ (by omega) (by omega)

theorem holds_resolve {A : Access} {mode : IndexedMode} {n : ℕ} {Q : Effective → ℕ → Prop}
    (h : ∀ e n', n ≤ n' → n' ≤ n + 4 → Q e n') : Holds (mode.resolve A) n Q := by
  cases mode with
  | AbsoluteX | AbsoluteY => exact holds_absoluteIndexed h
  | IndirectY => exact holds_indirectY h

/-- The entry to an interrupt service takes at most seven accesses. -/
theorem holds_interruptSequence (V : Variant) (isBreak : Bool) (vector : U16) (n : ℕ) :
    Holds (Policy.interruptSequence V isBreak vector) n fun _ n' => n < n' ∧ n' ≤ n + 7 := by
  cases isBreak <;> simp [Policy.interruptSequence, Policy.push, Policy.fetch] <;> omega

/-- An instruction makes at most ten accesses after its opcode fetch: a JAM makes ten. -/
theorem holds_execute (V : Variant) (i : Instr) (n : ℕ) :
    Holds (i.execute V) n fun _ n' => n ≤ n' ∧ n' ≤ n + 10 := by
  cases i with
  | ReadInstr op mode =>
    refine (holds_bind ..).mpr (holds_effective fun addr n' hlo hhi => ?_)
    simp only [holds_bind, holds_read, holds_modifyRegs]
    exact fun _ => ⟨by omega, by omega⟩
  | WriteInstr op mode =>
    refine (holds_bind ..).mpr (holds_effective fun addr n' hlo hhi => ?_)
    simp only [holds_bind, holds_regs, holds_write]
    exact fun _ => ⟨by omega, by omega⟩
  | RmwInstr op mode =>
    refine (holds_bind ..).mpr (holds_effective fun addr n' hlo hhi => ?_)
    cases V.rmwDummyWriteBack <;> simp <;> omega
  | AccumInstr op mode => simp [Instr.execute, accumInstr]
  | ImpliedInstr op mode =>
    cases op <;>
      simp [Instr.execute, impliedInstr, ImpliedOp.apply, Policy.push, Policy.pull,
        Policy.peekStack] <;> omega
  | BranchInstr cond mode =>
    simp only [Instr.execute, branchInstr, takeBranch, Policy.fetch, holds_bind, holds_regs,
      holds_setRegs, holds_read]
    intro _ _ r
    split
    · simp only [holds_bind, holds_regs, holds_read, holds_modifyRegs]
      exact fun _ _ => holds_readIf fun n' hlo hhi => ⟨by omega, by omega⟩
    · exact ⟨by omega, by omega⟩
  | UnstableStoreInstr op mode =>
    refine (holds_bind ..).mpr (holds_resolve fun e n' hlo hhi => ?_)
    simp only [holds_bind, holds_regs, holds_setRegs, holds_write]
    exact fun _ => ⟨by omega, by omega⟩
  | SpecialInstr op mode =>
    cases op with
    | BRK => exact (holds_interruptSequence V true kIrqVector n).mono fun _ n' h => by omega
    | JMP_IND =>
      simp only [Instr.execute, SpecialOp.execute, Special.jmpInd, Policy.fetchWord, Policy.fetch,
        holds_bind, holds_regs, holds_setRegs, holds_read, holds_pure, holds_modifyRegs]
      intro _ _ _ _ _ _
      exact holds_readIf fun n' hlo hhi _ => ⟨by omega, by omega⟩
    | JSR | RTS | RTI | JMP_ABS | JAM =>
      simp [Instr.execute, SpecialOp.execute, Special.jsr, Special.rts, Special.rti,
        Special.jmpAbs, Special.jam, Policy.fetchWord, Policy.fetch, Policy.peekStack,
        Policy.push, Policy.pull]
      try omega

end Tally

namespace Machine

variable {β : Type}

/-- The number of accesses on the log. -/
def tally (m : Machine (Logged β) NullHooks) : ℕ := (BusEvent.accesses m.bus.log).length

variable [BusLike β]

/-- The count of accesses is sound for every bus. -/
theorem exec_tally {α : Type} {p : Policy α} {m : Machine (Logged β) NullHooks}
    {Q : α → ℕ → Prop} (h : Tally.Holds p m.tally Q) : Q (m.exec p).1 (m.exec p).2.tally := by
  refine Program.run_holds tally (fun c t => ?_) h
  cases c with
  | read addr =>
    obtain ⟨es, haccesses, hgrows⟩ := grows_read addr t
    simp only [Tally.spec, tally, handle, hgrows.log, BusEvent.accesses_append, haccesses,
      List.length_append, List.length_singleton]
  | write addr value =>
    obtain ⟨es, haccesses, hgrows⟩ := grows_write addr value t
    simp only [Tally.spec, tally, handle, hgrows.log, BusEvent.accesses_append, haccesses,
      List.length_append, List.length_singleton]
  | regs | setRegs _ | jam | pollImmediate => rfl

/-- **Bounds.** On any bus a step makes at least one access and at most eleven. -/
theorem length_stepAccesses (V : Variant) (m : Machine β NullHooks) :
    0 < (m.stepAccesses V).length ∧ (m.stepAccesses V).length ≤ 11 := by
  change 0 < (m.logged.stepMachine V).tally ∧ (m.logged.stepMachine V).tally ≤ 11
  have hpoll (t : Machine (Logged β) NullHooks) : t.pollInterrupts.tally = t.tally := rfl
  have hservice (isNmi : Bool) (vector : U16) (t : Machine (Logged β) NullHooks)
      (ht : t.tally = 0) :
      0 < (t.serviceInterrupt V isNmi vector).tally ∧
        (t.serviceInterrupt V isNmi vector).tally ≤ 11 := by
    have h := exec_tally (m := t) (Tally.holds_interruptSequence V false vector t.tally)
    change 0 < (t.exec _).2.tally ∧ (t.exec _).2.tally ≤ 11
    omega
  unfold stepMachine
  split_ifs
  · have h := exec_tally (m := m.logged) (p := Policy.read m.logged.cpu.regs.pc)
      (Q := fun _ n => n = 1) (by simp [tally, logged, BusEvent.accesses])
    change 0 < (m.logged.exec (Policy.read m.logged.cpu.regs.pc)).2.tally ∧
      (m.logged.exec (Policy.read m.logged.cpu.regs.pc)).2.tally ≤ 11
    omega
  · exact hservice _ _ _ rfl
  · exact hservice _ _ _ rfl
  · let f := m.logged.pollImmediate.exec Policy.fetch
    have hfetch : f.2.tally = 1 := exec_tally (m := m.logged.pollImmediate) (p := Policy.fetch)
      (Q := fun _ n => n = 1)
      (by simp [Policy.fetch, tally, logged, pollImmediate, BusEvent.accesses])
    obtain ⟨hlo, hhi⟩ := exec_tally (m := f.2) (Tally.holds_execute V (instr f.1) f.2.tally)
    have hstep : (m.logged.executeInstruction V).tally =
        (f.2.exec ((instr f.1).execute V)).2.tally := by
      rw [executeInstruction, hpoll, dispatch_eq]
      rfl
    rw [hstep]
    exact ⟨by omega, by omega⟩

end Machine

end Mos6502
