import Mos6502.Latches
import Mos6502.PlainStep
import Mos6502.QuietOperations

/-!
# Undocumented opcodes on the CMOS part

On the CMOS part the undocumented opcodes are meant to be NOPs, but the dispatcher
never looks at the trait that says so: both variants execute the NMOS operation. A
step with an undocumented opcode therefore acts as a NOP only when that operation
happens to change nothing, and the opcodes that jam the NMOS part jam this one too.
-/

namespace Mos6502

open Effects

/-- When an undocumented instruction acts as a NOP on the CMOS part, in the state after
its opcode fetch: the NOPs always do, a read operation does when it is quiet on its
operand, and a store, a read-modify-write or a JAM never does. -/
def Instr.Quiet (i : Instr) (a : Arch) : Prop :=
  match i with
  | .ReadInstr op mode => op.Quiet (a.mem (mode.address a)) a.regs
  | .ImpliedInstr .NOP _ => True
  | _ => False

/-- The instructions behind the undocumented opcodes. -/
def Instr.isUndocumented : Instr → Bool
  | .ReadInstr op _ => op.hasUndocumented
  | .WriteInstr .SAX _ | .RmwInstr _ _ | .UnstableStoreInstr _ _ | .ImpliedInstr .NOP _
  | .SpecialInstr .JAM _ => true
  | _ => false

theorem isUndocumented_instr {op : U8} (h : (row op).documented = false) :
    (instr op).isUndocumented = true := by
  have hrow := row_of_all (P := fun r => r.documented = false → r.instr.isUndocumented = true)
    (by decide +kernel) op
  exact hrow h

namespace Machine

variable {β : Type} [PlainMemory β]

/-- The next step changes no register but the program counter, no flag and no memory
byte, writes nothing to the bus, and does not jam. -/
structure StepsAsNop (V : Variant) (m : Machine β NullHooks) : Prop where
  regs : ∃ pc, (m.stepMachine V).cpu.regs = { m.cpu.regs with pc }
  memory : PlainMemory.memory (m.stepMachine V).bus = PlainMemory.memory m.bus
  writes : ∀ addr value, BusAccess.write addr value ∉ m.stepAccesses V
  jammed : (m.stepMachine V).cpu.jammed = false

section step

variable {m : Machine β NullHooks} {op : U8}

/-- An instruction that writes is no NOP. -/
theorem not_stepsAsNop_of_write (hkind : m.stepKind = .instruction op)
    (hwrite : ∃ addr value, .write addr value ∈ (instr op).accesses Cmos65C02 (m.arch.advance 1)) :
    ¬ m.StepsAsNop Cmos65C02 := by
  obtain ⟨addr, value, hmem⟩ := hwrite
  intro h
  refine h.writes addr value ?_
  rw [stepAccesses_eq, hkind]
  exact List.mem_cons_of_mem _ hmem

/-- A read instruction is a NOP exactly when its operation changes nothing. -/
theorem stepsAsNop_readInstr {rop : ReadOp} {mode : OperandMode}
    (hkind : m.stepKind = .instruction op) (hinstr : instr op = .ReadInstr rop mode)
    (hop : rop.hasUndocumented = true) :
    m.StepsAsNop Cmos65C02 ↔
      rop.Quiet ((m.arch.advance 1).mem (mode.address (m.arch.advance 1))) m.cpu.regs := by
  let a := m.arch.advance 1
  let value := a.mem (mode.address a)
  let r := (mode.consume a).regs
  have harch : (m.stepMachine Cmos65C02).arch = ⟨rop.apply Cmos65C02 value r, a.mem⟩ := by
    rw [stepMachine_arch, hkind, StepKind.effect, hinstr]
    rfl
  have hregs : (m.stepMachine Cmos65C02).cpu.regs = rop.apply Cmos65C02 value r :=
    congrArg Arch.regs harch
  have hquiet : rop.apply Cmos65C02 value r = r ↔ rop.Quiet value m.cpu.regs :=
    (rop.apply_eq_self_iff hop value r).trans (rop.quiet_pc value m.cpu.regs r.pc)
  rw [← hquiet]
  constructor
  · rintro ⟨⟨pc, hpc⟩, _, _, _⟩
    obtain ⟨_, _, _, _, _, _, _, _, hkeeps, _⟩ := rop.apply_keeps Cmos65C02 value r
    rw [hregs] at hpc
    have hpc' : pc = r.pc := by
      rw [hkeeps] at hpc
      exact (congrArg Registers.pc hpc).symm
    rw [hpc, hpc']
    rfl
  · intro happly
    refine ⟨⟨r.pc, by rw [hregs, happly]; rfl⟩, congrArg Arch.mem harch, ?_, ?_⟩
    · intro addr v hmem
      rw [stepAccesses_eq, hkind, StepKind.accesses, hinstr] at hmem
      simp only [Instr.accesses, List.mem_cons, List.mem_append, mode.write_notMem_reads, Arch.rd,
        reduceCtorEq, List.not_mem_nil, or_self] at hmem
    · rw [step_jams, hkind, StepKind.jams, hinstr]
      rfl

/-- **NOPs on the CMOS part.** A step with an undocumented opcode acts as a NOP exactly
when its instruction is quiet. -/
theorem stepsAsNop_iff_quiet (hkind : m.stepKind = .instruction op)
    (hop : (row op).documented = false) :
    m.StepsAsNop Cmos65C02 ↔ (instr op).Quiet (m.arch.advance 1) := by
  have hundocumented := isUndocumented_instr hop
  cases hinstr : instr op with
  | ReadInstr rop mode =>
    rw [hinstr] at hundocumented
    rw [stepsAsNop_readInstr hkind hinstr hundocumented]
    exact (rop.quiet_pc _ m.cpu.regs (m.cpu.regs.pc + 1)).symm
  | WriteInstr wop mode =>
    refine iff_of_false (not_stepsAsNop_of_write hkind ?_) id
    rw [hinstr]
    exact ⟨_, _, List.mem_append_right _ List.mem_cons_self⟩
  | RmwInstr mop mode =>
    refine iff_of_false (not_stepsAsNop_of_write hkind ?_) id
    rw [hinstr]
    exact ⟨_, _, List.mem_append_right _
      (List.mem_cons_of_mem _ (List.mem_cons_of_mem _ List.mem_cons_self))⟩
  | UnstableStoreInstr uop mode =>
    refine iff_of_false (not_stepsAsNop_of_write hkind ?_) id
    rw [hinstr]
    exact ⟨_, _, List.mem_append_right _ List.mem_cons_self⟩
  | ImpliedInstr iop mode =>
    rw [hinstr] at hundocumented
    cases iop with
    | NOP =>
      have harch : (m.stepMachine Cmos65C02).arch = m.arch.advance 1 := by
        rw [stepMachine_arch, hkind, StepKind.effect, hinstr]
        rfl
      refine iff_of_true ⟨⟨_, congrArg Arch.regs harch⟩, congrArg Arch.mem harch, ?_, ?_⟩ trivial
      · intro addr value hmem
        rw [stepAccesses_eq, hkind, StepKind.accesses, hinstr] at hmem
        simp [Instr.accesses, ImpliedOp.accesses, Arch.rd] at hmem
      · rw [step_jams, hkind, StepKind.jams, hinstr]
        rfl
    | _ => cases hundocumented
  | SpecialInstr sop mode =>
    rw [hinstr] at hundocumented
    cases sop with
    | JAM =>
      refine iff_of_false (fun h => ?_) id
      have hjammed := h.jammed
      rw [step_jams, hkind, StepKind.jams, hinstr] at hjammed
      cases hjammed
    | _ => cases hundocumented
  | AccumInstr mop mode | BranchInstr cond mode =>
    rw [hinstr] at hundocumented
    cases hundocumented

end step

/-- A run jams exactly when it executes a JAM. -/
theorem jammed_iff_noJam (V : Variant) (host : ℕ → List PinCall) {m : Machine β NullHooks}
    (hstart : m.cpu.jammed = false) (n : ℕ) :
    (m.pinnedSteps V host n).cpu.jammed = false ↔ m.NoJam V host n :=
  ⟨NoJam.of_running, fun h => h.jammed hstart⟩

/-- **Undocumented opcodes on the CMOS part.** A step with an undocumented opcode acts
as a NOP exactly when its instruction is quiet on the state after the opcode fetch;
in a run whose undocumented steps all are, each acts as a NOP and nothing jams; and a
run ends up jammed exactly when it executes a JAM. -/
theorem cmos_undocumented_iff :
    (∀ (m : Machine β NullHooks) (op : U8), m.stepKind = .instruction op →
      (row op).documented = false →
      (m.StepsAsNop Cmos65C02 ↔ (instr op).Quiet (m.arch.advance 1))) ∧
    ∀ (host : ℕ → List PinCall) (m : Machine β NullHooks), m.cpu.jammed = false → ∀ n,
      ((m.pinnedSteps Cmos65C02 host n).cpu.jammed = false ↔ m.NoJam Cmos65C02 host n) ∧
      ((∀ k < n, ∀ op, (m.pinnedBefore Cmos65C02 host k).stepKind = .instruction op →
          (row op).documented = false →
          (instr op).Quiet ((m.pinnedBefore Cmos65C02 host k).arch.advance 1)) →
        (m.pinnedSteps Cmos65C02 host n).cpu.jammed = false ∧
          ∀ k < n, ∀ op, (m.pinnedBefore Cmos65C02 host k).stepKind = .instruction op →
            (row op).documented = false →
            (m.pinnedBefore Cmos65C02 host k).StepsAsNop Cmos65C02) := by
  refine ⟨fun m op => stepsAsNop_iff_quiet, fun host m hstart n => ?_⟩
  refine ⟨jammed_iff_noJam Cmos65C02 host hstart n, fun hquiet => ⟨?_, ?_⟩⟩
  · rw [jammed_iff_noJam Cmos65C02 host hstart n]
    intro k hk
    cases hkind : (m.pinnedBefore Cmos65C02 host k).stepKind with
    | jammed | nmi | irq => rfl
    | instruction op =>
      cases hjams : (instr op).jams with
      | false => exact hjams
      | true =>
        -- A JAM is undocumented and never quiet.
        have hdoc : (row op).documented = false := by
          have hrow := row_of_all (P := fun r => r.instr.jams = true → r.documented = false)
            (by decide +kernel) op
          exact hrow hjams
        have h := hquiet k hk op hkind hdoc
        obtain ⟨mode, hmode⟩ := Instr.eq_of_jams hjams
        rw [hmode] at h
        exact h.elim
  · intro k hk op hkind hop
    exact (stepsAsNop_iff_quiet hkind hop).mpr (hquiet k hk op hkind hop)

/-- `NOP` at `$1A` on the CMOS part. -/
theorem cmos_undocumented_nop :
    (fresh {} { memory := fun _ => 0x1A : FlatBus }).StepsAsNop Cmos65C02 :=
  (cmos_undocumented_iff.1 (fresh {} { memory := fun _ => 0x1A : FlatBus }) 0x1A rfl
    (by decide +kernel)).mpr trivial

/-- The opcode `$02` jams the CMOS part, as it does the NMOS one. -/
theorem not_stepsAsNop_jam :
    ¬ ∀ (m : Machine FlatBus NullHooks) (op : U8), m.stepKind = .instruction op →
      (row op).documented = false → m.StepsAsNop Cmos65C02 := by
  intro h
  have hjammed := (h (fresh {} { memory := fun _ => 0x02 }) 0x02 rfl (by decide +kernel)).jammed
  exact absurd hjammed (by decide +kernel)

end Machine

end Mos6502
