import Mos6502.Cycles
import Mos6502.Latches

/-!
# The two variants in lock-step

On flat memory the NMOS and the CMOS part go through the same states as long as a run
stays clear of what separates them: the indirect jump through the end of a page and
the decimal flag at an interrupt entry. Their cycle counts differ by the one cycle that
the corrected indirect jump costs.
-/

namespace Mos6502

open Effects

/-! ### Effects of the two variants -/

theorem ReadOp.apply_variant (op : ReadOp) (value : U8) (r : Registers) :
    op.apply Cmos65C02 value r = op.apply Nmos6502 value r := by
  cases op <;> rfl

theorem RmwOp.apply_variant (op : RmwOp) (value : U8) (r : Registers) :
    op.apply Cmos65C02 value r = op.apply Nmos6502 value r := by
  cases op <;> rfl

theorem interruptEffect_variant {a : Arch} (hd : a.regs.d = false) (isBreak : Bool) (vector : U16) :
    interruptEffect Cmos65C02 isBreak vector a = interruptEffect Nmos6502 isBreak vector a := by
  cases isBreak <;> simp [interruptEffect, Cmos65C02, Nmos6502, Arch.advance, hd]

/-- Away from the end of a page both variants fetch the same pointer bytes. -/
theorem jmpIndHigh_variant {ptr : U16} (hptr : offset ptr ≠ 0xFF) :
    jmpIndHigh Cmos65C02 ptr = jmpIndHigh Nmos6502 ptr := by
  have hlt : ptr.toNat % 256 ≠ 255 := by
    intro h
    apply hptr
    apply BitVec.eq_of_toNat_eq
    simpa using h
  have hptr := ptr.isLt
  have hone : (1 : U16).toNat = 1 := rfl
  have hpage : page (ptr + 1) = page ptr := by
    apply BitVec.eq_of_toNat_eq
    rw [toNat_page, toNat_page, BitVec.toNat_add, hone]
    omega
  change ptr + 1 = word (offset (ptr + 1)) (page ptr)
  rw [← hpage, word_offset_page]

/-- What a step may not run into if the variants are to agree: only documented opcodes,
no indirect jump through a pointer at the end of a page, and no entry with D set. -/
def StepKind.Comparable (kind : StepKind) (a : Arch) : Prop :=
  match kind with
  | .jammed => True
  | .nmi | .irq => a.regs.d = false
  | .instruction op =>
    (row op).documented = true ∧ ((instr op).isBreak = true → a.regs.d = false) ∧
      (∀ mode, instr op = .SpecialInstr .JMP_IND mode → (a.advance 1).lo ≠ 0xFF)

theorem Instr.effect_variant {i : Instr} {a : Arch} (hbreak : i.isBreak = true → a.regs.d = false)
    (hjmp : ∀ mode, i = .SpecialInstr .JMP_IND mode → a.lo ≠ 0xFF) :
    i.effect Cmos65C02 a = i.effect Nmos6502 a := by
  cases i with
  | ReadInstr op mode => simp only [effect, ReadOp.apply_variant]
  | RmwInstr op mode | AccumInstr op mode => simp only [effect, RmwOp.apply_variant]
  | SpecialInstr op mode =>
    cases op with
    | BRK => exact interruptEffect_variant (hbreak rfl) true kIrqVector
    | JMP_IND =>
      have hoffset : offset (word a.lo a.hi) ≠ 0xFF := by
        rw [offset_word]
        exact hjmp mode rfl
      simp only [effect, SpecialOp.effect, jmpIndHigh_variant hoffset]
    | _ => rfl
  | _ => rfl

theorem StepKind.effect_variant {kind : StepKind} {a : Arch} (h : kind.Comparable a) :
    kind.effect Cmos65C02 a = kind.effect Nmos6502 a := by
  cases kind with
  | jammed => rfl
  | nmi | irq => exact interruptEffect_variant h false _
  | instruction op => exact Instr.effect_variant h.2.1 h.2.2

/-- Whether a step executes an indirect jump. -/
def StepKind.jumpsIndirect (kind : StepKind) : Bool :=
  kind.executes fun i => match i with
    | .SpecialInstr .JMP_IND _ => true
    | _ => false

theorem StepKind.cycles_variant (kind : StepKind) (a : Arch) :
    kind.cycles Cmos65C02 a = kind.cycles Nmos6502 a + kind.jumpsIndirect.toNat := by
  cases kind with
  | jammed | nmi | irq => rfl
  | instruction op =>
    simp only [cycles, jumpsIndirect, executes]
    cases instr op with
    | SpecialInstr sop mode => cases sop <;> rfl
    | _ => rfl

/-! ### Runs -/

namespace Machine

/-- Equal registers, latches, pins and memory: all but the cycle counters. -/
structure SameState (m₁ m₂ : Machine FlatBus NullHooks) : Prop where
  regs : m₁.cpu.regs = m₂.cpu.regs
  jammed : m₁.cpu.jammed = m₂.cpu.jammed
  pins : m₁.cpu.pins = m₂.cpu.pins
  pendingNmi : m₁.cpu.pendingNmi = m₂.cpu.pendingNmi
  pendingIrq : m₁.cpu.pendingIrq = m₂.cpu.pendingIrq
  pollI : m₁.cpu.pollI = m₂.cpu.pollI
  memory : m₁.bus.memory = m₂.bus.memory

namespace SameState

variable {m₁ m₂ : Machine FlatBus NullHooks}

theorem arch (h : SameState m₁ m₂) : m₁.arch = m₂.arch := Arch.ext h.regs h.memory

theorem stepKind (h : SameState m₁ m₂) : m₁.stepKind = m₂.stepKind := by
  unfold Machine.stepKind
  rw [h.jammed, h.pendingNmi, h.pendingIrq, opcode_eq, opcode_eq, h.arch, h.regs]

theorem pinCalls (h : SameState m₁ m₂) (cs : List PinCall) :
    SameState (m₁.pinCalls cs) (m₂.pinCalls cs) := by
  rw [pinCalls_eq, pinCalls_eq]
  exact ⟨h.regs, h.jammed, by simp only [h.pins], h.pendingNmi, h.pendingIrq, h.pollI, h.memory⟩

/-- **One step.** The variants agree after a step that keeps clear of their differences. -/
theorem stepMachine (h : SameState m₁ m₂) (hcomp : m₁.stepKind.Comparable m₁.arch) :
    SameState (m₁.stepMachine Nmos6502) (m₂.stepMachine Cmos65C02) := by
  have harch : (m₁.stepMachine Nmos6502).arch = (m₂.stepMachine Cmos65C02).arch := by
    rw [stepMachine_arch, stepMachine_arch, ← h.stepKind, ← h.arch, StepKind.effect_variant hcomp]
  have hregs : (m₁.stepMachine Nmos6502).cpu.regs = (m₂.stepMachine Cmos65C02).cpu.regs :=
    congrArg Arch.regs harch
  have hmemory : (m₁.stepMachine Nmos6502).bus.memory = (m₂.stepMachine Cmos65C02).bus.memory :=
    congrArg Arch.mem harch
  have hjams : (m₁.stepMachine Nmos6502).cpu.jammed = (m₂.stepMachine Cmos65C02).cpu.jammed := by
    rw [step_jams, step_jams, h.stepKind]
  cases hjammed : m₁.cpu.jammed with
  | true =>
    -- A jammed step moves only the cycle counter: flat memory makes no pin calls.
    obtain ⟨_, _, _, h₁⟩ := step_of_jammed Nmos6502 m₁ hjammed
    obtain ⟨_, _, _, h₂⟩ := step_of_jammed Cmos65C02 m₂ (h.jammed ▸ hjammed)
    rw [stepPinCalls_silent] at h₁ h₂
    refine ⟨hregs, hjams, ?_, ?_, ?_, ?_, hmemory⟩ <;> rw [h₁, h₂]
    · exact h.pins
    · exact h.pendingNmi
    · exact h.pendingIrq
    · exact h.pollI
  | false =>
    have hjammed₂ : m₂.cpu.jammed = false := h.jammed ▸ hjammed
    have hpollI : (m₁.stepMachine Nmos6502).cpu.pollI = (m₂.stepMachine Cmos65C02).cpu.pollI := by
      rw [step_pollI _ m₁ hjammed, step_pollI _ m₂ hjammed₂, hregs, h.stepKind, h.regs]
    refine ⟨hregs, hjams, ?_, ?_, ?_, hpollI, hmemory⟩
    · rw [step_pins _ m₁ hjammed, step_pins _ m₂ hjammed₂]
      simp only [stepPinCalls_silent, h.pins]
    · rw [step_pendingNmi _ m₁ hjammed, step_pendingNmi _ m₂ hjammed₂]
      simp only [stepPinCalls_silent, h.pins]
    · rw [step_pendingIrq _ m₁ hjammed, step_pendingIrq _ m₂ hjammed₂, hpollI]
      simp only [stepPinCalls_silent, h.pins, h.pendingNmi, h.pendingIrq]

end SameState

/-- **The variants in lock-step.** From equal registers, latches, pins and memory and
under the same pin schedule, both variants are in the same state after every step of a
run that keeps clear of their differences, and each step takes the same number of
cycles on both but for an indirect jump, which takes one more on the CMOS part. -/
theorem variants_lockstep (host : ℕ → List PinCall) {m₁ m₂ : Machine FlatBus NullHooks}
    (hsame : SameState m₁ m₂) (n : ℕ)
    (hcomp : ∀ k < n, (m₁.pinnedBefore Nmos6502 host k).stepKind.Comparable
      (m₁.pinnedBefore Nmos6502 host k).arch) :
    SameState (m₁.pinnedSteps Nmos6502 host n) (m₂.pinnedSteps Cmos65C02 host n) ∧
      ∀ k < n, ((m₂.pinnedBefore Cmos65C02 host k).step Cmos65C02).1.toNat =
        ((m₁.pinnedBefore Nmos6502 host k).step Nmos6502).1.toNat +
          (m₁.pinnedBefore Nmos6502 host k).stepKind.jumpsIndirect.toNat := by
  have hstate (k : ℕ) (hk : k ≤ n) :
      SameState (m₁.pinnedSteps Nmos6502 host k) (m₂.pinnedSteps Cmos65C02 host k) := by
    induction k with
    | zero => exact hsame
    | succ k ih =>
      rw [pinnedSteps_succ, pinnedSteps_succ]
      exact ((ih (by omega)).pinCalls (host k)).stepMachine (hcomp k hk)
  refine ⟨hstate n le_rfl, fun k hk => ?_⟩
  have hbefore : SameState (m₁.pinnedBefore Nmos6502 host k) (m₂.pinnedBefore Cmos65C02 host k) :=
    (hstate k (by omega)).pinCalls (host k)
  rw [step_toNat_eq_cycles, step_toNat_eq_cycles, ← hbefore.stepKind, ← hbefore.arch,
    StepKind.cycles_variant]

/-- `JMP ($1234)` on both variants. -/
theorem variants_lockstep_jmp :
    let mem : Memory := fun a => if a = 0 then 0x6C else if a = 1 then 0x34 else 0x12
    let m : Machine FlatBus NullHooks := fresh {} { memory := mem }
    (m.step Cmos65C02).1.toNat = (m.step Nmos6502).1.toNat + 1 := by
  intro mem m
  have hsame : SameState m m := ⟨rfl, rfl, rfl, rfl, rfl, rfl, rfl⟩
  have h := (variants_lockstep (fun _ => []) hsame 1 ?_).2 0 Nat.zero_lt_one
  · exact h.trans (by decide +kernel)
  · intro k hk
    obtain rfl : k = 0 := by omega
    change StepKind.Comparable (.instruction 0x6C) _
    refine ⟨by decide +kernel, by decide +kernel, fun mode _ => by decide +kernel⟩

end Machine

end Mos6502
