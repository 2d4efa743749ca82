import Mos6502.PlainStep
import Mos6502.Runs

/-!
# The bus trace of data accesses

The instructions that read, write or modify an operand share one shape on the bus:
the opcode and operand bytes, the reads of page zero that the mode asks for, a
discarded read at the address whose high byte is not corrected yet, and then the
accesses of the operand itself.
-/

namespace Mos6502

/-- The accesses up to the operand's own: opcode, operand bytes, page zero, and for the
modes that can cross a page, if `fixup` holds, the indexed address with the high byte
of its base. -/
def resolutionTrace (mode : OperandMode) (fixup : Bool) (pc : U16) (a : Arch) :
    List BusAccess :=
  a.rd pc :: (mode.operandReads a ++ mode.pointerReads a ++
    if mode.crosses && fixup then [a.rd (unfixed (mode.base a) (mode.address a))] else [])

theorem resolutionTrace_read (mode : OperandMode) (pc : U16) (a : Arch) :
    a.rd pc :: mode.reads .Read a =
      resolutionTrace mode (decide (page (mode.base a) ≠ page (mode.address a))) pc a := by
  have hcross : crossesPage (mode.base a) (mode.address a) =
      decide (page (mode.base a) ≠ page (mode.address a)) := by
    simp only [← crossesPage_iff, Bool.decide_eq_true]
  simp only [OperandMode.reads, OperandMode.fixupReads, OperandMode.paysFixup, resolutionTrace,
    hcross]
  rfl

theorem resolutionTrace_of_ne {A : Access} (hA : A ≠ .Read) (mode : OperandMode) (pc : U16)
    (a : Arch) : a.rd pc :: mode.reads A a = resolutionTrace mode true pc a := by
  simp [OperandMode.reads, OperandMode.fixupReads, OperandMode.paysFixup, resolutionTrace, hA]

namespace Machine

variable {β : Type} [PlainMemory β]

/-- **Bus trace of data accesses.** On plain memory, an NMOS processor with nothing
pending makes exactly these accesses in a step, in order, where `a` is its state
after the opcode fetch. -/
theorem data_access_trace (m : Machine β NullHooks) (hjammed : m.cpu.jammed = false)
    (hnmi : m.cpu.pendingNmi = false) (hirq : m.cpu.pendingIrq = false) :
    let a := m.arch.advance 1
    let i := instr (m.arch.mem m.cpu.regs.pc)
    (∀ op mode, i = .ReadInstr op mode →
      m.stepAccesses Nmos6502 =
        resolutionTrace mode (decide (page (mode.base a) ≠ page (mode.address a)))
            m.cpu.regs.pc a ++
          [a.rd (mode.address a)]) ∧
    (∀ op mode, i = .WriteInstr op mode →
      m.stepAccesses Nmos6502 =
        resolutionTrace mode true m.cpu.regs.pc a ++ [.write (mode.address a) (op.value a.regs)]) ∧
    ∀ op mode, i = .RmwInstr op mode →
      m.stepAccesses Nmos6502 =
        resolutionTrace mode true m.cpu.regs.pc a ++
          [.read (mode.address a) (a.mem (mode.address a)),
            .write (mode.address a) (a.mem (mode.address a)),
            .write (mode.address a)
              (op.apply Nmos6502 (a.mem (mode.address a)) (mode.consume a).regs).1] := by
  intro a i
  have htrace : m.stepAccesses Nmos6502 = a.rd m.cpu.regs.pc :: i.accesses Nmos6502 a := by
    rw [stepAccesses_eq, stepKind_of_idle_plain hjammed hnmi hirq]
    rfl
  refine ⟨fun op mode hi => ?_, fun op mode hi => ?_, fun op mode hi => ?_⟩
  · rw [htrace, hi, ← resolutionTrace_read]
    rfl
  · rw [htrace, hi, ← resolutionTrace_of_ne (A := .Write) (by decide)]
    rfl
  · rw [htrace, hi, ← resolutionTrace_of_ne (A := .ReadModifyWrite) (by decide)]
    rfl

/-- `INC $12F0,X` across a page: the uncorrected address, then the write-back. -/
theorem data_access_trace_inc :
    (fresh { x := 0x20 } { memory := fun a =>
      if a = 0 then 0xFE else if a = 1 then 0xF0 else if a = 2 then 0x12 else 0x41 : FlatBus }
        ).stepAccesses Nmos6502 =
      [.read 0x0000 0xFE, .read 0x0001 0xF0, .read 0x0002 0x12, .read 0x1210 0x41,
        .read 0x1310 0x41, .write 0x1310 0x41, .write 0x1310 0x42] := by
  refine ((data_access_trace (fresh { x := 0x20 } { memory := fun a =>
    if a = 0 then 0xFE else if a = 1 then 0xF0 else if a = 2 then 0x12 else 0x41 : FlatBus })
      rfl rfl rfl).2.2 .INC .AbsoluteX (by decide +kernel)).trans (by decide +kernel)

end Machine

end Mos6502
