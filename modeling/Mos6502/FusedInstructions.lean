import Mos6502.PlainStep

/-!
# Fused instructions

The undocumented instructions do the work of two documented ones on the same operand. Each
fused operation is the two operations one after the other, and an operand resolves to the
same address the second time unless the first instruction stored into the bytes that it is
resolved from.
-/

namespace Mos6502

/-- The two operations that a fused read-modify-write operation stands for. -/
def RmwOp.fusion : RmwOp → Option (RmwOp × ReadOp)
  | .SLO => some (.ASL, .ORA)
  | .RLA => some (.ROL, .AND)
  | .SRE => some (.LSR, .EOR)
  | .RRA => some (.ROR, .ADC)
  | .DCP => some (.DEC, .CMP)
  | .ISC => some (.INC, .SBC)
  | .ASL | .LSR | .ROL | .ROR | .INC | .DEC => none

/-- A fused operation is its two operations one after the other. -/
theorem RmwOp.fusion_apply {fused shift : RmwOp} {alu : ReadOp}
    (h : fused.fusion = some (shift, alu)) (V : Variant) (value : U8) (r : Registers) :
    fused.apply V value r =
      ((shift.apply V value r).1,
        alu.apply V (shift.apply V value r).1 (shift.apply V value r).2) := by
  cases fused with
  | SLO | RLA | SRE | RRA | DCP | ISC =>
    obtain ⟨rfl, rfl⟩ := Prod.mk.inj (Option.some.inj h)
    rfl
  | ASL | LSR | ROL | ROR | INC | DEC => cases h

namespace OperandMode

/-- The addresses that an operand is resolved from: its own bytes, and the pointer in page
zero that the indirect modes dereference. -/
def sources (mode : OperandMode) (a : Arch) : List U16 :=
  (match mode with
    | .Immediate | .ZeroPage | .ZeroPageX | .ZeroPageY | .IndirectX | .IndirectY => [a.regs.pc]
    | .Absolute | .AbsoluteX | .AbsoluteY => [a.regs.pc, a.regs.pc + 1]) ++
  match mode with
    | .IndirectX => [(a.lo + a.regs.x).setWidth 16, (a.lo + a.regs.x + 1).setWidth 16]
    | .IndirectY => [a.lo.setWidth 16, (a.lo + 1).setWidth 16]
    | .Immediate | .ZeroPage | .ZeroPageX | .ZeroPageY | .Absolute | .AbsoluteX | .AbsoluteY => []

/-- An operand resolves to the same address when nothing that it is resolved from changed. -/
theorem address_congr (mode : OperandMode) {a a' : Arch} (hpc : a'.regs.pc = a.regs.pc)
    (hx : a'.regs.x = a.regs.x) (hy : a'.regs.y = a.regs.y)
    (hmem : ∀ addr ∈ mode.sources a, a'.mem addr = a.mem addr) :
    mode.address a' = mode.address a := by
  cases mode <;>
    simp_all [sources, address, base, Arch.lo, Arch.hi, Arch.zeroPageWord]

end OperandMode

/-- Move the program counter back to the operand of the instruction. -/
def Arch.back (a : Arch) (pc : U16) : Arch := { a with regs := { a.regs with pc } }

section effect

variable (V : Variant) (mode : OperandMode) (a : Arch)

/-- **The operand a second time.** After an instruction that keeps X and Y, and stores nowhere
that its operand comes from, a read instruction on the same operand reads the same address. -/
theorem read_again (op : ReadOp) {b : Arch} (hpc : b.regs.pc = (mode.consume a).regs.pc)
    (hx : b.regs.x = a.regs.x) (hy : b.regs.y = a.regs.y)
    (hmem : ∀ addr ∈ mode.sources a, b.mem addr = a.mem addr) :
    (Instr.ReadInstr op mode).effect V (b.back a.regs.pc) =
      { b with regs := op.apply V (b.mem (mode.address a)) b.regs } := by
  have haddr : mode.address (b.back a.regs.pc) = mode.address a :=
    mode.address_congr rfl hx hy hmem
  have hconsumed : (mode.consume (b.back a.regs.pc)).regs = b.regs := by
    change { b.regs with pc := (mode.consume a).regs.pc } = b.regs
    rw [← hpc]
  simp only [Instr.effect]
  rw [haddr, hconsumed]
  rfl

theorem fused_rmw {fused shift : RmwOp} {alu : ReadOp} (h : fused.fusion = some (shift, alu))
    (hsources : mode.address a ∉ mode.sources a) :
    (Instr.RmwInstr fused mode).effect V a =
      (Instr.ReadInstr alu mode).effect V
        (((Instr.RmwInstr shift mode).effect V a).back a.regs.pc) := by
  have hkeeps (value : U8) (r : Registers) : (shift.apply V value r).2.pc = r.pc ∧
      (shift.apply V value r).2.x = r.x ∧ (shift.apply V value r).2.y = r.y := by
    obtain ⟨acc, c, v, z, n, h⟩ := shift.apply_keeps V value r
    rw [h]
    exact ⟨rfl, rfl, rfl⟩
  obtain ⟨hpc, hx, hy⟩ := hkeeps (a.mem (mode.address a)) (mode.consume a).regs
  rw [read_again V mode a alu (b := (Instr.RmwInstr shift mode).effect V a) hpc hx hy]
  · simp only [Instr.effect, Function.update_self, RmwOp.fusion_apply h]
  · intro addr haddr
    exact Function.update_of_ne (ne_of_mem_of_not_mem haddr hsources) _ _

theorem lax_read :
    (Instr.ReadInstr .LAX mode).effect V a =
      (Instr.ReadInstr .LDX mode).effect V
        (((Instr.ReadInstr .LDA mode).effect V a).back a.regs.pc) := by
  rw [read_again V mode a .LDX (b := (Instr.ReadInstr .LDA mode).effect V a) rfl rfl rfl
    fun _ _ => rfl]
  rfl

theorem alr_read (accumulator : Mode) :
    (Instr.ReadInstr .ALR mode).effect V a =
      (Instr.AccumInstr .LSR accumulator).effect V
        ((Instr.ReadInstr .AND mode).effect V a) := rfl

end effect

/-- Execute an instruction whose opcode was fetched. -/
def Machine.execInstr {β : Type} [BusLike β] (V : Variant) (i : Instr) (m : Machine β NullHooks) :
    Machine β NullHooks := (m.exec (i.execute V)).2

/-- Move the program counter back to the operand of the instruction. -/
def Machine.back {β : Type} (pc : U16) (m : Machine β NullHooks) : Machine β NullHooks :=
  { m with cpu := { m.cpu with regs := { m.cpu.regs with pc } } }

/-- **Fused instructions.** Each of the undocumented instructions leaves the registers, the
flags and the memory that its two documented ones leave, when the second one starts again at
the operand and the first one did not store into what the operand is resolved from. -/
theorem fused_instructions (V : Variant) {β : Type} [PlainMemory β] (m : Machine β NullHooks)
    (mode : OperandMode) :
    (∀ fused shift alu, fused.fusion = some (shift, alu) →
      (m.exec (mode.effective .ReadModifyWrite)).1 ∉ mode.sources m.arch →
      (m.execInstr V (.RmwInstr fused mode)).arch =
        (((m.execInstr V (.RmwInstr shift mode)).back m.cpu.regs.pc).execInstr V
          (.ReadInstr alu mode)).arch) ∧
    (m.execInstr V (.ReadInstr .LAX mode)).arch =
      (((m.execInstr V (.ReadInstr .LDA mode)).back m.cpu.regs.pc).execInstr V
        (.ReadInstr .LDX mode)).arch ∧
    (m.execInstr V (.ReadInstr .ALR mode)).arch =
      ((m.execInstr V (.ReadInstr .AND mode)).execInstr V
        (.AccumInstr .LSR .Accumulator)).arch := by
  have heffect (i : Instr) (m : Machine β NullHooks) : (m.execInstr V i).arch = i.effect V m.arch :=
    m.exec_execute_arch V i
  have hback (pc : U16) (m : Machine β NullHooks) : (m.back pc).arch = m.arch.back pc := rfl
  refine ⟨fun fused shift alu h hsources => ?_, ?_, ?_⟩
  · rw [Machine.exec_effective] at hsources
    rw [heffect, heffect, hback, heffect]
    exact fused_rmw V mode m.arch h hsources
  · rw [heffect, heffect, hback, heffect]
    exact lax_read V mode m.arch
  · rw [heffect, heffect, heffect]
    exact alr_read V mode m.arch .Accumulator

/-- ISC `$10` in decimal mode, with `$0F` at `$0010`. -/
theorem fused_instructions_isc :
    let m : Machine FlatBus NullHooks :=
      { cpu := { regs := { a := 0x20, pc := 0x0201, c := true, d := true } }
        bus := { memory := fun addr => if addr = 0x0201 then 0x10 else 0x0F }
        hooks := {} }
    (m.execInstr Nmos6502 (.RmwInstr .ISC .ZeroPage)).arch =
      (((m.execInstr Nmos6502 (.RmwInstr .INC .ZeroPage)).back 0x0201).execInstr Nmos6502
        (.ReadInstr .SBC .ZeroPage)).arch := by
  intro m
  exact (fused_instructions Nmos6502 m .ZeroPage).1 .ISC .INC .SBC rfl (by decide)

end Mos6502
