import Mos6502.PlainStep

/-!
# The frame of a step

Which steps may change which piece of state. For each of D, I, V, C, Y, X and S there
is a list of operations that may change it; memory changes only at the addresses that
a step writes. The composite operations reuse the flag helpers, so this is a case
analysis over every operation, lifted to runs with resets and pin calls.
-/

namespace Mos6502

/-! ### Who may change what -/

/-- A set of steps, by the operations that they execute. -/
structure Changers where
  reads : List ReadOp := []
  rmws : List RmwOp := []
  unstable : List UnstableStoreOp := []
  implied : List ImpliedOp := []
  special : List SpecialOp := []
  /-- Whether interrupt services and resets are in the set. -/
  entries : Bool := false

namespace Changers

def has (set : Changers) : Instr → Bool
  | .ReadInstr op _ => set.reads.contains op
  | .RmwInstr op _ | .AccumInstr op _ => set.rmws.contains op
  | .UnstableStoreInstr op _ => set.unstable.contains op
  | .ImpliedInstr op _ => set.implied.contains op
  | .SpecialInstr op _ => set.special.contains op
  | .WriteInstr _ _ | .BranchInstr _ _ => false

def hasStep (set : Changers) : StepKind → Bool
  | .jammed => false
  | .nmi | .irq => set.entries
  | .instruction opcode => set.has (instr opcode)

def hasCall (set : Changers) : HostCall → Bool
  | .pin _ => false
  | .reset => set.entries

/-- The steps that may change D. -/
def ofD : Changers where
  implied := [.SED, .CLD, .PLP]
  special := [.RTI]

/-- The steps that may change I. -/
def ofI : Changers where
  implied := [.SEI, .CLI, .PLP]
  special := [.RTI, .BRK]
  entries := true

/-- The steps that may change V. -/
def ofV : Changers where
  reads := [.BIT, .ADC, .SBC, .ARR]
  rmws := [.RRA, .ISC]
  implied := [.CLV, .PLP]
  special := [.RTI]

/-- The steps that may change C. -/
def ofC : Changers where
  reads := [.ADC, .SBC, .CMP, .CPX, .CPY, .ANC, .ALR, .ARR, .SBX]
  rmws := [.ASL, .LSR, .ROL, .ROR, .SLO, .RLA, .SRE, .RRA, .DCP, .ISC]
  implied := [.CLC, .SEC, .PLP]
  special := [.RTI]

/-- The steps that may change Y. -/
def ofY : Changers where
  reads := [.LDY]
  implied := [.TAY, .INY, .DEY]

/-- The steps that may change X. -/
def ofX : Changers where
  reads := [.LDX, .LAX, .LXA, .SBX, .LAS]
  implied := [.TAX, .TSX, .INX, .DEX]

/-- The steps that may change S. -/
def ofS : Changers where
  reads := [.LAS]
  unstable := [.TAS]
  implied := [.PHA, .PHP, .PLA, .PLP, .TXS]
  special := [.JSR, .RTS, .RTI, .BRK]
  entries := true

end Changers

/-- Every piece of the registers is unchanged unless a step of its set is in `acts`. -/
structure RegsFrame (acts : Changers → Prop) (r r' : Registers) : Prop where
  d : ¬ acts .ofD → r'.d = r.d
  i : ¬ acts .ofI → r'.i = r.i
  v : ¬ acts .ofV → r'.v = r.v
  c : ¬ acts .ofC → r'.c = r.c
  y : ¬ acts .ofY → r'.y = r.y
  x : ¬ acts .ofX → r'.x = r.x
  s : ¬ acts .ofS → r'.s = r.s

namespace RegsFrame

variable {acts acts' : Changers → Prop} {r r' r'' : Registers}

theorem refl (acts : Changers → Prop) (r : Registers) : RegsFrame acts r r :=
  ⟨fun _ => rfl, fun _ => rfl, fun _ => rfl, fun _ => rfl, fun _ => rfl, fun _ => rfl, fun _ => rfl⟩

theorem trans (h : RegsFrame acts r r') (h' : RegsFrame acts' r' r'') :
    RegsFrame (fun set => acts set ∨ acts' set) r r'' where
  d hnot := (h'.d fun ha => hnot (.inr ha)).trans (h.d fun ha => hnot (.inl ha))
  i hnot := (h'.i fun ha => hnot (.inr ha)).trans (h.i fun ha => hnot (.inl ha))
  v hnot := (h'.v fun ha => hnot (.inr ha)).trans (h.v fun ha => hnot (.inl ha))
  c hnot := (h'.c fun ha => hnot (.inr ha)).trans (h.c fun ha => hnot (.inl ha))
  y hnot := (h'.y fun ha => hnot (.inr ha)).trans (h.y fun ha => hnot (.inl ha))
  x hnot := (h'.x fun ha => hnot (.inr ha)).trans (h.x fun ha => hnot (.inl ha))
  s hnot := (h'.s fun ha => hnot (.inr ha)).trans (h.s fun ha => hnot (.inl ha))

theorem mono (h : RegsFrame acts r r') (hsub : ∀ set, acts set → acts' set) :
    RegsFrame acts' r r' where
  d hnot := h.d fun ha => hnot (hsub _ ha)
  i hnot := h.i fun ha => hnot (hsub _ ha)
  v hnot := h.v fun ha => hnot (hsub _ ha)
  c hnot := h.c fun ha => hnot (hsub _ ha)
  y hnot := h.y fun ha => hnot (hsub _ ha)
  x hnot := h.x fun ha => hnot (hsub _ ha)
  s hnot := h.s fun ha => hnot (hsub _ ha)

/-- What the arithmetic helpers change: V and C are in a set, the rest is in none. -/
theorem of_arithmetic {a : U8} {c v z n : Bool} (hv : acts .ofV) (hc : acts .ofC)
    (r : Registers) : RegsFrame acts r { r with a, c, v, z, n } :=
  ⟨fun _ => rfl, fun _ => rfl, fun h => absurd hv h, fun h => absurd hc h, fun _ => rfl,
    fun _ => rfl, fun _ => rfl⟩

/-- The program counter and the accumulator are in no set. -/
theorem of_pc_a (h : RegsFrame acts r r') (pc : U16) (a : U8) :
    RegsFrame acts r { r' with pc, a } :=
  ⟨h.d, h.i, h.v, h.c, h.y, h.x, h.s⟩

/-- Consuming operand bytes moves the program counter alone. -/
theorem of_advance {a : Arch} {k : ℕ} (h : RegsFrame acts (a.advance k).regs r') :
    RegsFrame acts a.regs r' :=
  ⟨h.d, h.i, h.v, h.c, h.y, h.x, h.s⟩

end RegsFrame

section operations

variable (V : Variant) (value : U8) (r : Registers)

/-- The pieces that each read operation leaves alone. -/
theorem ReadOp.frame (op : ReadOp) :
    RegsFrame (fun set => op ∈ set.reads) r (op.apply V value r) := by
  cases op with
  | ADC =>
    obtain ⟨a, c, v, z, n, h⟩ := addWithCarry_keeps V value r
    rw [ReadOp.apply, h]
    exact .of_arithmetic (by decide) (by decide) r
  | SBC =>
    obtain ⟨a, c, v, z, n, h⟩ := subtractWithBorrow_keeps V value r
    rw [ReadOp.apply, h]
    exact .of_arithmetic (by decide) (by decide) r
  | ARR =>
    simp only [ReadOp.apply]
    split <;> exact .of_arithmetic (by decide) (by decide) r
  | _ => constructor <;> intro hnot <;> first | rfl | exact absurd (by decide) hnot

theorem RmwOp.frame (op : RmwOp) :
    RegsFrame (fun set => op ∈ set.rmws) r (op.apply V value r).2 := by
  cases op with
  | RRA | ISC =>
    obtain ⟨a, c, v, z, n, h⟩ := RmwOp.apply_keeps V value r _
    rw [h]
    exact .of_arithmetic (by decide) (by decide) r
  | _ => constructor <;> intro hnot <;> first | rfl | exact absurd (by decide) hnot

theorem UnstableStoreOp.frame (op : UnstableStoreOp) (baseHigh : U8) :
    RegsFrame (fun set => op ∈ set.unstable) r (op.value baseHigh r).2 := by
  cases op <;> constructor <;> intro hnot <;> first | rfl | exact absurd (by decide) hnot

end operations

section effects

variable (a : Arch)

theorem ImpliedOp.frame (op : ImpliedOp) :
    RegsFrame (fun set => op ∈ set.implied) a.regs (op.effect a).regs := by
  cases op <;> constructor <;> intro hnot <;> first | rfl | exact absurd (by decide) hnot

/-- The entry to an interrupt service moves I and S; the CMOS part also clears D. -/
theorem interruptEffect_frame (isBreak : Bool) (vector : U16) {acts : Changers → Prop}
    (hi : acts .ofI) (hs : acts .ofS) :
    RegsFrame acts a.regs (interruptEffect Nmos6502 isBreak vector a).regs := by
  unfold interruptEffect
  extract_lets entered pushed
  -- where the service starts is no piece of the frame
  generalize word _ _ = pc
  cases isBreak <;>
    exact ⟨fun _ => rfl, fun h => absurd hi h, fun _ => rfl, fun _ => rfl, fun _ => rfl,
      fun _ => rfl, fun h => absurd hs h⟩

theorem SpecialOp.frame (op : SpecialOp) :
    RegsFrame (fun set => op ∈ set.special) a.regs (op.effect Nmos6502 a).regs := by
  cases op with
  | BRK => exact interruptEffect_frame a true kIrqVector (by decide) (by decide)
  | _ => constructor <;> intro hnot <;> first | rfl | exact absurd (by decide) hnot

/-- **Registers.** An instruction changes a piece of the registers only if it is in the
set of that piece. -/
theorem Instr.frame (i : Instr) :
    RegsFrame (fun set => set.has i = true) a.regs (i.effect Nmos6502 a).regs := by
  cases i with
  | ReadInstr op mode =>
    have h := op.frame Nmos6502 (a.mem (mode.address a)) (mode.consume a).regs
    exact h.of_advance.mono fun set => List.contains_iff_mem.mpr
  | WriteInstr op mode => exact .of_pc_a (.refl _ a.regs) _ _
  | RmwInstr op mode =>
    have h := op.frame Nmos6502 (a.mem (mode.address a)) (mode.consume a).regs
    exact h.of_advance.mono fun set => List.contains_iff_mem.mpr
  | AccumInstr op mode =>
    have h := (op.frame Nmos6502 a.regs.a a.regs).of_pc_a (op.apply Nmos6502 a.regs.a a.regs).2.pc
      (op.apply Nmos6502 a.regs.a a.regs).1
    exact h.mono fun set => List.contains_iff_mem.mpr
  | ImpliedInstr op mode => exact (op.frame a).mono fun set => List.contains_iff_mem.mpr
  | BranchInstr cond mode =>
    simp only [Instr.effect]
    split <;> exact .of_pc_a (.refl _ a.regs) _ _
  | UnstableStoreInstr op mode =>
    have h := op.frame (mode.toOperandMode.consume a).regs (page (mode.toOperandMode.base a))
    exact h.of_advance.mono fun set => List.contains_iff_mem.mpr
  | SpecialInstr op mode => exact (op.frame a).mono fun set => List.contains_iff_mem.mpr

end effects

/-! ### The addresses that a step stores into -/

/-- The `n` stack addresses from `$0100|S` down, with wrap. -/
def stackBelow (s : U8) (n : ℕ) : List U16 :=
  (List.range n).map fun k => stackAddr (s - BitVec.ofNat 8 k)

/-- The addresses that an instruction stores into. -/
def Instr.stored (i : Instr) (a : Arch) : List U16 :=
  match i with
  | .WriteInstr _ mode | .RmwInstr _ mode => [mode.address a]
  | .UnstableStoreInstr op mode => [(unstableStore op mode a).1]
  | .ImpliedInstr .PHA _ | .ImpliedInstr .PHP _ => stackBelow a.regs.s 1
  | .SpecialInstr .JSR _ => stackBelow a.regs.s 2
  | .SpecialInstr .BRK _ => stackBelow a.regs.s 3
  | _ => []

/-- The addresses that a step stores into. -/
def StepKind.stored (kind : StepKind) (a : Arch) : List U16 :=
  match kind with
  | .jammed => []
  | .nmi | .irq => stackBelow a.regs.s 3
  | .instruction opcode => (instr opcode).stored (a.advance 1)

theorem write_mem_interruptAccesses (V : Variant) (isBreak : Bool) (vector : U16) (a : Arch)
    (addr : U16) :
    (∃ value, .write addr value ∈ interruptAccesses V isBreak vector a) ↔
      addr ∈ stackBelow a.regs.s 3 := by
  cases isBreak <;>
    simp [interruptAccesses, Arch.rd, stackBelow, List.range_succ, exists_or]

/-- An instruction writes to exactly the addresses that it stores into. -/
theorem Instr.write_mem_accesses (V : Variant) (i : Instr) (a : Arch) (addr : U16) :
    (∃ value, .write addr value ∈ i.accesses V a) ↔ addr ∈ i.stored a := by
  cases i with
  | ReadInstr op mode =>
    simp [accesses, stored, mode.write_notMem_reads, Arch.rd]
  | WriteInstr op mode =>
    simp [accesses, stored, mode.write_notMem_reads]
  | RmwInstr op mode =>
    cases h : V.rmwDummyWriteBack <;>
      simp [accesses, stored, mode.write_notMem_reads, Arch.rd, h, exists_or]
  | UnstableStoreInstr op mode =>
    simp [accesses, stored, OperandMode.write_notMem_reads]
  | AccumInstr op mode => simp [accesses, stored, Arch.rd]
  | BranchInstr cond mode =>
    simp only [accesses, stored]
    split_ifs <;> simp [Arch.rd]
  | ImpliedInstr op mode =>
    cases op <;> simp [accesses, stored, ImpliedOp.accesses, Arch.rd, stackBelow]
  | SpecialInstr op mode =>
    cases op with
    | BRK => exact write_mem_interruptAccesses V true kIrqVector a addr
    | JSR =>
      simp [accesses, stored, SpecialOp.accesses, Arch.rd, stackBelow, List.range_succ, exists_or]
    | JMP_IND =>
      cases h : V.jmpIndirectPageBug <;>
        simp [accesses, stored, SpecialOp.accesses, Arch.rd, h]
    | _ => simp [accesses, stored, SpecialOp.accesses, Arch.rd]

theorem StepKind.write_mem_accesses (V : Variant) (kind : StepKind) (a : Arch) (addr : U16) :
    (∃ value, .write addr value ∈ kind.accesses V a) ↔ addr ∈ kind.stored a := by
  cases kind with
  | jammed => simp [accesses, stored, Arch.rd]
  | nmi => exact write_mem_interruptAccesses V false kNmiVector a addr
  | irq => exact write_mem_interruptAccesses V false kIrqVector a addr
  | instruction op =>
    rw [stored, ← (instr op).write_mem_accesses V]
    simp [accesses, Arch.rd]

namespace Machine

variable {β : Type} [PlainMemory β]

/-- A step changes a piece of the registers only if it is in the set of that piece. -/
theorem step_frame (m : Machine β NullHooks) :
    RegsFrame (fun set => set.hasStep m.stepKind = true) m.cpu.regs
      (m.stepMachine Nmos6502).cpu.regs := by
  have hregs : (m.stepMachine Nmos6502).cpu.regs = (m.stepKind.effect Nmos6502 m.arch).regs :=
    congrArg Arch.regs (stepMachine_arch Nmos6502 m)
  rw [hregs]
  cases m.stepKind with
  | jammed => exact .refl _ _
  | nmi => exact interruptEffect_frame m.arch false kNmiVector rfl rfl
  | irq => exact interruptEffect_frame m.arch false kIrqVector rfl rfl
  | instruction op => exact ((instr op).frame (m.arch.advance 1)).of_advance

/-- A step stores only into the addresses of its kind. -/
theorem step_memory_frame (V : Variant) (m : Machine β NullHooks) {addr : U16}
    (h : addr ∉ m.stepKind.stored m.arch) :
    PlainMemory.memory (m.stepMachine V).bus addr = PlainMemory.memory m.bus addr := by
  have hmem := congrFun (congrArg Arch.mem (stepMachine_arch V m)) addr
  refine hmem.trans (StepKind.effect_frame V _ _ fun value hwrite => h ?_)
  exact (StepKind.write_mem_accesses V _ _ addr).mp ⟨value, hwrite⟩

/-- The host changes I and S by a reset, and nothing else. -/
theorem hostCall_frame (m : Machine β NullHooks) (c : HostCall) :
    RegsFrame (fun set => set.hasCall c = true) m.cpu.regs (m.hostCall c).cpu.regs ∧
      PlainMemory.memory (m.hostCall c).bus = PlainMemory.memory m.bus := by
  cases c with
  | pin c => cases c <;> exact ⟨.refl _ _, rfl⟩
  | reset =>
    have hregs : m.reset.cpu.regs = (resetEffect m.arch).regs := congrArg Arch.regs (reset_arch m)
    refine ⟨?_, congrArg Arch.mem (reset_arch m)⟩
    change RegsFrame _ m.cpu.regs m.reset.cpu.regs
    rw [hregs]
    exact ⟨fun _ => rfl, fun h => absurd rfl h, fun _ => rfl, fun _ => rfl, fun _ => rfl,
      fun _ => rfl, fun h => absurd rfl h⟩

theorem hostCalls_frame (m : Machine β NullHooks) (cs : List HostCall) :
    RegsFrame (fun set => ∃ c ∈ cs, set.hasCall c = true) m.cpu.regs (m.hostCalls cs).cpu.regs ∧
      PlainMemory.memory (m.hostCalls cs).bus = PlainMemory.memory m.bus := by
  induction cs generalizing m with
  | nil => exact ⟨.refl _ _, rfl⟩
  | cons c cs ih =>
    obtain ⟨hregs, hmem⟩ := hostCall_frame m c
    obtain ⟨hregs', hmem'⟩ := ih (m.hostCall c)
    rw [hostCalls_cons]
    refine ⟨(hregs.trans hregs').mono ?_, hmem'.trans hmem⟩
    rintro set (hc | ⟨c', hmem, hc⟩)
    · exact ⟨c, List.mem_cons_self, hc⟩
    · exact ⟨c', List.mem_cons_of_mem _ hmem, hc⟩

/-- Whether step `j` of a run, or a call of the host right before it, is in the set. -/
def ActsAt (host : ℕ → List HostCall) (m : Machine β NullHooks) (j : ℕ) (set : Changers) : Prop :=
  (∃ c ∈ host j, set.hasCall c = true) ∨
    set.hasStep (m.beforeStep Nmos6502 host j).stepKind = true

/-- **Frame of a step.** On plain memory, in every run with resets and pin calls: each
host call and each step changes D, I, V, C, Y, X and S only if it is in the set of that
piece, so a piece that no action of a run may change is the same at its end. Each step
stores only into the addresses of its kind, which are those it writes to, no host call
stores at all, and an address that no step of a run stores into keeps its byte. -/
theorem frame_of_steps (host : ℕ → List HostCall) (m : Machine β NullHooks) (k : ℕ) :
    (RegsFrame (fun set => ∃ c ∈ host k, set.hasCall c = true)
        (m.afterSteps Nmos6502 host k).cpu.regs (m.beforeStep Nmos6502 host k).cpu.regs ∧
      RegsFrame (fun set => set.hasStep (m.beforeStep Nmos6502 host k).stepKind = true)
        (m.beforeStep Nmos6502 host k).cpu.regs (m.afterSteps Nmos6502 host (k + 1)).cpu.regs) ∧
    (PlainMemory.memory (m.beforeStep Nmos6502 host k).bus =
        PlainMemory.memory (m.afterSteps Nmos6502 host k).bus ∧
      ∀ addr, addr ∉ (m.beforeStep Nmos6502 host k).stepKind.stored
          (m.beforeStep Nmos6502 host k).arch →
        PlainMemory.memory (m.afterSteps Nmos6502 host (k + 1)).bus addr =
          PlainMemory.memory (m.beforeStep Nmos6502 host k).bus addr) ∧
    (∀ addr, (∃ value, .write addr value ∈ (m.beforeStep Nmos6502 host k).stepAccesses Nmos6502) ↔
      addr ∈ (m.beforeStep Nmos6502 host k).stepKind.stored (m.beforeStep Nmos6502 host k).arch) ∧
    RegsFrame (fun set => ∃ j < k, m.ActsAt host j set) m.cpu.regs
      (m.afterSteps Nmos6502 host k).cpu.regs ∧
    ∀ addr, (∀ j < k, addr ∉ (m.beforeStep Nmos6502 host j).stepKind.stored
        (m.beforeStep Nmos6502 host j).arch) →
      PlainMemory.memory (m.afterSteps Nmos6502 host k).bus addr =
        PlainMemory.memory m.bus addr := by
  have hhost (j : ℕ) := hostCalls_frame (m.afterSteps Nmos6502 host j) (host j)
  have hstep (j : ℕ) := step_frame (m.beforeStep Nmos6502 host j)
  have hmemory (j : ℕ) {addr : U16} (hnot : addr ∉
      (m.beforeStep Nmos6502 host j).stepKind.stored (m.beforeStep Nmos6502 host j).arch) :=
    step_memory_frame Nmos6502 (m.beforeStep Nmos6502 host j) hnot
  refine ⟨⟨(hhost k).1, hstep k⟩, ⟨(hhost k).2, fun addr => hmemory k⟩, fun addr => ?_, ?_, ?_⟩
  · rw [stepAccesses_eq]
    exact StepKind.write_mem_accesses Nmos6502 _ _ addr
  · induction k with
    | zero => exact .refl _ _
    | succ k ih =>
      refine (ih.trans ((hhost k).1.trans (hstep k))).mono ?_
      rintro set (⟨j, hj, hacts⟩ | hacts)
      · exact ⟨j, by omega, hacts⟩
      · exact ⟨k, Nat.lt_succ_self k, hacts⟩
  · intro addr hnot
    induction k with
    | zero => rfl
    | succ k ih =>
      refine (hmemory k (hnot k (Nat.lt_succ_self k))).trans ?_
      exact (congrFun (hhost k).2 addr).trans (ih fun j hj => hnot j (by omega))

/-- Two pushes wrap around the stack page and leave the byte below them alone. -/
theorem frame_of_steps_pha :
    PlainMemory.memory ((fresh {} { memory := fun _ => 0x48 : FlatBus }).afterSteps Nmos6502
      (fun _ => []) 2).bus 0x01FE = 0x48 := by
  obtain ⟨-, -, -, -, hmemory⟩ :=
    frame_of_steps (fun _ => []) (fresh {} { memory := fun _ => 0x48 : FlatBus }) 2
  refine hmemory 0x01FE fun j hj => ?_
  match j with
  | 0 => decide +kernel
  | 1 => decide +kernel

end Machine

end Mos6502
