import Mos6502.Listing
import Mos6502.Processor
import Mos6502.Recoding

/-!
# Programs with one listing

A listing does not say which of the opcodes of an instruction a program uses, and neither does
the processor: as long as their opcodes are only executed, two programs with one listing run
alike, in the same cycles, with the same accesses and the same data, whatever the host does.
-/

namespace Mos6502

/-! ### Memories with one listing -/

/-- The bytes of the second memory where it differs from the first. -/
def difference (mem mem' : Memory) (addr : U16) : Option U8 :=
  if mem addr = mem' addr then none else some (mem' addr)

section difference

variable {mem mem' : Memory} {addr : U16}

theorem difference_eq_none : difference mem mem' addr = none ↔ mem addr = mem' addr := by
  simp [difference]

theorem recode_difference_of_ne (hne : mem addr ≠ mem' addr) (other : Memory) :
    recode (difference mem mem') other addr = mem' addr := by
  rw [recode, difference, if_neg hne, Option.getD_some]

theorem recode_difference (mem mem' : Memory) : recode (difference mem mem') mem = mem' := by
  funext addr
  rcases eq_or_ne (mem addr) (mem' addr) with heq | hne
  · rw [recode_of_none (difference_eq_none.mpr heq), heq]
  · exact recode_difference_of_ne hne mem

/-- Where memories with one listing differ only in its opcodes, those are of one instruction. -/
theorem instr_of_difference {n : ℕ} {pc : U16} (hlisting : listing mem n pc = listing mem' n pc)
    (hrest : ∀ addr ∉ listed mem n pc, mem addr = mem' addr) (addr : U16) (op : U8)
    (hop : difference mem mem' addr = some op) : instr op = instr (mem addr) := by
  have hne : mem addr ≠ mem' addr := by
    intro heq
    rw [difference_eq_none.mpr heq] at hop
    cases hop
  obtain rfl : mem' addr = op := by simpa [difference, hne] using hop
  have hmem : addr ∈ listed mem n pc := not_imp_comm.mp (hrest addr) hne
  exact ((listing_eq_lines mem mem' n pc).mp hlisting addr hmem).instruction.symm

end difference

namespace Machine

variable {code : U16 → Option U8}

section congruence

variable {β γ : Type} [BusLike β] [BusLike γ] [SilentBus β] [SilentBus γ]
  {m : Machine β NullHooks} {m' : Machine γ NullHooks}

attribute [ext] Cpu

/-- What a step leaves in the processor depends on the processor, the registers after the step,
the number of its accesses, and on whether it is masked and jams. -/
theorem step_cpu_congr (V : Variant) (hcpu : m'.cpu = m.cpu)
    (hregs : (m'.stepMachine V).cpu.regs = (m.stepMachine V).cpu.regs)
    (hlength : (m'.stepAccesses V).length = (m.stepAccesses V).length)
    (hmask : m'.stepKind.mask = m.stepKind.mask) (hjams : m'.stepKind.jams = m.stepKind.jams) :
    (m'.stepMachine V).cpu = (m.stepMachine V).cpu := by
  have hcycles : (m'.stepMachine V).cpu.cycles = (m.stepMachine V).cpu.cycles := by
    rw [step_cycles, step_cycles, hcpu, hlength]
  cases hjammed : m.cpu.jammed with
  | true =>
    have hjammed' : m'.cpu.jammed = true := by rw [hcpu, hjammed]
    obtain ⟨_, _, _, h⟩ := step_of_jammed V m hjammed
    obtain ⟨_, _, _, h'⟩ := step_of_jammed V m' hjammed'
    rw [h, h', hcpu, stepPinCalls_silent, stepPinCalls_silent]
  | false =>
    have hjammed' : m'.cpu.jammed = false := by rw [hcpu, hjammed]
    have hpollI : (m'.stepMachine V).cpu.pollI = (m.stepMachine V).cpu.pollI := by
      rw [step_pollI V m hjammed, step_pollI V m' hjammed', hmask, hregs, hcpu]
    refine Cpu.ext hregs hcycles ?_ ?_ ?_ ?_ hpollI
    · rw [step_jams, step_jams, hjams]
    · rw [step_pins V m hjammed, step_pins V m' hjammed', hcpu, stepPinCalls_silent,
        stepPinCalls_silent]
    · rw [step_pendingNmi V m hjammed, step_pendingNmi V m' hjammed', hcpu, stepPinCalls_silent,
        stepPinCalls_silent]
    · rw [step_pendingIrq V m hjammed, step_pendingIrq V m' hjammed', hcpu, hpollI,
        stepPinCalls_silent, stepPinCalls_silent]

end congruence

/-! ### Runs -/

variable {β γ : Type} [PlainMemory β] [PlainMemory γ]

/-- Machines that are alike but for the bytes of `code`, where the first still has the bytes of
`mem`. -/
structure Recoded (code : U16 → Option U8) (mem : Memory) (m : Machine β NullHooks)
    (m' : Machine γ NullHooks) : Prop where
  cpu : m'.cpu = m.cpu
  memory : PlainMemory.memory m'.bus = recode code (PlainMemory.memory m.bus)
  kept : ∀ addr, code addr ≠ none → PlainMemory.memory m.bus addr = mem addr

namespace Recoded

variable {mem : Memory} {m : Machine β NullHooks} {m' : Machine γ NullHooks} {V : Variant}

theorem arch (h : Recoded code mem m m') : m'.arch = m.arch.recode code :=
  Arch.ext (congrArg Cpu.regs h.cpu) h.memory

/-- The next step is of one kind, with an opcode of one instruction. -/
theorem stepKind (h : Recoded code mem m m')
    (hcode : ∀ addr op, code addr = some op → instr op = instr (mem addr)) :
    StepKind.SameAction m.stepKind m'.stepKind := by
  unfold Machine.stepKind
  rw [h.cpu]
  split_ifs
  · exact .refl _
  · exact .refl _
  · exact .refl _
  · refine .instruction ?_
    rw [opcode_eq, opcode_eq, h.arch, h.cpu]
    change _ = instr (recode code _ _)
    rw [recode]
    cases hop : code m.cpu.regs.pc with
    | none => rfl
    | some op =>
      rw [Option.getD_some, hcode _ op hop, ← h.kept _ (by simp [hop])]
      rfl

theorem pinCall (h : Recoded code mem m m') (c : PinCall) :
    Recoded code mem (m.pinCall c) (m'.pinCall c) := by
  cases c <;>
    exact ⟨by simp only [Machine.pinCall, setNmi, setIrq, h.cpu], h.memory, h.kept⟩

/-- Both steps make the same accesses, but for the opcodes that they read. -/
theorem stepAccesses (h : Recoded code mem m m')
    (hcode : ∀ addr op, code addr = some op → instr op = instr (mem addr))
    (htouched : ∀ addr ∈ m.stepKind.touched V m.arch, code addr = none) :
    m'.stepAccesses V = (m.stepAccesses V).map (·.recode code) := by
  rw [stepAccesses_eq, stepAccesses_eq, h.arch,
    StepKind.accesses_recode (h.stepKind hcode) htouched]

variable [SilentBus β] [SilentBus γ]

theorem reset (h : Recoded code mem m m')
    (hvector : ∀ addr ∈ HostCall.reset.touched, code addr = none) :
    Recoded code mem m.reset m'.reset := by
  have harch : m'.reset.arch = m.reset.arch.recode code := by
    rw [reset_arch, reset_arch, h.arch, resetEffect_recode hvector]
  obtain ⟨_, hpollI, hjammed⟩ := reset_core m
  obtain ⟨_, hpollI', hjammed'⟩ := reset_core m'
  obtain ⟨hpins, hnmi, hirq⟩ := reset_latches m
  obtain ⟨hpins', hnmi', hirq'⟩ := reset_latches m'
  refine ⟨Cpu.ext (congrArg Arch.regs harch) ?_ (hjammed'.trans hjammed.symm) ?_
    (hnmi'.trans hnmi.symm) (hirq'.trans hirq.symm) (hpollI'.trans hpollI.symm),
    congrArg Arch.mem harch, fun addr hne => ?_⟩
  · rw [reset_cycles, reset_cycles, resetAccesses_eq, resetAccesses_eq, h.cpu]
    rfl
  · rw [hpins, hpins', resetPinCalls_silent, resetPinCalls_silent, h.cpu]
  · rw [← h.kept addr hne]
    exact congrFun (congrArg Arch.mem (reset_arch m)) addr

theorem hostCalls (h : Recoded code mem m m') {cs : List HostCall}
    (htouched : ∀ addr ∈ cs.flatMap HostCall.touched, code addr = none) :
    Recoded code mem (m.hostCalls cs) (m'.hostCalls cs) := by
  induction cs generalizing m m' with
  | nil => exact h
  | cons c cs ih =>
    simp only [List.flatMap_cons, List.forall_mem_append] at htouched
    refine ih ?_ htouched.2
    cases c with
    | pin c => exact h.pinCall c
    | reset => exact h.reset htouched.1

/-- **One step.** It keeps the machines alike if it only executes the bytes of `code`. -/
theorem stepMachine (h : Recoded code mem m m')
    (hcode : ∀ addr op, code addr = some op → instr op = instr (mem addr))
    (htouched : ∀ addr ∈ m.stepKind.touched V m.arch, code addr = none) :
    Recoded code mem (m.stepMachine V) (m'.stepMachine V) := by
  have hsame := h.stepKind hcode
  have harch : (m'.stepMachine V).arch = (m.stepMachine V).arch.recode code := by
    rw [stepMachine_arch, stepMachine_arch, h.arch, StepKind.effect_recode hsame htouched]
  have hlength : (m'.stepAccesses V).length = (m.stepAccesses V).length := by
    rw [h.stepAccesses hcode htouched, List.length_map]
  refine ⟨step_cpu_congr V h.cpu (congrArg Arch.regs harch) hlength hsame.mask hsame.jams,
    congrArg Arch.mem harch, fun addr hne => ?_⟩
  rw [← h.kept addr hne]
  exact step_memory_frame V m fun hstored =>
    hne (htouched addr (StepKind.stored_subset_touched V _ _ hstored))

end Recoded

section runs

variable (V : Variant) (host : ℕ → List HostCall) (m : Machine β NullHooks)

/-- The addresses at which step `j` of a run, or a call of the host right before it, uses or
stores a byte. -/
def touchedAt (j : ℕ) : List U16 :=
  (host j).flatMap HostCall.touched ++
    (m.beforeStep V host j).stepKind.touched V (m.beforeStep V host j).arch

variable {V host m} {m' : Machine γ NullHooks} {mem : Memory} [SilentBus β] [SilentBus γ]

/-- **Runs.** -/
theorem Recoded.afterSteps (h : Recoded code mem m m')
    (hcode : ∀ addr op, code addr = some op → instr op = instr (mem addr)) {k : ℕ}
    (htouched : ∀ j < k, ∀ addr ∈ m.touchedAt V host j, code addr = none) :
    Recoded code mem (m.afterSteps V host k) (m'.afterSteps V host k) := by
  induction k with
  | zero => exact h
  | succ k ih =>
    obtain ⟨hhost, hstep⟩ := List.forall_mem_append.mp (htouched k (Nat.lt_succ_self k))
    have hbefore := (ih fun j hj => htouched j (Nat.lt_succ_of_lt hj)).hostCalls hhost
    exact hbefore.stepMachine hcode hstep

/-- **One listing, one program.** Two processors in the same state, with memories that have one
listing and are equal but for the opcodes in it, stay in the same state in all steps under any
host, and take the same cycles, as long as the bytes in which the memories differ are only
executed: no step uses one as data, nor stores there. Each step makes the same accesses but for
the opcodes that it reads; the memories stay equal where they were, and elsewhere they stay as
they were. -/
theorem one_listing_one_program (hcpu : m'.cpu = m.cpu) {n : ℕ} {pc : U16}
    (hlisting : listing m.arch.mem n pc = listing m'.arch.mem n pc)
    (hrest : ∀ addr ∉ listed m.arch.mem n pc, m.arch.mem addr = m'.arch.mem addr) {k : ℕ}
    (hdata : ∀ j < k, ∀ addr ∈ m.touchedAt V host j, m.arch.mem addr = m'.arch.mem addr) :
    (m'.afterSteps V host k).cpu = (m.afterSteps V host k).cpu ∧
      (∀ j < k, (m'.beforeStep V host j).stepAccesses V =
        ((m.beforeStep V host j).stepAccesses V).map
          (·.recode (difference m.arch.mem m'.arch.mem))) ∧
      (∀ addr, m.arch.mem addr = m'.arch.mem addr →
        (m'.afterSteps V host k).arch.mem addr = (m.afterSteps V host k).arch.mem addr) ∧
      ∀ addr, m.arch.mem addr ≠ m'.arch.mem addr →
        (m.afterSteps V host k).arch.mem addr = m.arch.mem addr ∧
          (m'.afterSteps V host k).arch.mem addr = m'.arch.mem addr := by
  have htouched (j : ℕ) (hj : j < k) (addr : U16) (hmem : addr ∈ m.touchedAt V host j) :
      difference m.arch.mem m'.arch.mem addr = none :=
    difference_eq_none.mpr (hdata j hj addr hmem)
  have hstart : Recoded (difference m.arch.mem m'.arch.mem) m.arch.mem m m' :=
    ⟨hcpu, (recode_difference _ _).symm, fun _ _ => rfl⟩
  have hcode := instr_of_difference hlisting hrest
  have hrun (j : ℕ) (hj : j ≤ k) : Recoded (difference m.arch.mem m'.arch.mem) m.arch.mem
      (m.afterSteps V host j) (m'.afterSteps V host j) :=
    hstart.afterSteps hcode fun i hi => htouched i (by omega)
  have hend := hrun k le_rfl
  refine ⟨hend.cpu, fun j hj => ?_, fun addr heq => ?_, fun addr hne => ⟨?_, ?_⟩⟩
  · obtain ⟨hhost, hstep⟩ := List.forall_mem_append.mp (htouched j hj)
    exact ((hrun j hj.le).hostCalls hhost).stepAccesses hcode hstep
  · rw [hend.arch, Arch.recode_mem (difference_eq_none.mpr heq)]
  · exact hend.kept addr fun hnone => hne (difference_eq_none.mp hnone)
  · rw [hend.arch]
    exact recode_difference_of_ne hne _

/-- `SBC #$10` with either of its opcodes. -/
theorem one_listing_one_program_sbc :
    let program (op : U8) : Machine FlatBus NullHooks :=
      fresh { pc := 0x0400 } { memory := fun addr => if addr = 0x0400 then op else 0x10 }
    ((program 0xEB).afterSteps Nmos6502 (fun _ => []) 1).cpu =
      ((program 0xE9).afterSteps Nmos6502 (fun _ => []) 1).cpu := by
  intro program
  have hlisting : listing (program 0xE9).arch.mem 1 0x0400 =
      listing (program 0xEB).arch.mem 1 0x0400 := by decide +kernel
  have hequal (addr : U16) (hne : addr ≠ 0x0400) :
      (program 0xE9).arch.mem addr = (program 0xEB).arch.mem addr := by
    change (if addr = 0x0400 then _ else _) = if addr = 0x0400 then _ else _
    rw [if_neg hne, if_neg hne]
  have htouched : (program 0xE9).touchedAt Nmos6502 (fun _ => []) 0 = [0x0401] := by
    decide +kernel
  have hcpu : (program 0xEB).cpu = (program 0xE9).cpu := rfl
  refine (one_listing_one_program hcpu hlisting (fun addr hnot => hequal addr ?_)
    fun j hj addr hmem => hequal addr ?_).1
  · rintro rfl
    exact hnot List.mem_cons_self
  · obtain rfl : j = 0 := by omega
    rw [htouched, List.mem_singleton] at hmem
    rw [hmem]
    decide

end runs

end Machine

end Mos6502
