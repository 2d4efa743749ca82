import Mos6502.Controls
import Mos6502.PlainStep

/-!
# A reset erases the past

On plain memory a machine is driven by the bytes stored, its registers, its pins and
its latches. A reset brings the latches, I and the program counter to values that do
not depend on the past, so two machines that agree on the other registers, on the
levels of the pins and on memory cannot be told apart after it.
-/

namespace Mos6502

instance {β : Type} [BusLike β] [SilentBus β] : SilentBus (Logged β) where
  read_calls b addr := SilentBus.read_calls b.bus addr
  write_calls b addr data := SilentBus.write_calls b.bus addr data
  tick_calls b := SilentBus.tick_calls b.bus

namespace Machine

variable {β γ : Type} [PlainMemory β] [PlainMemory γ]

/-! ### Machines that behave alike -/

/-- Two machines whose further behaviour is the same: they differ only in their bus
beyond its memory, and by `d` in their cycle counters. -/
structure Alike (d : U64) (s : Machine (Logged β) NullHooks) (t : Machine (Logged γ) NullHooks) :
    Prop where
  plain : s.plain = t.plain
  pins : s.cpu.pins = t.cpu.pins
  pendingNmi : s.cpu.pendingNmi = t.cpu.pendingNmi
  pendingIrq : s.cpu.pendingIrq = t.cpu.pendingIrq
  cycles : s.cpu.cycles = t.cpu.cycles + d

variable {V : Variant} {d : U64} {s : Machine (Logged β) NullHooks}
  {t : Machine (Logged γ) NullHooks}

theorem Alike.jammed (h : Alike d s t) : s.cpu.jammed = t.cpu.jammed :=
  congrArg Plain.jammed h.plain

theorem Alike.arch (h : Alike d s t) : s.arch = t.arch := congrArg Plain.arch h.plain

theorem Alike.stepKind (h : Alike d s t) : s.stepKind = t.stepKind := by
  have hopcode : s.opcode = t.opcode := by
    rw [opcode_eq, opcode_eq, h.arch]
    exact congrArg (t.arch.mem ·.pc) (congrArg Arch.regs h.arch)
  simp only [Machine.stepKind, h.jammed, h.pendingNmi, h.pendingIrq, hopcode]

theorem Alike.pinCall (h : Alike d s t) (c : PinCall) : Alike d (s.pinCall c) (t.pinCall c) := by
  have hpins : (s.pinCall c).cpu.pins = (t.pinCall c).cpu.pins := by
    cases c <;> simp only [Machine.pinCall, setNmi, setIrq, h.pins]
  refine ⟨by rw [pinCall_plain, pinCall_plain, h.plain], hpins, ?_, ?_, ?_⟩
  · cases c <;> exact h.pendingNmi
  · cases c <;> exact h.pendingIrq
  · cases c <;> exact h.cycles

/-- The plain state after a step depends on the plain state and the pending flags. -/
theorem Alike.stepMachine_plain (h : Alike d s t) :
    (s.stepMachine V).plain = (t.stepMachine V).plain := by
  have hregs : s.cpu.regs = t.cpu.regs := congrArg Plain.regs h.plain
  unfold Machine.stepMachine
  rw [h.jammed, h.pendingNmi, h.pendingIrq]
  split_ifs
  · rw [(plain_read _ s).2, (plain_read _ t).2, h.plain, hregs]
  · rw [serviceInterrupt_plain, serviceInterrupt_plain]
    have hs : { s with cpu := { s.cpu with pendingNmi := false } }.plain = s.plain := rfl
    have ht : { t with cpu := { t.cpu with pendingNmi := false } }.plain = t.plain := rfl
    rw [hs, ht, h.plain]
  · rw [serviceInterrupt_plain, serviceInterrupt_plain]
    have hs : { s with cpu := { s.cpu with pendingIrq := false } }.plain = s.plain := rfl
    have ht : { t with cpu := { t.cpu with pendingIrq := false } }.plain = t.plain := rfl
    rw [hs, ht, h.plain]
  · rw [executeInstruction_plain, executeInstruction_plain, h.plain, hregs]

variable [SilentBus β] [SilentBus γ]

theorem Alike.stepMachine (h : Alike d s t) : Alike d (s.stepMachine V) (t.stepMachine V) := by
  have hplain := h.stepMachine_plain (V := V)
  have hpollI : (s.stepMachine V).cpu.pollI = (t.stepMachine V).cpu.pollI :=
    congrArg Plain.pollI hplain
  have hcycles : (s.stepMachine V).cpu.cycles = (t.stepMachine V).cpu.cycles + d := by
    rw [step_cycles, step_cycles, h.cycles, stepAccesses_eq, stepAccesses_eq, h.stepKind, h.arch,
      BitVec.add_assoc, BitVec.add_comm d, ← BitVec.add_assoc]
  cases hjammed : t.cpu.jammed with
  | true =>
    obtain ⟨_, _, _, hs⟩ := step_of_jammed V s (h.jammed.trans hjammed)
    obtain ⟨_, _, _, ht⟩ := step_of_jammed V t hjammed
    refine ⟨hplain, ?_, ?_, ?_, hcycles⟩
    · rw [hs, ht, stepPinCalls_silent, stepPinCalls_silent]
      exact h.pins
    · rw [hs, ht]
      exact h.pendingNmi
    · rw [hs, ht]
      exact h.pendingIrq
  | false =>
    have hsjammed := h.jammed.trans hjammed
    refine ⟨hplain, ?_, ?_, ?_, hcycles⟩
    · rw [step_pins V s hsjammed, step_pins V t hjammed, stepPinCalls_silent,
        stepPinCalls_silent, h.pins]
    · rw [step_pendingNmi V s hsjammed, step_pendingNmi V t hjammed, stepPinCalls_silent,
        stepPinCalls_silent, h.pins]
    · rw [step_pendingIrq V s hsjammed, step_pendingIrq V t hjammed, stepPinCalls_silent,
        stepPinCalls_silent, h.pins, h.pendingNmi, h.pendingIrq, hpollI]

theorem lockstep_alike (V : Variant) (d : U64) : Lockstep V (Alike (β := β) (γ := γ) d) where
  pinCall h c := h.pinCall c
  stepMachine h := h.stepMachine
  elapsed h h' := by
    rw [h.cycles, h'.cycles]
    bv_omega

/-! ### The reset -/

/-- What two machines must share for a reset to make them alike: all registers but the
program counter and I, the levels of the pins, and memory. -/
structure AgreeForReset (m₁ : Machine β NullHooks) (m₂ : Machine γ NullHooks) : Prop where
  a : m₁.cpu.regs.a = m₂.cpu.regs.a
  x : m₁.cpu.regs.x = m₂.cpu.regs.x
  y : m₁.cpu.regs.y = m₂.cpu.regs.y
  s : m₁.cpu.regs.s = m₂.cpu.regs.s
  n : m₁.cpu.regs.n = m₂.cpu.regs.n
  v : m₁.cpu.regs.v = m₂.cpu.regs.v
  d : m₁.cpu.regs.d = m₂.cpu.regs.d
  z : m₁.cpu.regs.z = m₂.cpu.regs.z
  c : m₁.cpu.regs.c = m₂.cpu.regs.c
  nmiLine : m₁.cpu.pins.nmiLine = m₂.cpu.pins.nmiLine
  irqLine : m₁.cpu.pins.irqLine = m₂.cpu.pins.irqLine
  memory : PlainMemory.memory m₁.bus = PlainMemory.memory m₂.bus

variable {m₁ : Machine β NullHooks} {m₂ : Machine γ NullHooks}

omit [SilentBus β] [SilentBus γ] in
theorem AgreeForReset.arch (h : m₁.AgreeForReset m₂) : m₁.reset.arch = m₂.reset.arch := by
  have hmem : m₁.arch.mem = m₂.arch.mem := h.memory
  rw [reset_arch, reset_arch]
  ext1
  · simp only [resetEffect, hmem]
    exact Registers.ext h.a h.x h.y (congrArg (· - 3) h.s) rfl h.n h.v h.d rfl h.z h.c
  · exact hmem

/-- A reset brings every latch to a known value. -/
theorem AgreeForReset.alike (h : m₁.AgreeForReset m₂) :
    Alike (m₁.reset.cpu.cycles - m₂.reset.cpu.cycles) m₁.reset.logged m₂.reset.logged := by
  obtain ⟨_, hpollI₁, hjammed₁⟩ := reset_core m₁
  obtain ⟨_, hpollI₂, hjammed₂⟩ := reset_core m₂
  obtain ⟨hpins₁, hnmi₁, hirq₁⟩ := reset_latches m₁
  obtain ⟨hpins₂, hnmi₂, hirq₂⟩ := reset_latches m₂
  refine ⟨?_, ?_, hnmi₁.trans hnmi₂.symm, hirq₁.trans hirq₂.symm, ?_⟩
  · exact Plain.ext (congrArg Arch.regs h.arch) (congrArg Arch.mem h.arch) rfl
      (hjammed₁.trans hjammed₂.symm) (hpollI₁.trans hpollI₂.symm)
  · change m₁.reset.cpu.pins = m₂.reset.cpu.pins
    rw [hpins₁, hpins₂, resetPinCalls_silent, resetPinCalls_silent]
    simp only [Pins.calls_nil, h.nmiLine, h.irqLine]
  · change m₁.reset.cpu.cycles = m₂.reset.cpu.cycles + _
    bv_omega

/-- What a host sees of a sequence of controls: what they return, and the registers,
the memory and the bus accesses that they leave. -/
def observe (r : List Returned × Machine (Logged β) NullHooks) :
    List Returned × Registers × Memory × List BusAccess :=
  (r.1, r.2.cpu.regs, PlainMemory.memory r.2.bus, BusEvent.accesses r.2.bus.log)

omit [SilentBus β] [SilentBus γ] in
theorem Alike.observe_eq (h : Alike d s t) (rs : List Returned) :
    observe (rs, s) = observe (rs, t) := by
  have htrace := congrArg Plain.trace h.plain
  rw [plain_trace, plain_trace] at htrace
  simp only [observe, htrace]
  rw [show s.cpu.regs = t.cpu.regs from congrArg Plain.regs h.plain,
    show PlainMemory.memory s.bus = PlainMemory.memory t.bus from congrArg Plain.mem h.plain]

/-- **A reset erases hidden history.** Two machines on plain memory that agree on the
registers but PC and I, on the pin levels and on memory show a host the same from then
on: every sequence of steps, runs and pin calls returns the same and leaves the same
registers, memory and accesses. Of the accesses of the reset itself only the first two
are at the old PC. The first step after it executes the instruction at the vector,
and S is three less. -/
theorem reset_erases_history (V : Variant) (h : m₁.AgreeForReset m₂) :
    (∀ fuel cs, (m₁.reset.logged.controls V fuel cs).map observe =
      (m₂.reset.logged.controls V fuel cs).map observe) ∧
    (m₁.resetAccesses.take 2 = List.replicate 2 (m₁.arch.rd m₁.cpu.regs.pc) ∧
      m₁.resetAccesses.drop 2 = m₂.resetAccesses.drop 2) ∧
    (∀ cs : List PinCall, (m₁.reset.pinCalls cs).stepKind =
      .instruction (m₁.arch.mem (word (m₁.arch.mem kResetVector)
        (m₁.arch.mem (kResetVector + 1))))) ∧
    m₁.reset.cpu.regs.pc = word (m₁.arch.mem kResetVector) (m₁.arch.mem (kResetVector + 1)) ∧
    m₁.reset.cpu.regs.s = m₁.cpu.regs.s - 3 := by
  have hregs : m₁.reset.cpu.regs = (resetEffect m₁.arch).regs := congrArg Arch.regs (reset_arch m₁)
  refine ⟨fun fuel cs => ?_, ⟨?_, ?_⟩, fun cs => ?_, by rw [hregs]; rfl, by rw [hregs]; rfl⟩
  · have hrel := (lockstep_alike V _).controls h.alike fuel cs
    generalize m₁.reset.logged.controls V fuel cs = r at hrel ⊢
    generalize m₂.reset.logged.controls V fuel cs = r' at hrel ⊢
    cases hrel with
    | none => rfl
    | some hr =>
      obtain ⟨hreturned, halike⟩ := hr
      rw [Option.map_some, Option.map_some, ← halike.observe_eq, ← hreturned]
  · rw [resetAccesses_eq]
    rfl
  · have hmem : m₁.arch.mem = m₂.arch.mem := h.memory
    have hs : m₁.arch.regs.s = m₂.arch.regs.s := h.s
    rw [resetAccesses_eq, resetAccesses_eq]
    simp only [resetReads, Arch.rd, hmem, hs, List.drop_succ_cons, List.drop_zero]
  · obtain ⟨_, hnmi, hirq⟩ := reset_latches m₁
    rw [pinCalls_stepKind, stepKind_of_idle_plain (reset_core m₁).2.2 hnmi hirq, reset_arch, hregs]
    rfl

/-- A processor that jammed with an NMI pending, and a fresh one. -/
theorem reset_erases_history_jam :
    let bus : FlatBus := { memory := fun _ => 0xEA }
    let m₁ : Machine FlatBus NullHooks :=
      { cpu := { jammed := true, pendingNmi := true }, bus, hooks := {} }
    ∀ fuel cs, (m₁.reset.logged.controls Nmos6502 fuel cs).map observe =
      ((fresh { pc := 0x0400, i := false } bus).reset.logged.controls Nmos6502 fuel cs).map
        observe := by
  intro bus m₁
  have h : m₁.AgreeForReset (fresh { pc := 0x0400, i := false } bus) :=
    ⟨rfl, rfl, rfl, rfl, rfl, rfl, rfl, rfl, rfl, rfl, rfl, rfl⟩
  exact (reset_erases_history Nmos6502 h).1

end Machine

end Mos6502
