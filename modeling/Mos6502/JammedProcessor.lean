import Mos6502.Arbitration
import Mos6502.Controls
import Mos6502.CycleBudget
import Mos6502.PlainStep

/-!
# A jammed processor

A JAM opcode wedges the processor until a reset. The step that executes it still polls
the interrupts, so an NMI or an IRQ may be pending while the processor is jammed, but
whatever the host does then, it only sees reads at the program counter. A reset lifts
the jam and forgets what was pending.
-/

namespace Mos6502

open Effects

namespace Control

/-- The cycles that a jammed processor takes for a control. -/
def jammedCycles : Control → ℕ
  | .step => 1
  | .run budget => budget.toNat
  | .pin _ => 0

/-- What a jammed processor returns to a control. -/
def jammedReturn : Control → Returned
  | .step => .step 1
  | .run budget => .run budget
  | .pin _ => .pin

end Control

namespace Machine

variable {β : Type} [PlainMemory β] {V : Variant} {s t u : Machine (Logged β) NullHooks} {n k : ℕ}

/-! ### While jammed -/

/-- From `s` to `t` a jammed processor has read `n` times at its program counter, and
nothing else has happened on the bus or to the registers. -/
structure Inert (s t : Machine (Logged β) NullHooks) (n : ℕ) : Prop where
  jammed : t.cpu.jammed = true
  plain : t.plain =
    { s.plain with trace := s.plain.trace ++ List.replicate n (s.plain.arch.rd s.cpu.regs.pc) }

theorem Inert.refl (hjammed : s.cpu.jammed = true) : Inert s s 0 :=
  ⟨hjammed, by simp⟩

theorem Inert.trans (h : Inert s t n) (h' : Inert t u k) : Inert s u (n + k) where
  jammed := h'.jammed
  plain := by
    have harch : t.plain.arch = s.plain.arch := by
      rw [h.plain]
      rfl
    have hpc : t.cpu.regs.pc = s.cpu.regs.pc := congrArg (·.regs.pc) h.plain
    rw [h'.plain, harch, hpc, h.plain]
    simp only [List.append_assoc, List.replicate_append_replicate]

theorem Inert.pinCall (hjammed : s.cpu.jammed = true) (c : PinCall) :
    Inert s (s.pinCall c) 0 where
  jammed := by cases c <;> exact hjammed
  plain := by simp

theorem Inert.stepMachine (V : Variant) (hjammed : s.cpu.jammed = true) :
    Inert s (s.stepMachine V) 1 := by
  rw [stepMachine_jammed V hjammed]
  exact ⟨hjammed, (plain_read s.cpu.regs.pc s).2⟩

theorem Inert.iterate (V : Variant) (hjammed : s.cpu.jammed = true) (k : ℕ) :
    Inert s ((Machine.stepMachine V)^[k] s) k := by
  induction k with
  | zero => exact .refl hjammed
  | succ k ih =>
    rw [Function.iterate_succ_apply']
    exact ih.trans (.stepMachine V ih.jammed)

/-- A jammed step takes one cycle. -/
theorem stepCycles_of_jammed (V : Variant) (hjammed : s.cpu.jammed = true) :
    s.stepCycles V = 1 := by
  obtain ⟨value, haccesses, _⟩ := step_of_jammed V s hjammed
  rw [stepCycles_eq, haccesses, List.length_singleton]

theorem spent_of_jammed (V : Variant) (hjammed : s.cpu.jammed = true) (k : ℕ) :
    spent (Machine.stepMachine V) (stepCycles V) k s = k := by
  induction k with
  | zero => rfl
  | succ k ih => rw [spent_succ, ih, stepCycles_of_jammed V (Inert.iterate V hjammed k).jammed]

/-- A jammed processor spends every budget exactly. -/
theorem run_of_jammed (V : Variant) (hjammed : s.cpu.jammed = true) {budget : U64} {fuel : ℕ}
    (hfuel : budget.toNat ≤ fuel) :
    s.run V budget fuel = some (budget, (Machine.stepMachine V)^[budget.toNat] s) := by
  have hreach : Reaches (Machine.stepMachine V) (stepCycles V) budget.toNat budget.toNat s := by
    refine ⟨(spent_of_jammed V hjammed _).ge, fun j hj => ?_⟩
    rwa [spent_of_jammed V hjammed]
  have hwrap : spent (Machine.stepMachine V) (stepCycles V) budget.toNat s < 2 ^ 64 := by
    rw [spent_of_jammed V hjammed]
    exact budget.isLt
  rw [run_eq hreach hwrap, if_pos hfuel, spent_of_jammed V hjammed, BitVec.ofNat_toNat,
    BitVec.setWidth_eq]

theorem control_of_jammed (V : Variant) (hjammed : s.cpu.jammed = true) {fuel : ℕ} {c : Control}
    (hfuel : ∀ budget, c = .run budget → budget.toNat ≤ fuel) :
    ∃ t, s.control V fuel c = some (c.jammedReturn, t) ∧ Inert s t c.jammedCycles := by
  cases c with
  | pin c => exact ⟨_, rfl, .pinCall hjammed c⟩
  | run budget =>
    refine ⟨_, ?_, Inert.iterate V hjammed budget.toNat⟩
    rw [control, run_of_jammed V hjammed (hfuel budget rfl)]
    rfl
  | step =>
    have hone : (s.step V).1 = 1 := by
      apply BitVec.eq_of_toNat_eq
      exact stepCycles_of_jammed V hjammed
    exact ⟨_, by rw [control, hone]; rfl, .stepMachine V hjammed⟩

/-- **Inert.** Whatever the host does, a jammed processor only reads at its program
counter, once for each cycle it takes. -/
theorem controls_of_jammed (V : Variant) (hjammed : s.cpu.jammed = true) {fuel : ℕ}
    {cs : List Control} (hfuel : ∀ budget, .run budget ∈ cs → budget.toNat ≤ fuel) :
    ∃ t, s.controls V fuel cs = some (cs.map Control.jammedReturn, t) ∧
      Inert s t (cs.map Control.jammedCycles).sum := by
  induction cs generalizing s with
  | nil => exact ⟨s, rfl, .refl hjammed⟩
  | cons c cs ih =>
    obtain ⟨t, hc, ht⟩ : ∃ t, s.control V fuel c = some (c.jammedReturn, t) ∧
        Inert s t c.jammedCycles :=
      control_of_jammed V hjammed fun budget heq => hfuel budget (heq ▸ List.mem_cons_self)
    obtain ⟨u, hcs, hu⟩ := ih ht.jammed fun budget hmem =>
      hfuel budget (List.mem_cons_of_mem _ hmem)
    refine ⟨u, ?_, ht.trans hu⟩
    rw [controls, hc, Option.bind_some, hcs]
    rfl

/-! ### The reset -/

/-- After a reset, whatever was latched before it, an NMI service comes from a transition
since the reset, and an IRQ service from a level that was asserted and unmasked when
the step before it ended. -/
theorem reset_serves_afresh {β : Type} [BusLike β] (V : Variant) (m : Machine β NullHooks)
    (host : ℕ → List PinCall) :
    (∃ op, (m.reset.pinnedBefore V host 0).stepKind = .instruction op) ∧
    ∀ k,
      ((m.reset.pinnedBefore V host (k + 1)).stepKind = .nmi →
        0 < m.reset.risesBefore V host { m.cpu.pins with nmiEdge := false } m.resetPinCalls k) ∧
      ((m.reset.pinnedBefore V host (k + 1)).stepKind = .irq →
        (m.reset.pinnedSteps V host (k + 1)).cpu.pins.irqLine = true ∧
          m.reset.polledMask V host k = false) := by
  have hboot := Booted.reset m
  obtain ⟨hjammed, hnmi, hirq⟩ := hboot.idle
  have hrunning {k : ℕ} {kind : StepKind} (hne : kind ≠ .jammed)
      (hkind : (m.reset.pinnedSteps V host (k + 1)).stepKind = kind) :
      m.reset.NoJam V host (k + 1) := by
    apply NoJam.of_running
    rw [← Bool.not_eq_true, ← stepKind_eq_jammed, hkind]
    exact hne
  simp only [pinnedBefore_stepKind]
  refine ⟨⟨m.reset.opcode, stepKind_of_idle hjammed hnmi hirq⟩, fun k => ⟨?_, ?_⟩⟩
  · intro hkind
    exact (hboot.nmi_iff (hrunning (by decide) hkind)).mp hkind
  · intro hkind
    exact ((irq_iff hboot.exclusive (hrunning (by decide) hkind) hjammed).mp hkind).2

/-- The step that executes a JAM moves the program counter and nothing else. -/
theorem step_of_jam {m : Machine β NullHooks}
    (hjam : m.stepKind.executes Instr.jams = true) :
    (m.stepMachine V).arch = m.arch.advance 1 ∧ (m.stepMachine V).cpu.jammed = true ∧
      ∀ addr value, .write addr value ∉ m.stepAccesses V := by
  obtain ⟨op, hkind, hjams⟩ := exists_instruction_of_executes hjam
  obtain ⟨mode, hmode⟩ := Instr.eq_of_jams hjams
  refine ⟨?_, ?_, fun addr value => ?_⟩
  · rw [stepMachine_arch, hkind]
    simp only [StepKind.effect, hmode]
    rfl
  · rw [step_jams, hkind]
    exact hjams
  · rw [stepAccesses_eq, hkind]
    simp [StepKind.accesses, hmode, Instr.accesses, SpecialOp.accesses, Arch.rd]

/-- **Jammed until reset.** A step that executes a JAM opcode changes no register but the
program counter, no memory, and issues no write. After it, every sequence of steps, runs
and pin calls leaves the processor jammed in that state, whatever the poll of the JAM
latched: each step takes one cycle and each run exactly its budget, and each of those
cycles is a read at the program counter. A reset lifts the jam, and no NMI or IRQ from
before it is serviced after it. -/
theorem jammed_until_reset (V : Variant) (m : Machine β NullHooks)
    (hjam : m.stepKind.executes Instr.jams = true) :
    ((m.stepMachine V).cpu.regs = { m.cpu.regs with pc := m.cpu.regs.pc + 1 } ∧
      PlainMemory.memory (m.stepMachine V).bus = PlainMemory.memory m.bus ∧
      ∀ addr value, .write addr value ∉ m.stepAccesses V) ∧
    ∀ (fuel : ℕ) (cs : List Control), (∀ budget, .run budget ∈ cs → budget.toNat ≤ fuel) →
      ∃ t : Machine (Logged β) NullHooks,
        (m.stepMachine V).controls V fuel cs = some (cs.map Control.jammedReturn, t.forget) ∧
        (m.stepMachine V).logged.controls V fuel cs = some (cs.map Control.jammedReturn, t) ∧
        t.cpu.regs = (m.stepMachine V).cpu.regs ∧
        PlainMemory.memory t.bus = PlainMemory.memory m.bus ∧
        BusEvent.accesses t.bus.log =
          List.replicate (cs.map Control.jammedCycles).sum
            (.read (m.cpu.regs.pc + 1) (PlainMemory.memory m.bus (m.cpu.regs.pc + 1))) ∧
        t.cpu.jammed = true ∧ t.forget.stepKind = .jammed ∧
        t.forget.reset.cpu.jammed = false ∧
        ∀ host : ℕ → List PinCall,
          (∃ op, (t.forget.reset.pinnedBefore V host 0).stepKind = .instruction op) ∧
          ∀ k,
            ((t.forget.reset.pinnedBefore V host (k + 1)).stepKind = .nmi →
              0 < t.forget.reset.risesBefore V host { t.cpu.pins with nmiEdge := false }
                t.forget.resetPinCalls k) ∧
            ((t.forget.reset.pinnedBefore V host (k + 1)).stepKind = .irq →
              (t.forget.reset.pinnedSteps V host (k + 1)).cpu.pins.irqLine = true ∧
                t.forget.reset.polledMask V host k = false) := by
  obtain ⟨harch, hjammed, hwrites⟩ := step_of_jam (V := V) hjam
  have hregs : (m.stepMachine V).cpu.regs = { m.cpu.regs with pc := m.cpu.regs.pc + 1 } :=
    congrArg Arch.regs harch
  have hmemory : PlainMemory.memory (m.stepMachine V).bus = PlainMemory.memory m.bus :=
    congrArg Arch.mem harch
  refine ⟨⟨hregs, hmemory, hwrites⟩, fun fuel cs hfuel => ?_⟩
  obtain ⟨t, hcontrols, ht⟩ :=
    controls_of_jammed (s := (m.stepMachine V).logged) V hjammed hfuel
  have hforget := controls_forget V fuel cs (m.stepMachine V).logged
  rw [hcontrols] at hforget
  refine ⟨t, hforget, hcontrols, ?_, ?_, ?_, ht.jammed, stepKind_eq_jammed.mpr ht.jammed,
    (reset_core t.forget).2.2, fun host => reset_serves_afresh V t.forget host⟩
  · exact congrArg Plain.regs ht.plain
  · exact (congrArg Plain.mem ht.plain).trans hmemory
  · have htrace := congrArg Plain.trace ht.plain
    rw [plain_trace] at htrace
    rw [htrace, ← hmemory]
    change [] ++ List.replicate _ (Arch.rd (m.stepMachine V).arch (m.stepMachine V).cpu.regs.pc) = _
    rw [List.nil_append, hregs]
    rfl

/-- A JAM with an unmasked IRQ pending at its end, then a step and a run. -/
theorem jammed_until_reset_irq :
    let m := (fresh { i := false } { memory := fun _ => 0x02 : FlatBus }).setIrq true
    ∃ t : Machine (Logged FlatBus) NullHooks,
      (m.stepMachine Nmos6502).controls Nmos6502 100 [.step, .run 100] =
        some ([.step 1, .run 100], t.forget) ∧ t.cpu.jammed = true := by
  obtain ⟨t, h, _, _, _, _, hjammed, _⟩ := (jammed_until_reset Nmos6502
    ((fresh { i := false } { memory := fun _ => 0x02 : FlatBus }).setIrq true)
    (by decide +kernel)).2 100 [.step, .run 100] (by simp)
  exact ⟨t, h, hjammed⟩

end Machine

end Mos6502
