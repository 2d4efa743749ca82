import Mos6502.Runs

/-!
# The interrupt latches along a run

Which kind the next step is depends on five latches: the NMI edge, the two pending
flags, the polled mask and the jam. The two pending flags are never set together,
and with that a step leaves behind a simple function of the pins at its end.
-/

namespace Mos6502

open Effects

namespace Machine

variable {β : Type}

/-- The two pending flags are never set together. -/
def Exclusive (m : Machine β NullHooks) : Prop := (m.cpu.pendingNmi && m.cpu.pendingIrq) = false

theorem Exclusive.fresh (regs : Registers) (bus : β) : (fresh regs bus).Exclusive := rfl

theorem Exclusive.pinCalls {m : Machine β NullHooks} (h : m.Exclusive) (cs : List PinCall) :
    (m.pinCalls cs).Exclusive := by
  rwa [Exclusive, pinCalls_pendingNmi, pinCalls_pendingIrq]

variable [BusLike β]

/-! ### The kind of a step -/

section kinds

variable {m : Machine β NullHooks}

/-- A step that executes an instruction starts with no jam and nothing pending. -/
theorem idle_of_instruction {op : U8} (h : m.stepKind = .instruction op) :
    m.cpu.jammed = false ∧ m.cpu.pendingNmi = false ∧ m.cpu.pendingIrq = false ∧
      m.opcode = op := by
  unfold stepKind at h
  split_ifs at h with hjammed hnmi hirq
  simp only [Bool.not_eq_true] at hjammed hnmi hirq
  exact ⟨hjammed, hnmi, hirq, StepKind.instruction.inj h⟩

theorem stepKind_of_idle (hjammed : m.cpu.jammed = false) (hnmi : m.cpu.pendingNmi = false)
    (hirq : m.cpu.pendingIrq = false) : m.stepKind = .instruction m.opcode := by
  simp [stepKind, hjammed, hnmi, hirq]

theorem stepKind_eq_irq :
    m.stepKind = .irq ↔
      m.cpu.jammed = false ∧ m.cpu.pendingNmi = false ∧ m.cpu.pendingIrq = true := by
  cases hjammed : m.cpu.jammed <;> cases hnmi : m.cpu.pendingNmi <;>
    cases hirq : m.cpu.pendingIrq <;> simp [stepKind, hjammed, hnmi, hirq]

theorem stepKind_eq_nmi :
    m.stepKind = .nmi ↔ m.cpu.jammed = false ∧ m.cpu.pendingNmi = true := by
  cases hjammed : m.cpu.jammed <;> cases hnmi : m.cpu.pendingNmi <;>
    cases hirq : m.cpu.pendingIrq <;> simp [stepKind, hjammed, hnmi, hirq]

theorem stepKind_eq_jammed : m.stepKind = .jammed ↔ m.cpu.jammed = true := by
  cases hjammed : m.cpu.jammed <;> cases hnmi : m.cpu.pendingNmi <;>
    cases hirq : m.cpu.pendingIrq <;> simp [stepKind, hjammed, hnmi, hirq]

theorem exists_instruction_of_executes {p : Instr → Bool} (h : m.stepKind.executes p = true) :
    ∃ op, m.stepKind = .instruction op ∧ p (instr op) = true := by
  cases hkind : m.stepKind with
  | instruction op => exact ⟨op, rfl, by rwa [hkind] at h⟩
  | jammed | nmi | irq => simp [hkind, StepKind.executes] at h

end kinds

/-! ### Mutual exclusion -/

section exclusive

variable (V : Variant) {m : Machine β NullHooks}

/-- With at most one pending flag set, an IRQ is pending after a step exactly when its
level is asserted there, unmasked, and no NMI edge takes precedence. -/
theorem Exclusive.step_pendingIrq (h : m.Exclusive) (hjammed : m.cpu.jammed = false) :
    (m.stepMachine V).cpu.pendingIrq =
      (!(m.cpu.pins.calls (m.stepPinCalls V)).nmiEdge &&
        (m.cpu.pins.calls (m.stepPinCalls V)).irqLine && !(m.stepMachine V).cpu.pollI) := by
  rw [Machine.step_pendingIrq V m hjammed, h, Bool.false_or]

/-- After a step whose polled mask is set no IRQ is pending. -/
theorem Exclusive.pendingIrq_of_mask (h : m.Exclusive) (hjammed : m.cpu.jammed = false)
    (hmask : m.stepKind.mask m.cpu.regs (m.stepMachine V).cpu.regs = true) :
    (m.stepMachine V).cpu.pendingIrq = false := by
  rw [h.step_pendingIrq V hjammed, step_pollI V m hjammed, hmask, Bool.not_true, Bool.and_false]

theorem Exclusive.stepMachine (h : m.Exclusive) : (m.stepMachine V).Exclusive := by
  cases hjammed : m.cpu.jammed with
  | true =>
    obtain ⟨_, _, _, hcpu⟩ := step_of_jammed V m hjammed
    rwa [Exclusive, hcpu]
  | false =>
    rw [Exclusive, step_pendingNmi V m hjammed, h.step_pendingIrq V hjammed]
    cases (m.cpu.pins.calls (m.stepPinCalls V)).nmiEdge <;> rfl

theorem Exclusive.reset (m : Machine β NullHooks) : m.reset.Exclusive := by
  obtain ⟨_, hnmi, _⟩ := reset_latches m
  rw [Exclusive, hnmi, Bool.false_and]

theorem Exclusive.hostCalls (h : m.Exclusive) (cs : List HostCall) :
    (m.hostCalls cs).Exclusive :=
  hostCalls_invariant (fun _ c h => h.pinCalls [c]) (fun m _ => Exclusive.reset m) cs h

/-- **Mutual exclusion.** It holds at every step boundary of every run. -/
theorem Exclusive.afterSteps (h : m.Exclusive) (host : ℕ → List HostCall) (k : ℕ) :
    (m.afterSteps V host k).Exclusive :=
  afterSteps_invariant V host m h (fun j h => (h.hostCalls (host j)).stepMachine V) k

theorem Exclusive.beforeStep (h : m.Exclusive) (host : ℕ → List HostCall) (k : ℕ) :
    (m.beforeStep V host k).Exclusive := (h.afterSteps V host k).hostCalls _

end exclusive

/-! ### The NMI latch -/

section windows

variable (V : Variant) (host : ℕ → List PinCall) (m : Machine β NullHooks)

/-- The machine after `k` steps under a host that only moves the pins. -/
def pinnedSteps (k : ℕ) : Machine β NullHooks := m.afterSteps V (fun k => (host k).map .pin) k

/-- The machine right before step `k` under a host that only moves the pins. -/
def pinnedBefore (k : ℕ) : Machine β NullHooks := (m.pinnedSteps V host k).pinCalls (host k)

/-- All pin calls from the end of the step before step `k` to the end of step `k`. -/
def window (k : ℕ) : List PinCall := host k ++ (m.pinnedBefore V host k).stepPinCalls V

/-- No step before step `k` executes a JAM. -/
def NoJam (k : ℕ) : Prop :=
  ∀ j < k, (m.pinnedBefore V host j).stepKind.executes Instr.jams = false

end windows

section windows

variable {V : Variant} {host : ℕ → List PinCall} {m : Machine β NullHooks} {k : ℕ}

@[simp] theorem pinnedSteps_zero : m.pinnedSteps V host 0 = m := rfl

theorem pinnedSteps_succ :
    m.pinnedSteps V host (k + 1) = (m.pinnedBefore V host k).stepMachine V := by
  simp only [pinnedSteps, afterSteps_succ, beforeStep, hostCalls_pins]
  rfl

@[simp] theorem pinnedBefore_stepKind :
    (m.pinnedBefore V host k).stepKind = (m.pinnedSteps V host k).stepKind :=
  pinCalls_stepKind _ _

theorem pinnedBefore_core :
    (m.pinnedBefore V host k).core = (m.pinnedSteps V host k).core := pinCalls_core _ _

theorem pinnedBefore_pins :
    (m.pinnedBefore V host k).cpu.pins = (m.pinnedSteps V host k).cpu.pins.calls (host k) :=
  pinCalls_pins _ _

theorem pinnedBefore_window :
    (m.pinnedBefore V host k).cpu.pins.calls ((m.pinnedBefore V host k).stepPinCalls V) =
      (m.pinnedSteps V host k).cpu.pins.calls (m.window V host k) := by
  rw [window, Pins.calls_append, pinnedBefore_pins]

theorem pinnedSteps_succ_jammed :
    (m.pinnedSteps V host (k + 1)).cpu.jammed = (m.pinnedSteps V host k).stepKind.jams := by
  rw [pinnedSteps_succ, step_jams, pinnedBefore_stepKind]

theorem Exclusive.pinnedSteps_succ (h : (m.pinnedSteps V host k).Exclusive) :
    (m.pinnedSteps V host (k + 1)).Exclusive := by
  rw [Machine.pinnedSteps_succ]
  exact (h.pinCalls (host k)).stepMachine V

theorem NoJam.mono {j : ℕ} (h : m.NoJam V host k) (hjk : j ≤ k) : m.NoJam V host j :=
  fun i hi => h i (by omega)

/-- A processor jams only by executing a JAM. -/
theorem NoJam.jammed (h : m.NoJam V host k) (hstart : m.cpu.jammed = false) :
    (m.pinnedSteps V host k).cpu.jammed = false := by
  induction k with
  | zero => exact hstart
  | succ k ih =>
    have hbefore := ih (h.mono (Nat.le_succ k))
    have hnojam := h k (Nat.lt_succ_self k)
    rw [pinnedBefore_stepKind] at hnojam
    rw [pinnedSteps_succ_jammed]
    cases hkind : (m.pinnedSteps V host k).stepKind with
    | jammed => simp [stepKind_eq_jammed.mp hkind] at hbefore
    | nmi | irq => rfl
    | instruction op =>
      rw [hkind] at hnojam
      exact hnojam

/-- A processor that is not jammed has not executed a JAM since it started. -/
theorem NoJam.of_running (h : (m.pinnedSteps V host k).cpu.jammed = false) :
    m.NoJam V host k := by
  induction k with
  | zero => exact fun j hj => absurd hj (Nat.not_lt_zero j)
  | succ k ih =>
    rw [pinnedSteps_succ_jammed] at h
    have hbefore : (m.pinnedSteps V host k).cpu.jammed = false := by
      cases hjammed : (m.pinnedSteps V host k).cpu.jammed with
      | false => rfl
      | true =>
        rw [stepKind_eq_jammed.mpr hjammed] at h
        exact h
    intro j hj
    rcases Nat.lt_succ_iff_lt_or_eq.mp hj with hlt | rfl
    · exact ih hbefore j hlt
    · rw [pinnedBefore_stepKind]
      cases hkind : (m.pinnedSteps V host j).stepKind with
      | instruction op =>
        rw [hkind] at h
        exact h
      | jammed | nmi | irq => rfl

/-- Where neither the host nor the bus moves the NMI pin, no NMI becomes pending. -/
theorem pendingNmi_of_quiet [SilentBus β] (hpending : m.cpu.pendingNmi = false)
    (hedge : m.cpu.pins.nmiEdge = false)
    (hhost : ∀ k asserted, PinCall.setNmi asserted ∉ host k) (k : ℕ) :
    (m.pinnedSteps V host k).cpu.pendingNmi = false ∧
      (m.pinnedSteps V host k).cpu.pins.nmiEdge = false := by
  induction k with
  | zero => exact ⟨hpending, hedge⟩
  | succ k ih =>
    have hbefore : (m.pinnedBefore V host k).cpu.pins.nmiEdge = false := by
      rw [← Bool.not_eq_true, pinnedBefore_pins, Pins.calls_nmiEdge,
        Pins.rises_of_not_mem _ (hhost k), ih.2]
      simp
    rw [pinnedSteps_succ]
    cases hjammed : (m.pinnedBefore V host k).cpu.jammed with
    | true =>
      obtain ⟨_, _, _, hcpu⟩ := step_of_jammed V _ hjammed
      rw [hcpu, stepPinCalls_silent]
      exact ⟨(pinCalls_pendingNmi _ _).trans ih.1, hbefore⟩
    | false =>
      rw [step_pendingNmi V _ hjammed, step_pins V _ hjammed, stepPinCalls_silent]
      exact ⟨hbefore, rfl⟩

variable (h : m.NoJam V host (k + 1)) (hstart : m.cpu.jammed = false)
include h hstart

theorem NoJam.before : (m.pinnedBefore V host k).cpu.jammed = false :=
  (congrArg Core.jammed pinnedBefore_core).trans ((h.mono (Nat.le_succ k)).jammed hstart)

/-- The end of a step consumes the NMI edge. -/
theorem NoJam.nmiEdge : (m.pinnedSteps V host (k + 1)).cpu.pins.nmiEdge = false := by
  rw [pinnedSteps_succ, step_pins V _ (h.before hstart)]

theorem NoJam.nmiLine :
    (m.pinnedSteps V host (k + 1)).cpu.pins.nmiLine =
      ((m.pinnedSteps V host k).cpu.pins.calls (m.window V host k)).nmiLine := by
  rw [pinnedSteps_succ, step_pins V _ (h.before hstart), pinnedBefore_window]

theorem NoJam.irqLine :
    (m.pinnedSteps V host (k + 1)).cpu.pins.irqLine =
      ((m.pinnedSteps V host k).cpu.pins.calls (m.window V host k)).irqLine := by
  rw [pinnedSteps_succ, step_pins V _ (h.before hstart), pinnedBefore_window]

/-- **NMI delivery.** The next step services an NMI exactly when the edge was latched
at the start of the window of this step or a transition happens in it. -/
theorem NoJam.nmi_iff :
    (m.pinnedSteps V host (k + 1)).stepKind = .nmi ↔
      (m.pinnedSteps V host k).cpu.pins.nmiEdge = true ∨
        0 < (m.pinnedSteps V host k).cpu.pins.rises (m.window V host k) := by
  rw [stepKind_eq_nmi, and_iff_right (h.jammed hstart), ← Pins.calls_nmiEdge,
    ← pinnedBefore_window, ← step_pendingNmi V _ (h.before hstart), pinnedSteps_succ]

end windows

end Machine

end Mos6502
