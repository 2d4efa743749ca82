import Mos6502.Latches

/-!
# Interrupt entry and the I flag

Entering an interrupt service sets I, and no IRQ should be serviced before an
instruction clears it again. The polled mask is a copy of I, taken at the start of
an instruction: the two service paths of a step refresh it after the entry, but
BRK does not, so an IRQ level that is asserted when an unmasked BRK ends is
serviced at once. Every other entry masks.
-/

namespace Mos6502

open Effects

namespace Machine

variable {β : Type}

/-- I is set and no IRQ has got past it. -/
def Masked (m : Machine β NullHooks) : Prop :=
  m.cpu.regs.i = true ∧ m.cpu.pendingIrq = false

variable [BusLike β]

/-- The next step executes an instruction that may clear I, and leaves I clear. -/
def Unmasks (V : Variant) (m : Machine β NullHooks) : Prop :=
  m.stepKind.executes Instr.mayClearI = true ∧ (m.stepMachine V).cpu.regs.i = false

/-- The next step is a BRK with I clear, at whose end the IRQ level is asserted and
no NMI edge is latched. -/
def SlippingBreak (V : Variant) (m : Machine β NullHooks) : Prop :=
  m.stepKind.executes Instr.isBreak = true ∧ m.cpu.regs.i = false ∧
    (m.cpu.pins.calls (m.stepPinCalls V)).irqLine = true ∧
    (m.cpu.pins.calls (m.stepPinCalls V)).nmiEdge = false

/-- Interrupt entry masks IRQ: in a run, an IRQ service after an entry comes after
an instruction that cleared I in between. -/
def EntryMasksIrq (V : Variant) (host : ℕ → List HostCall) (m : Machine β NullHooks) : Prop :=
  ∀ i j, i < j → (m.beforeStep V host i).stepKind.isEntry = true →
    (m.beforeStep V host j).stepKind = .irq →
    ∃ k, i < k ∧ k < j ∧ (m.beforeStep V host k).Unmasks V

/-! ### One step -/

section steps

variable (V : Variant) {m : Machine β NullHooks}

/-- BRK sets I, but moves neither the polled mask nor the jam latch. -/
theorem step_of_break {op : U8} (hkind : m.stepKind = .instruction op)
    (hbreak : (instr op).isBreak = true) :
    (m.stepMachine V).cpu.regs.i = true ∧ (m.stepMachine V).cpu.pollI = m.cpu.regs.i ∧
      (m.stepMachine V).cpu.jammed = false := by
  have heffect := step_effect V m
  obtain ⟨hjammed, _, _, _⟩ := idle_of_instruction hkind
  obtain ⟨mode, hmode⟩ := Instr.eq_of_isBreak hbreak
  rw [step_pollI V m hjammed, step_jams, hkind]
  rw [hkind] at heffect
  simp only [StepKind.mask, StepKind.jams, hmode]
  exact ⟨heffect.break_sets hbreak, rfl, rfl⟩

/-- After an entry other than a slipping BRK, I masks the IRQ. -/
theorem masked_of_entry (hexcl : m.Exclusive) (hentry : m.stepKind.isEntry = true)
    (hslip : ¬ m.SlippingBreak V) : (m.stepMachine V).Masked := by
  have heffect := step_effect V m
  cases hkind : m.stepKind with
  | jammed => simp [hkind, StepKind.isEntry] at hentry
  | nmi | irq =>
    rw [hkind] at heffect
    obtain ⟨hi, _, _⟩ := heffect
    have hjammed : m.cpu.jammed = false := by
      first | exact (stepKind_eq_nmi.mp hkind).1 | exact (stepKind_eq_irq.mp hkind).1
    exact ⟨hi, hexcl.pendingIrq_of_mask V hjammed (by rw [hkind]; rfl)⟩
  | instruction op =>
    obtain ⟨hjammed, _, _, _⟩ := idle_of_instruction hkind
    have hbreak : (instr op).isBreak = true := by rwa [hkind] at hentry
    obtain ⟨hset, hpollI, _⟩ := step_of_break V hkind hbreak
    refine ⟨hset, ?_⟩
    rw [hexcl.step_pendingIrq V hjammed, hpollI]
    by_contra hpending
    simp only [Bool.not_eq_false, Bool.and_eq_true, Bool.not_eq_true'] at hpending
    obtain ⟨⟨hedge, hirq⟩, hi⟩ := hpending
    exact hslip ⟨by rw [hkind]; exact hbreak, hi, hirq, hedge⟩

/-- A slipping BRK lets an IRQ through. -/
theorem irq_of_slippingBreak (h : m.SlippingBreak V) : (m.stepMachine V).stepKind = .irq := by
  obtain ⟨hexec, hi, hirq, hedge⟩ := h
  obtain ⟨op, hkind, hbreak⟩ := exists_instruction_of_executes hexec
  obtain ⟨hjammed, _, _, _⟩ := idle_of_instruction hkind
  obtain ⟨_, hpollI, hjammed'⟩ := step_of_break V hkind hbreak
  refine stepKind_eq_irq.mpr ⟨hjammed', ?_, ?_⟩
  · rw [step_pendingNmi V m hjammed, hedge]
  · rw [step_pendingIrq V m hjammed, hedge, hirq, hpollI, hi]
    simp

/-- While no instruction clears I, it stays set and the IRQ stays masked. -/
theorem Masked.stepMachine (h : m.Masked) (hnone : ¬ m.Unmasks V) :
    (m.stepMachine V).Masked := by
  obtain ⟨hi, hirq⟩ := h
  have heffect := step_effect V m
  cases hjammed : m.cpu.jammed with
  | true =>
    obtain ⟨_, _, _, hcpu⟩ := step_of_jammed V m hjammed
    rw [Masked, hcpu]
    exact ⟨hi, hirq⟩
  | false =>
    have hset : (m.stepMachine V).cpu.regs.i = true := by
      cases hkind : m.stepKind with
      | jammed => simp [stepKind_eq_jammed.mp hkind] at hjammed
      | nmi | irq =>
        rw [hkind] at heffect
        exact heffect.1
      | instruction op =>
        rw [hkind] at heffect
        cases hclear : (instr op).mayClearI with
        | false => exact heffect.keeps_set hclear hi
        | true =>
          by_contra hni
          exact hnone ⟨by rw [hkind]; exact hclear, by simpa using hni⟩
    have hexcl : m.Exclusive := by rw [Exclusive, hirq, Bool.and_false]
    exact ⟨hset, hexcl.pendingIrq_of_mask V hjammed (StepKind.mask_of_set _ hi hset)⟩

end steps

/-! ### The host -/

section host

variable {m : Machine β NullHooks}

theorem Masked.reset (m : Machine β NullHooks) : m.reset.Masked :=
  ⟨(reset_core m).1, (reset_latches m).2.2⟩

theorem Masked.hostCalls (h : m.Masked) (cs : List HostCall) : (m.hostCalls cs).Masked := by
  refine hostCalls_invariant (fun m c h => ?_) (fun m _ => Masked.reset m) cs h
  cases c <;> exact h

/-- A reset masks the IRQ, whatever the host does before and after it. -/
theorem masked_hostCalls {cs : List HostCall} (h : HostCall.reset ∈ cs) :
    (m.hostCalls cs).Masked := by
  induction cs generalizing m with
  | nil => simp at h
  | cons c cs ih =>
    rw [hostCalls_cons]
    rcases List.mem_cons.mp h with rfl | h
    · exact Masked.hostCalls (Masked.reset m) cs
    · exact ih h

theorem hostCalls_stepKind {cs : List HostCall} (h : HostCall.reset ∉ cs) :
    (m.hostCalls cs).stepKind = m.stepKind := by
  induction cs generalizing m with
  | nil => rfl
  | cons c cs ih =>
    cases c with
    | reset => simp at h
    | pin c =>
      have hpin : (m.pinCall c).stepKind = m.stepKind := pinCalls_stepKind m [c]
      exact (ih fun hmem => h (List.mem_cons_of_mem _ hmem)).trans hpin

end host

/-! ### Runs -/

/-- **Interrupt entry masks IRQ exactly in the runs in which no BRK slips.** A run from
a fresh processor, under any host and any bus, services an IRQ after an entry only
once an instruction has cleared I, if and only if the host resets the processor
right after each BRK that ends unmasked with the IRQ level asserted and no NMI
edge latched. -/
theorem entryMasksIrq_iff (V : Variant) (host : ℕ → List HostCall) (regs : Registers) (bus : β) :
    EntryMasksIrq V host (fresh regs bus) ↔
      ∀ k, ((fresh regs bus).beforeStep V host k).SlippingBreak V →
        HostCall.reset ∈ host (k + 1) := by
  constructor
  · intro hmasks k hslip
    by_contra hreset
    have hkind : ((fresh regs bus).beforeStep V host (k + 1)).stepKind = .irq := by
      rw [beforeStep, hostCalls_stepKind hreset, afterSteps_succ]
      exact irq_of_slippingBreak V hslip
    have hentry : ((fresh regs bus).beforeStep V host k).stepKind.isEntry = true := by
      obtain ⟨op, hop, hbreak⟩ := exists_instruction_of_executes hslip.1
      rw [hop]
      exact hbreak
    obtain ⟨j, hkj, hjk, _⟩ := hmasks k (k + 1) (by omega) hentry hkind
    omega
  · intro hresets i j hij hentry hirq
    by_contra hnone
    -- From the entry on, the IRQ is masked before every step.
    have hmasked : ((fresh regs bus).beforeStep V host j).Masked := by
      have hexcl := (Exclusive.fresh regs bus).beforeStep V host i
      refine until_release (fun k => ((fresh regs bus).beforeStep V host k).Masked)
        (fun k => ((fresh regs bus).beforeStep V host k).Unmasks V) ?_
        (fun k _ hk hstays => (hk.stepMachine V hstays).hostCalls _) (Nat.succ_le_of_lt hij)
        fun k hik hkj hunmasks => hnone ⟨k, hik, hkj, hunmasks⟩
      by_cases hslip : ((fresh regs bus).beforeStep V host i).SlippingBreak V
      · exact masked_hostCalls (hresets i hslip)
      · exact (masked_of_entry V hexcl hentry hslip).hostCalls _
    have hpending := (stepKind_eq_irq.mp hirq).2.2
    simp [hmasked.2] at hpending

/-- A BRK with I clear, which the host asserts IRQ before. -/
theorem not_entryMasksIrq :
    ¬ EntryMasksIrq Nmos6502 (fun k => if k = 0 then [.pin (.setIrq true)] else [])
      (fresh { i := false } ({} : FlatBus)) := by
  intro h
  obtain ⟨k, h0k, hk1, _⟩ := h 0 1 (by decide) (by decide +kernel) (by decide +kernel)
  omega

end Machine

end Mos6502
