import Mos6502.InterruptMasking

/-!
# The IRQ pin while it is masked

The IRQ is level sensed, so a level that is released before an instruction clears I leaves no
trace. Here two hosts move the IRQ pin in different ways and do everything else alike. Until
an instruction clears I, the two machines differ in nothing but the level of that pin.
-/

namespace Mos6502

open Effects

/-- The level of the IRQ pin goes into no other pin. -/
theorem Pins.calls_setIrq (p : Pins) (cs : List PinCall) :
    ((p.setIrq false).calls cs).setIrq false = (p.calls cs).setIrq false := by
  induction cs generalizing p with
  | nil => rfl
  | cons c cs ih =>
    cases c with
    | setIrq asserted => rfl
    | setNmi asserted => exact ih (p.setNmi asserted)

/-- Whether the host moves the IRQ pin. -/
def HostCall.movesIrq : HostCall → Bool
  | .pin (.setIrq _) => true
  | .pin (.setNmi _) => false
  | .reset => false

namespace Machine

variable {β : Type}

/-- The machine without what the processor knows of the IRQ. -/
def forgetIrq (m : Machine β NullHooks) : Machine β NullHooks :=
  { m with cpu := { m.cpu with pins := m.cpu.pins.setIrq false, pendingIrq := false } }

/-- The machines differ at most in the IRQ. -/
def SameButIrq (m m' : Machine β NullHooks) : Prop := m.forgetIrq = m'.forgetIrq

theorem Masked.forgetIrq_eq {m : Machine β NullHooks} (h : m.Masked) :
    m.forgetIrq = m.setIrq false := by
  unfold forgetIrq setIrq
  rw [← h.2]

namespace SameButIrq

variable {m m' : Machine β NullHooks}

/-- What a function makes of the forgetful machine decides what it makes of the machine. -/
theorem map (h : SameButIrq m m') (f : Machine β NullHooks → Machine β NullHooks)
    (hf : ∀ m, SameButIrq (f m.forgetIrq) (f m)) :
    SameButIrq (f m) (f m') := by
  have heq : f m.forgetIrq = f m'.forgetIrq := congrArg f h
  exact (hf m).symm.trans ((congrArg forgetIrq heq).trans (hf m'))

/-- What does not read the IRQ is the same of both. -/
theorem agree {α : Type} (h : SameButIrq m m') (g : Machine β NullHooks → α)
    (hg : ∀ m, g m.forgetIrq = g m) : g m = g m' :=
  (hg m).symm.trans ((congrArg g h).trans (hg m'))

theorem regs (h : SameButIrq m m') : m.cpu.regs = m'.cpu.regs :=
  h.agree (fun m => m.cpu.regs) fun _ => rfl

theorem pollImmediate (h : SameButIrq m m') : SameButIrq m.pollImmediate m'.pollImmediate :=
  h.map _ fun _ => rfl

/-- The poll at the end of a step latches the IRQ nowhere but in its pending flag. -/
theorem pollInterrupts (h : SameButIrq m m') :
    SameButIrq m.pollInterrupts m'.pollInterrupts := by
  refine h.map _ fun m => ?_
  obtain ⟨c, bus, hooks⟩ := m
  cases hedge : c.pins.nmiEdge <;>
    cases hirq : c.pins.irqLine && !c.pollI <;>
      simp [SameButIrq, forgetIrq, Machine.pollInterrupts, Cpu.pollInterrupts, Pins.setIrq,
        hedge, hirq]

variable [BusLike β]

theorem handle (h : SameButIrq m m') (c : CpuCall) :
    (Machine.handle c m).1 = (Machine.handle c m').1 ∧
      SameButIrq (Machine.handle c m).2 (Machine.handle c m').2 := by
  have hanswer (m : Machine β NullHooks) :
      (Machine.handle c m.forgetIrq).1 = (Machine.handle c m).1 := by cases c <;> rfl
  refine ⟨h.agree (fun m => (Machine.handle c m).1) hanswer,
    h.map (fun m => (Machine.handle c m).2) fun m => ?_⟩
  cases c with
  | read addr =>
    have hpins := m.cpu.pins.calls_setIrq
      ((BusLike.tick m.bus).calls ++ (BusLike.read (BusLike.tick m.bus).bus addr).calls)
    rw [Pins.calls_append, Pins.calls_append] at hpins
    exact congrArg (fun pins => { (m.read addr).2.forgetIrq with
      cpu := { (m.read addr).2.forgetIrq.cpu with pins } }) hpins
  | write addr value =>
    have hpins := m.cpu.pins.calls_setIrq
      ((BusLike.tick m.bus).calls ++ (BusLike.write (BusLike.tick m.bus).bus addr value).calls)
    rw [Pins.calls_append, Pins.calls_append] at hpins
    exact congrArg (fun pins => { (m.write addr value).forgetIrq with
      cpu := { (m.write addr value).forgetIrq.cpu with pins } }) hpins
  | regs | setRegs _ | jam | pollImmediate => rfl

theorem exec {α : Type} (h : SameButIrq m m') (p : Policy α) :
    (m.exec p).1 = (m'.exec p).1 ∧ SameButIrq (m.exec p).2 (m'.exec p).2 := by
  have hcall (c : CpuCall) (m m' : Machine β NullHooks) (h : SameButIrq m m') := h.handle c
  exact Program.run_sim hcall p h

theorem reset (h : SameButIrq m m') : SameButIrq m.reset m'.reset := by
  have hcleared : SameButIrq m.cleared m'.cleared := h.map cleared fun _ => rfl
  rw [reset_eq, reset_eq]
  exact (hcleared.exec resetSequence).2.pollImmediate

/-- A host call that moves the IRQ pin makes no difference. -/
theorem hostCall_of_movesIrq (h : SameButIrq m m') {c : HostCall} (hc : c.movesIrq = true) :
    SameButIrq (m.hostCall c) m' := by
  rcases c with (asserted | asserted) | _
  · cases hc
  · exact h
  · cases hc

theorem hostCall (h : SameButIrq m m') (c : HostCall) :
    SameButIrq (m.hostCall c) (m'.hostCall c) := by
  rcases c with (asserted | asserted) | _
  · exact h.map (Machine.setNmi · asserted) fun _ => rfl
  · exact h.map (Machine.setIrq · asserted) fun _ => rfl
  · exact h.reset

/-- A host that leaves out its calls to the IRQ pin leads to the same. -/
theorem filter_hostCalls (h : SameButIrq m m') (cs : List HostCall) :
    SameButIrq (m.hostCalls (cs.filter fun c => !c.movesIrq)) (m'.hostCalls cs) := by
  induction cs generalizing m m' with
  | nil => exact h
  | cons c cs ih =>
    cases hc : c.movesIrq with
    | true =>
      rw [List.filter_cons_of_neg (by simp [hc])]
      exact ih (hostCall_of_movesIrq h.symm hc).symm
    | false =>
      rw [List.filter_cons_of_pos (by simp [hc])]
      exact ih (h.hostCall c)

theorem hostCalls (h : SameButIrq m m') {cs cs' : List HostCall}
    (hcs : cs.filter (fun c => !c.movesIrq) = cs'.filter fun c => !c.movesIrq) :
    SameButIrq (m.hostCalls cs) (m'.hostCalls cs') := by
  have hleft : SameButIrq (m.hostCalls (cs.filter fun c => !c.movesIrq)) (m.hostCalls cs) :=
    filter_hostCalls rfl cs
  have hright := h.filter_hostCalls cs'
  rw [← hcs] at hright
  exact hleft.symm.trans hright

variable (V : Variant)

theorem serviceInterrupt (h : SameButIrq m m') (isNmi : Bool) (vector : U16) :
    SameButIrq (m.serviceInterrupt V isNmi vector) (m'.serviceInterrupt V isNmi vector) :=
  (h.exec (Policy.interruptSequence V false vector)).2.pollImmediate.pollInterrupts

theorem executeInstruction (h : SameButIrq m m') :
    SameButIrq (m.executeInstruction V) (m'.executeInstruction V) := by
  obtain ⟨hopcode, hfetched⟩ := h.pollImmediate.exec Policy.fetch
  unfold Machine.executeInstruction
  simp only [Hooks.onInstruction]
  rw [hopcode]
  exact (hfetched.exec _).2.pollInterrupts

/-- With no IRQ pending, both are about to take the same step. -/
theorem stepKind (h : SameButIrq m m') (hm : m.cpu.pendingIrq = false)
    (hm' : m'.cpu.pendingIrq = false) : m.stepKind = m'.stepKind := by
  unfold Machine.stepKind Machine.opcode
  rw [h.agree (fun m => m.cpu.jammed) fun _ => rfl,
    h.agree (fun m => m.cpu.pendingNmi) fun _ => rfl, hm, hm', (h.exec Policy.fetch).1]

/-- **One step.** It leads both to the same, whether or not it lets an IRQ in. -/
theorem stepMachine (h : SameButIrq m m') (hm : m.cpu.pendingIrq = false)
    (hm' : m'.cpu.pendingIrq = false) : SameButIrq (m.stepMachine V) (m'.stepMachine V) := by
  have hjams : m.cpu.jammed = m'.cpu.jammed := h.agree (fun m => m.cpu.jammed) fun _ => rfl
  have hnmis : m.cpu.pendingNmi = m'.cpu.pendingNmi :=
    h.agree (fun m => m.cpu.pendingNmi) fun _ => rfl
  cases hjammed : m.cpu.jammed with
  | true =>
    rw [stepMachine_jammed V hjammed, stepMachine_jammed V (hjams ▸ hjammed), h.regs]
    exact (h.handle (.read m'.cpu.regs.pc)).2
  | false =>
    have hjammed' : m'.cpu.jammed = false := hjams ▸ hjammed
    cases hnmi : m.cpu.pendingNmi with
    | true =>
      rw [stepMachine_nmi V hjammed hnmi, stepMachine_nmi V hjammed' (hnmis ▸ hnmi)]
      exact (h.map (fun m => { m with cpu := { m.cpu with pendingNmi := false } })
        fun _ => rfl).serviceInterrupt V true kNmiVector
    | false =>
      rw [stepMachine_idle V hjammed hnmi hm, stepMachine_idle V hjammed' (hnmis ▸ hnmi) hm']
      exact h.executeInstruction V

theorem unmasks (h : SameButIrq m m') (hm : m.cpu.pendingIrq = false)
    (hm' : m'.cpu.pendingIrq = false) (hunmasks : m'.Unmasks V) : m.Unmasks V := by
  obtain ⟨hkind, hi⟩ := hunmasks
  exact ⟨h.stepKind hm hm' ▸ hkind, (h.stepMachine V hm hm').regs ▸ hi⟩

end SameButIrq

/-! ### Runs -/

section runs

variable [BusLike β] {V : Variant} {host host' : ℕ → List HostCall} {m : Machine β NullHooks}

/-- The hosts do the same but for the IRQ pin. -/
def HostsSameButIrq (host host' : ℕ → List HostCall) : Prop :=
  ∀ k, (host k).filter (fun c => !c.movesIrq) = (host' k).filter fun c => !c.movesIrq

/-- Before each step of both runs the two machines are the same but for the IRQ, and mask it,
until an instruction clears I. -/
theorem Masked.beforeStep_sameButIrq (h : m.Masked) (hhosts : HostsSameButIrq host host') {k : ℕ}
    (hnone : ∀ j < k, ¬ (m.beforeStep V host j).Unmasks V) :
    (m.beforeStep V host k).Masked ∧ (m.beforeStep V host' k).Masked ∧
      SameButIrq (m.beforeStep V host k) (m.beforeStep V host' k) := by
  induction k with
  | zero => exact ⟨h.hostCalls _, h.hostCalls _, SameButIrq.hostCalls rfl (hhosts 0)⟩
  | succ k ih =>
    obtain ⟨hmasked, hmasked', hsame⟩ := ih fun j hj => hnone j (by omega)
    have hstays := hnone k (Nat.lt_succ_self k)
    have hstays' : ¬ (m.beforeStep V host' k).Unmasks V := fun hunmasks =>
      hstays (hsame.unmasks V hmasked.2 hmasked'.2 hunmasks)
    exact ⟨(hmasked.stepMachine V hstays).hostCalls _,
      (hmasked'.stepMachine V hstays').hostCalls _,
      (hsame.stepMachine V hmasked.2 hmasked'.2).hostCalls (hhosts (k + 1))⟩

/-- Machines that are equal before a step stay equal under equal calls of the host. -/
theorem beforeStep_eq_of_eq {k : ℕ} (heq : m.beforeStep V host k = m.beforeStep V host' k)
    (hlater : ∀ j, k < j → host j = host' j) {n : ℕ} (hn : k ≤ n) :
    m.beforeStep V host n = m.beforeStep V host' n := by
  induction n, hn using Nat.le_induction with
  | base => exact heq
  | succ n hkn ih =>
    rw [beforeStep, beforeStep, afterSteps_succ, afterSteps_succ, ih, hlater (n + 1) (by omega)]

/-- **A masked IRQ leaves no trace.** As long as no instruction clears I, the machines before a
step differ in the level of the IRQ pin alone, however the two hosts move it. Once the levels
are the same again, so is everything from there on. -/
theorem masked_irq_leaves_no_trace (V : Variant) (h : m.Masked)
    (hhosts : HostsSameButIrq host host') {k : ℕ}
    (hnone : ∀ j < k, ¬ (m.beforeStep V host j).Unmasks V) :
    (m.beforeStep V host k).setIrq false = (m.beforeStep V host' k).setIrq false ∧
      ((m.beforeStep V host k).cpu.pins.irqLine = (m.beforeStep V host' k).cpu.pins.irqLine →
        (∀ j, k < j → host j = host' j) →
        ∀ n, k ≤ n → m.beforeStep V host n = m.beforeStep V host' n) := by
  obtain ⟨hmasked, hmasked', hsame⟩ := h.beforeStep_sameButIrq (V := V) hhosts hnone
  have hreleased :
      (m.beforeStep V host k).setIrq false = (m.beforeStep V host' k).setIrq false :=
    hmasked.forgetIrq_eq.symm.trans (hsame.trans hmasked'.forgetIrq_eq)
  refine ⟨hreleased, fun hline hlater n hn => beforeStep_eq_of_eq ?_ hlater hn⟩
  calc
    m.beforeStep V host k
      = ((m.beforeStep V host k).setIrq false).setIrq
          (m.beforeStep V host k).cpu.pins.irqLine := rfl
    _ = ((m.beforeStep V host' k).setIrq false).setIrq
          (m.beforeStep V host' k).cpu.pins.irqLine := by rw [hreleased, hline]
    _ = m.beforeStep V host' k := rfl

/-- A pulse of the IRQ during a NOP, before a CLI. -/
theorem masked_irq_leaves_no_trace_pulse :
    (fresh {} ({ memory := fun addr => if addr = 0 then 0xEA else 0x58 } : FlatBus)).beforeStep
        Nmos6502 (fun k => if k < 2 then [.pin (.setIrq (k = 0))] else []) 3 =
      (fresh {} ({ memory := fun addr => if addr = 0 then 0xEA else 0x58 } : FlatBus)).beforeStep
        Nmos6502 (fun _ => []) 3 := by
  refine (masked_irq_leaves_no_trace Nmos6502 ⟨rfl, rfl⟩ (fun k => ?_) (k := 1) fun j hj => ?_).2
    (by decide +kernel) (fun j hj => if_neg (by omega)) 3 (by decide)
  · by_cases hk : k < 2 <;> simp [hk, HostCall.movesIrq]
  · obtain rfl : j = 0 := by omega
    exact fun hunmasks => absurd hunmasks.1 (by decide +kernel)

end runs

end Machine

end Mos6502
