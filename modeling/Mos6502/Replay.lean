import Mos6502.BusLog
import Mos6502.Effects.Divergence
import Mos6502.Effects.Stores
import Mos6502.LogGrowth
import Mos6502.Runs

/-!
# What a run depends on

Two processors in the same state, on buses that leave the pins alone, make the same accesses
until a read is answered differently. So a run is determined by the answers to its reads, and
on plain memory by the bytes that it reads before it writes them.
-/

namespace Mos6502

open Effects

namespace Machine

section divergence

variable {β γ : Type}

/-- Reads of one address that are answered differently. -/
inductive AnswersDiffer : BusAccess → BusAccess → Prop
  | read {addr : U16} {value value' : U8} (h : value ≠ value') :
    AnswersDiffer (.read addr value) (.read addr value')

/-- The same processor after the same accesses. -/
structure InSync (m : Machine (Logged β) NullHooks) (m' : Machine (Logged γ) NullHooks) : Prop where
  cpu : m.cpu = m'.cpu
  seen : m.seen = m'.seen

/-- Processors whose accesses have parted at the answer to a read. -/
def Apart (m : Machine (Logged β) NullHooks) (m' : Machine (Logged γ) NullHooks) : Prop :=
  Part AnswersDiffer m.seen m'.seen

theorem Apart.mono {m n : Machine (Logged β) NullHooks} {m' n' : Machine (Logged γ) NullHooks}
    (h : Apart m m') (hm : m.seen <+: n.seen) (hm' : m'.seen <+: n'.seen) : Apart n n' :=
  Part.mono h hm hm'

/-- What the processor does between two calls keeps it in step. -/
theorem InSync.withCpu {m : Machine (Logged β) NullHooks} {m' : Machine (Logged γ) NullHooks}
    (h : InSync m m') (f : Cpu → Cpu) :
    InSync { m with cpu := f m.cpu } { m' with cpu := f m'.cpu } :=
  ⟨congrArg f h.cpu, h.seen⟩

theorem Apart.withCpu {m : Machine (Logged β) NullHooks} {m' : Machine (Logged γ) NullHooks}
    (h : Apart m m') (c c' : Cpu) : Apart { m with cpu := c } { m' with cpu := c' } := h

section silent

variable [BusLike β] [SilentBus β]

/-- A read on a bus that leaves the pins alone. -/
theorem read_silent (addr : U16) (m : Machine (Logged β) NullHooks) :
    (m.read addr).2.cpu = { m.cpu with cycles := m.cpu.cycles + 1 } ∧
      (m.read addr).2.seen = m.seen ++ [.read addr (m.read addr).1] := by
  constructor
  · simp [Machine.read, Machine.tick, absorb, BusLike.read, BusLike.tick, Logged.record,
      Hooks.onRead, SilentBus.read_calls, SilentBus.tick_calls]
  · obtain ⟨es, haccesses, hgrows⟩ := grows_read addr m
    rw [seen, hgrows.log, BusEvent.accesses_append, haccesses]
    rfl

theorem write_silent (addr : U16) (value : U8) (m : Machine (Logged β) NullHooks) :
    (m.write addr value).cpu = { m.cpu with cycles := m.cpu.cycles + 1 } ∧
      (m.write addr value).seen = m.seen ++ [.write addr value] := by
  constructor
  · simp [Machine.write, Machine.tick, absorb, BusLike.write, BusLike.tick, Logged.record,
      Hooks.onWrite, SilentBus.write_calls, SilentBus.tick_calls]
  · obtain ⟨es, haccesses, hgrows⟩ := grows_write addr value m
    rw [seen, hgrows.log, BusEvent.accesses_append, haccesses]
    rfl

end silent

variable [BusLike β] [BusLike γ] [SilentBus β] [SilentBus γ] {m : Machine (Logged β) NullHooks}
  {m' : Machine (Logged γ) NullHooks}

/-- **One call.** Only the answer to a read can part two processors. -/
theorem InSync.handle (h : InSync m m') (c : CpuCall) :
    (Machine.handle c m).1 = (Machine.handle c m').1 ∧
        InSync (Machine.handle c m).2 (Machine.handle c m').2 ∨
      Apart (Machine.handle c m).2 (Machine.handle c m').2 := by
  have hcpu := h.cpu
  cases c with
  | read addr =>
    obtain ⟨hread, hseen⟩ := read_silent addr m
    obtain ⟨hread', hseen'⟩ := read_silent addr m'
    by_cases hvalue : (m.read addr).1 = (m'.read addr).1
    · refine .inl ⟨hvalue, hread.trans ?_, hseen.trans ?_⟩
      · rw [hcpu]
        exact hread'.symm
      · rw [h.seen, hvalue]
        exact hseen'.symm
    · exact .inr ⟨m'.seen, _, _, [], [], .read hvalue, h.seen ▸ hseen, hseen'⟩
  | write addr value =>
    obtain ⟨hwrite, hseen⟩ := write_silent addr value m
    obtain ⟨hwrite', hseen'⟩ := write_silent addr value m'
    refine .inl ⟨rfl, hwrite.trans ?_, hseen.trans ?_⟩
    · rw [hcpu]
      exact hwrite'.symm
    · rw [h.seen]
      exact hseen'.symm
  | regs => exact .inl ⟨congrArg Cpu.regs hcpu, h⟩
  | setRegs r => exact .inl ⟨rfl, congrArg (fun c : Cpu => { c with regs := r }) hcpu, h.seen⟩
  | jam => exact .inl ⟨rfl, congrArg (fun c : Cpu => { c with jammed := true }) hcpu, h.seen⟩
  | pollImmediate =>
    exact .inl ⟨rfl, congrArg (fun c : Cpu => { c with pollI := c.regs.i }) hcpu, h.seen⟩

theorem InSync.exec {α : Type} (h : InSync m m') (p : Policy α) :
    (m.exec p).1 = (m'.exec p).1 ∧ InSync (m.exec p).2 (m'.exec p).2 ∨
      Apart (m.exec p).2 (m'.exec p).2 :=
  Program.run_sim_or (fun c _ _ h => h.handle c)
    (fun c s _ h => h.mono (seen_exec (Program.perform c) s) (List.prefix_refl _))
    (fun c _ t h => h.mono (List.prefix_refl _) (seen_exec (Program.perform c) t)) p h

theorem InSync.serviceInterrupt (V : Variant) (isNmi : Bool) (vector : U16) (h : InSync m m') :
    InSync (m.serviceInterrupt V isNmi vector) (m'.serviceInterrupt V isNmi vector) ∨
      Apart (m.serviceInterrupt V isNmi vector) (m'.serviceInterrupt V isNmi vector) := by
  rcases h.exec (Policy.interruptSequence V false vector) with ⟨-, hexec⟩ | hexec
  · exact .inl (hexec.withCpu fun c => ({ c with pollI := c.regs.i } : Cpu).pollInterrupts)
  · exact .inr (hexec.withCpu _ _)

theorem InSync.executeInstruction (V : Variant) (h : InSync m m') :
    InSync (m.executeInstruction V) (m'.executeInstruction V) ∨
      Apart (m.executeInstruction V) (m'.executeInstruction V) := by
  have hpolled : InSync m.pollImmediate m'.pollImmediate :=
    h.withCpu fun c => { c with pollI := c.regs.i }
  rcases hpolled.exec Policy.fetch with ⟨hopcode, hfetched⟩ | hfetched
  · have hexec := hfetched.exec (dispatch V (m.pollImmediate.exec Policy.fetch).1)
    rw [Machine.executeInstruction, Machine.executeInstruction, ← hopcode]
    exact hexec.imp (fun h => h.2.withCpu Cpu.pollInterrupts) id
  · refine .inr (hfetched.mono ?_ ?_)
    · exact seen_exec (dispatch V (m.pollImmediate.exec Policy.fetch).1) _
    · exact seen_exec (dispatch V (m'.pollImmediate.exec Policy.fetch).1) _

/-- **One step.** -/
theorem InSync.stepMachine (V : Variant) (h : InSync m m') :
    InSync (m.stepMachine V) (m'.stepMachine V) ∨ Apart (m.stepMachine V) (m'.stepMachine V) := by
  have hcpu := h.cpu
  cases hjammed : m.cpu.jammed with
  | true =>
    have hjammed' : m'.cpu.jammed = true := hcpu ▸ hjammed
    rw [stepMachine_jammed V hjammed, stepMachine_jammed V hjammed', ← hcpu]
    exact (h.handle (.read m.cpu.regs.pc)).imp And.right id
  | false =>
    have hjammed' : m'.cpu.jammed = false := hcpu ▸ hjammed
    cases hnmi : m.cpu.pendingNmi with
    | true =>
      have hnmi' : m'.cpu.pendingNmi = true := hcpu ▸ hnmi
      rw [stepMachine_nmi V hjammed hnmi, stepMachine_nmi V hjammed' hnmi']
      exact (h.withCpu fun c => { c with pendingNmi := false }).serviceInterrupt V true kNmiVector
    | false =>
      have hnmi' : m'.cpu.pendingNmi = false := hcpu ▸ hnmi
      cases hirq : m.cpu.pendingIrq with
      | true =>
        have hirq' : m'.cpu.pendingIrq = true := hcpu ▸ hirq
        rw [stepMachine_irq V hjammed hnmi hirq, stepMachine_irq V hjammed' hnmi' hirq']
        have hservice := h.withCpu fun c => { c with pendingIrq := false }
        exact hservice.serviceInterrupt V false kIrqVector
      | false =>
        have hirq' : m'.cpu.pendingIrq = false := hcpu ▸ hirq
        rw [stepMachine_idle V hjammed hnmi hirq, stepMachine_idle V hjammed' hnmi' hirq']
        exact h.executeInstruction V

theorem InSync.reset (h : InSync m m') :
    InSync m.reset m'.reset ∨ Apart m.reset m'.reset := by
  have hcleared : InSync m.cleared m'.cleared := h.withCpu fun c => { c with
    jammed := false
    pendingNmi := false
    pendingIrq := false
    pins := { c.pins with nmiEdge := false } }
  rw [reset_eq, reset_eq]
  exact (hcleared.exec resetSequence).imp
    (fun h => h.2.withCpu fun c => { c with pollI := c.regs.i }) fun h => h.withCpu _ _

theorem InSync.hostCall (h : InSync m m') (c : HostCall) :
    InSync (m.hostCall c) (m'.hostCall c) ∨ Apart (m.hostCall c) (m'.hostCall c) := by
  cases c with
  | pin c => exact .inl (by
      cases c with
      | setNmi asserted => exact h.withCpu fun c => { c with pins := c.pins.setNmi asserted }
      | setIrq asserted => exact h.withCpu fun c => { c with pins := c.pins.setIrq asserted })
  | reset => exact h.reset

end divergence

/-! ### The accesses of a run -/

section trace

variable {β : Type} [BusLike β]

theorem seen_hostCall (m : Machine (Logged β) NullHooks) (c : HostCall) :
    m.seen <+: (m.hostCall c).seen := by
  cases c with
  | pin c => cases c <;> exact List.prefix_refl _
  | reset =>
    rw [Machine.hostCall, reset_eq]
    exact seen_exec resetSequence m.cleared

theorem seen_hostCalls (m : Machine (Logged β) NullHooks) (cs : List HostCall) :
    m.seen <+: (m.hostCalls cs).seen := by
  induction cs generalizing m with
  | nil => exact List.prefix_refl _
  | cons c cs ih => exact (seen_hostCall m c).trans (ih _)

theorem hostCalls_forget (m : Machine (Logged β) NullHooks) (cs : List HostCall) :
    m.forget.hostCalls cs = (m.hostCalls cs).forget := by
  induction cs generalizing m with
  | nil => rfl
  | cons c cs ih =>
    have hcall : m.forget.hostCall c = (m.hostCall c).forget := by
      cases c with
      | pin c => cases c <;> rfl
      | reset => exact reset_forget m
    rw [hostCalls_cons, hostCalls_cons, hcall, ih]

variable (V : Variant) (host : ℕ → List HostCall) (m : Machine β NullHooks) (k : ℕ)

theorem afterSteps_forget : (m.logged.afterSteps V host k).forget = m.afterSteps V host k := by
  induction k with
  | zero => rfl
  | succ k ih =>
    rw [afterSteps_succ, afterSteps_succ, beforeStep, beforeStep, ← ih, hostCalls_forget,
      stepMachine_forget]

/-- All bus accesses of the first `k` steps, those of resets included, in order. -/
def runAccesses : List BusAccess := (m.logged.afterSteps V host k).seen

variable {γ : Type} [BusLike γ] {m} {m' : Machine γ NullHooks} [SilentBus β] [SilentBus γ]

theorem afterSteps_inSync (hcpu : m.cpu = m'.cpu) :
    InSync (m.logged.afterSteps V host k) (m'.logged.afterSteps V host k) ∨
      Apart (m.logged.afterSteps V host k) (m'.logged.afterSteps V host k) := by
  have hhost {s : Machine (Logged β) NullHooks} {t : Machine (Logged γ) NullHooks}
      (h : InSync s t) (cs : List HostCall) :
      InSync (s.hostCalls cs) (t.hostCalls cs) ∨ Apart (s.hostCalls cs) (t.hostCalls cs) := by
    induction cs generalizing s t with
    | nil => exact .inl h
    | cons c cs ih =>
      rcases h.hostCall c with hcall | hcall
      · exact ih hcall
      · exact .inr (hcall.mono (seen_hostCalls _ cs) (seen_hostCalls _ cs))
  have hstep (s : Machine (Logged β) NullHooks) (t : Machine (Logged γ) NullHooks)
      (h : Apart s t) : Apart (s.stepMachine V) (t.stepMachine V) :=
    h.mono (seen_stepMachine V s) (seen_stepMachine V t)
  refine orbit_sim_or ⟨hcpu, rfl⟩ (fun k s t h => ?_) (fun k s t h => ?_) k
  · rcases hhost h (host k) with hcalls | hcalls
    · exact hcalls.stepMachine V
    · exact .inr (hstep _ _ hcalls)
  · exact hstep _ _ (h.mono (seen_hostCalls s (host k)) (seen_hostCalls t (host k)))

/-- The answer to a read. -/
def answer? : BusAccess → Option U8
  | .read _ value => some value
  | .write _ _ => none

/-- **Replay.** As long as the host does the same with their pins and resets, two processors in
the same state make the same accesses up to the first read that their buses answer
differently. So when the answers of one bus are those of the other, both make the same
accesses and end in the same state. -/
theorem replay (hcpu : m.cpu = m'.cpu) :
    (m.runAccesses V host k = m'.runAccesses V host k ∧
        (m.afterSteps V host k).cpu = (m'.afterSteps V host k).cpu ∨
      Part AnswersDiffer (m.runAccesses V host k) (m'.runAccesses V host k)) ∧
    ((m.runAccesses V host k).filterMap answer? = (m'.runAccesses V host k).filterMap answer? →
      m.runAccesses V host k = m'.runAccesses V host k ∧
        (m.afterSteps V host k).cpu = (m'.afterSteps V host k).cpu) := by
  have hrun : m.runAccesses V host k = m'.runAccesses V host k ∧
        (m.afterSteps V host k).cpu = (m'.afterSteps V host k).cpu ∨
      Part AnswersDiffer (m.runAccesses V host k) (m'.runAccesses V host k) := by
    rw [← afterSteps_forget V host m, ← afterSteps_forget V host m']
    exact (afterSteps_inSync V host k hcpu).imp (fun h => ⟨h.seen, h.cpu⟩) id
  refine ⟨hrun, fun hanswers => hrun.resolve_right fun hpart => ?_⟩
  refine hpart.filterMap_ne (f := answer?) (fun e e' hdiffer => ?_) hanswers
  cases hdiffer with
  | read hne => exact ⟨_, _, rfl, rfl, hne⟩

end trace

/-- A `NOP` and a `BRK`-filled memory that begins with a `NOP`: the answers part at $0001. -/
theorem replay_nop :
    let m := Machine.fresh {} ({ memory := fun _ => 0xEA } : FlatBus)
    let m' := Machine.fresh {} ({ memory := fun a => if a = 0 then 0xEA else 0 } : FlatBus)
    Part AnswersDiffer (m.runAccesses Nmos6502 (fun _ => []) 1)
      (m'.runAccesses Nmos6502 (fun _ => []) 1) := by
  intro m m'
  have hcpu : m.cpu = m'.cpu := rfl
  have hrun := (replay Nmos6502 (fun _ => []) 1 hcpu).1
  exact hrun.resolve_left fun h => absurd h.1 (by decide +kernel)

/-! ### Plain memory -/

/-- What an access stores, if it is a write. -/
def store? : BusAccess → Option (U16 × U8)
  | .read _ _ => none
  | .write addr value => some (addr, value)

def stores (accesses : List BusAccess) : List (U16 × U8) := accesses.filterMap store?

theorem stores_append (as as' : List BusAccess) : stores (as ++ as') = stores as ++ stores as' :=
  List.filterMap_append

theorem mem_stores {accesses : List BusAccess} {addr : U16} {value : U8} :
    (addr, value) ∈ stores accesses ↔ .write addr value ∈ accesses := by
  rw [stores, List.mem_filterMap]
  constructor
  · rintro ⟨_ | _, hmem, hstore⟩
    · cases hstore
    · cases hstore
      exact hmem
  · exact fun hmem => ⟨_, hmem, rfl⟩

/-- Every read is answered by the memory that the writes before it leave. -/
def Answered (mem : Memory) : List BusAccess → Prop
  | [] => True
  | .read addr value :: accesses => value = mem addr ∧ Answered mem accesses
  | .write addr value :: accesses => Answered (Function.update mem addr value) accesses

theorem answered_append (mem : Memory) (as as' : List BusAccess) :
    Answered mem (as ++ as') ↔ Answered mem as ∧ Answered (storeAll mem (stores as)) as' := by
  induction as generalizing mem with
  | nil => simp [Answered, stores, storeAll]
  | cons a as ih =>
    cases a with
    | read addr value =>
      change (_ ∧ Answered mem (as ++ as')) ↔ (_ ∧ Answered mem as) ∧ _
      rw [ih, and_assoc]
      rfl
    | write addr value => exact ih (Function.update mem addr value)

section plain

variable {β : Type} [PlainMemory β]

/-- The accesses lead from the one memory to the other. -/
structure Explained (accesses : List BusAccess) (m m' : Machine (Logged β) NullHooks) : Prop where
  seen : m'.seen = m.seen ++ accesses
  answered : Answered (PlainMemory.memory m.bus) accesses
  memory : PlainMemory.memory m'.bus = storeAll (PlainMemory.memory m.bus) (stores accesses)

theorem Explained.trans {as as' : List BusAccess} {m₁ m₂ m₃ : Machine (Logged β) NullHooks}
    (h : Explained as m₁ m₂) (h' : Explained as' m₂ m₃) : Explained (as ++ as') m₁ m₃ where
  seen := by rw [h'.seen, h.seen, List.append_assoc]
  answered := (answered_append _ as as').mpr ⟨h.answered, h.memory ▸ h'.answered⟩
  memory := by rw [h'.memory, h.memory, stores_append, storeAll_append]

theorem explained_cpu (m : Machine (Logged β) NullHooks) (c : Cpu) :
    Explained [] m { m with cpu := c } :=
  ⟨(List.append_nil _).symm, trivial, rfl⟩

theorem isFrame_explained :
    IsFrame fun m m' : Machine (Logged β) NullHooks => ∃ accesses, Explained accesses m m' where
  trans := fun _ _ _ ⟨as, h⟩ ⟨as', h'⟩ => ⟨as ++ as', h.trans h'⟩
  cpu m c := ⟨[], explained_cpu m c⟩
  read addr m := by
    have hvalue : (m.read addr).1 = PlainMemory.memory m.bus addr := by
      simp [Machine.read, Machine.tick, absorb]
    obtain ⟨es, haccesses, hgrows⟩ := grows_read addr m
    refine ⟨[.read addr (m.read addr).1], ?_, ⟨hvalue, trivial⟩, ?_⟩
    · rw [seen, hgrows.log, BusEvent.accesses_append, haccesses]
      rfl
    · simp only [Machine.read, Machine.tick, absorb, Hooks.onRead, PlainMemory.memory_read,
        PlainMemory.memory_tick]
      rfl
  write addr value m := by
    obtain ⟨es, haccesses, hgrows⟩ := grows_write addr value m
    refine ⟨[.write addr value], ?_, trivial, ?_⟩
    · rw [seen, hgrows.log, BusEvent.accesses_append, haccesses]
      rfl
    · simp [Machine.write, Machine.tick, absorb, Hooks.onWrite, stores, store?, storeAll]

theorem explained_hostCall (m : Machine (Logged β) NullHooks) (c : HostCall) :
    ∃ accesses, Explained accesses m (m.hostCall c) := by
  cases c with
  | pin c => cases c <;> exact ⟨[], explained_cpu m _⟩
  | reset =>
    rw [hostCall, reset_eq]
    exact isFrame_explained.trans _ _ _ (isFrame_explained.cpu m _)
      (isFrame_explained.trans _ _ _ (isFrame_explained.exec resetSequence m.cleared)
        (isFrame_explained.cpu _ _))

variable (V : Variant) (host : ℕ → List HostCall) (m : Machine β NullHooks) (k : ℕ)

/-- **A run on plain memory.** Its reads are answered by the memory at the start and the writes
before them, and these writes make the memory at the end. -/
theorem run_explained :
    Explained (m.runAccesses V host k) m.logged (m.logged.afterSteps V host k) := by
  have hrun : ∃ accesses, Explained accesses m.logged (m.logged.afterSteps V host k) := by
    let P (t : Machine (Logged β) NullHooks) := ∃ accesses, Explained accesses m.logged t
    have hstart : P m.logged := ⟨[], explained_cpu m.logged _⟩
    refine afterSteps_invariant V host m.logged hstart (fun k h => ?_) k
    refine isFrame_explained.trans _ _ _ ?_ (isFrame_explained.stepMachine V _)
    refine hostCalls_invariant (P := P) ?_ ?_ _ h
    · exact fun t c h => isFrame_explained.trans _ _ _ h (explained_hostCall t (.pin c))
    · exact fun t h => isFrame_explained.trans _ _ _ h (explained_hostCall t .reset)
  obtain ⟨accesses, h⟩ := hrun
  have haccesses : m.runAccesses V host k = accesses := h.seen
  rw [haccesses]
  exact h

end plain

/-- The address is read before it is written. -/
def ReadsFirst (accesses : List BusAccess) (addr : U16) : Prop :=
  ∃ front value back, accesses = front ++ .read addr value :: back ∧
    ∀ value', .write addr value' ∉ front

/-- Reads that are answered differently after the same accesses are answered by a byte that is
not the same in both memories, and has not been written. -/
theorem answers_differ {mem mem' : Memory} {front back back' : List BusAccess} {a a' : BusAccess}
    (hanswered : Answered mem (front ++ a :: back))
    (hanswered' : Answered mem' (front ++ a' :: back')) (hdiffer : AnswersDiffer a a') :
    ∃ addr, ReadsFirst (front ++ a :: back) addr ∧ mem addr ≠ mem' addr := by
  cases hdiffer with
  | @read addr value value' hne =>
    have hvalue : value = storeAll mem (stores front) addr :=
      ((answered_append _ _ _).mp hanswered).2.1
    have hvalue' : value' = storeAll mem' (stores front) addr :=
      ((answered_append _ _ _).mp hanswered').2.1
    by_cases hwritten : ∃ value, .write addr value ∈ front
    · obtain ⟨written, hmem⟩ := hwritten
      have hsame := storeAll_of_mem mem mem' ⟨(addr, written), mem_stores.mpr hmem, rfl⟩
      exact absurd (hvalue.trans (hsame.trans hvalue'.symm)) hne
    · push Not at hwritten
      have hnone (mem : Memory) : storeAll mem (stores front) addr = mem addr :=
        storeAll_of_notMem mem fun s hs heq => hwritten s.2 (mem_stores.mp (heq ▸ hs))
      refine ⟨addr, ⟨front, value, back, rfl, hwritten⟩, ?_⟩
      rw [← hnone mem, ← hnone mem', ← hvalue, ← hvalue']
      exact hne

section footprint

variable {β γ : Type} [PlainMemory β] [PlainMemory γ] [SilentBus β] [SilentBus γ] (V : Variant)
  (host : ℕ → List HostCall) {m : Machine β NullHooks} {m' : Machine γ NullHooks} (k : ℕ)

/-- **Footprint.** On plain memory a run depends on nothing but the bytes that it reads before
it writes them. From a memory that agrees with the first one on these, the same processor
makes the same accesses and ends in the same state; it leaves the same byte at every address
that it writes, and no other byte changes. -/
theorem footprint (hcpu : m.cpu = m'.cpu)
    (hmem : ∀ addr, ReadsFirst (m.runAccesses V host k) addr →
      PlainMemory.memory m.bus addr = PlainMemory.memory m'.bus addr) :
    m'.runAccesses V host k = m.runAccesses V host k ∧
    (m'.afterSteps V host k).cpu = (m.afterSteps V host k).cpu ∧
    (∀ addr value, .write addr value ∈ m.runAccesses V host k →
      PlainMemory.memory (m'.afterSteps V host k).bus addr =
        PlainMemory.memory (m.afterSteps V host k).bus addr) ∧
    ∀ addr, (∀ value, .write addr value ∉ m.runAccesses V host k) →
      PlainMemory.memory (m'.afterSteps V host k).bus addr = PlainMemory.memory m'.bus addr := by
  have hrun := run_explained V host m k
  have hrun' := run_explained V host m' k
  have hafter : PlainMemory.memory (m.afterSteps V host k).bus =
      storeAll (PlainMemory.memory m.bus) (stores (m.runAccesses V host k)) := by
    rw [← afterSteps_forget]
    exact hrun.memory
  have hafter' : PlainMemory.memory (m'.afterSteps V host k).bus =
      storeAll (PlainMemory.memory m'.bus) (stores (m'.runAccesses V host k)) := by
    rw [← afterSteps_forget]
    exact hrun'.memory
  have hsync : InSync (m.logged.afterSteps V host k) (m'.logged.afterSteps V host k) := by
    refine (afterSteps_inSync V host k hcpu).resolve_right ?_
    rintro ⟨front, a, a', back, back', hdiffer, htrace, htrace'⟩
    have hanswered : Answered (PlainMemory.memory m.bus) (front ++ a :: back) :=
      htrace ▸ hrun.answered
    have hanswered' : Answered (PlainMemory.memory m'.bus) (front ++ a' :: back') :=
      htrace' ▸ hrun'.answered
    obtain ⟨addr, hfirst, hne⟩ := answers_differ hanswered hanswered' hdiffer
    have htrace : m.runAccesses V host k = front ++ a :: back := htrace
    exact hne (hmem addr (htrace ▸ hfirst))
  have htrace : m'.runAccesses V host k = m.runAccesses V host k := hsync.seen.symm
  refine ⟨htrace, ?_, fun addr value hwrite => ?_, fun addr hnone => ?_⟩
  · rw [← afterSteps_forget V host m, ← afterSteps_forget V host m']
    exact hsync.cpu.symm
  · rw [hafter, hafter', htrace]
    exact storeAll_of_mem _ _ ⟨(addr, value), mem_stores.mpr hwrite, rfl⟩
  · rw [hafter', htrace]
    exact storeAll_of_notMem _ fun s hs heq => hnone s.2 (mem_stores.mp (heq ▸ hs))

/-- An `INC $10` does not depend on what lies behind it. -/
theorem footprint_inc :
    let start : Memory := fun a => if a = 0x0400 then 0xE6 else if a = 0x0401 then 0x10 else 0
    let m' := Machine.fresh { pc := 0x0400 }
      ({ memory := Function.update start 0x0402 0x60 } : FlatBus)
    (m'.afterSteps Nmos6502 (fun _ => []) 1).bus.memory 0x0010 = 1 ∧
      (m'.afterSteps Nmos6502 (fun _ => []) 1).bus.memory 0x0402 = 0x60 := by
  intro start m'
  let m := Machine.fresh { pc := 0x0400 } ({ memory := start } : FlatBus)
  have hcpu : m.cpu = m'.cpu := rfl
  have htrace : m.runAccesses Nmos6502 (fun _ => []) 1 =
      [.read 0x0400 0xE6, .read 0x0401 0x10, .read 0x0010 0, .write 0x0010 0, .write 0x0010 1] := by
    decide +kernel
  obtain ⟨-, -, hwritten, hkept⟩ := footprint Nmos6502 (fun _ => []) 1 hcpu
    fun addr ⟨front, value, back, hread, _⟩ => by
      have hmem : .read addr value ∈ m.runAccesses Nmos6502 (fun _ => []) 1 := by
        rw [hread]
        exact List.mem_append_right _ List.mem_cons_self
      have hne : addr ≠ 0x0402 := by
        rintro rfl
        rw [htrace] at hmem
        simp at hmem
      exact (Function.update_of_ne hne _ _).symm
  refine ⟨?_, ?_⟩
  · refine (hwritten 0x0010 1 ?_).trans ?_
    · rw [htrace]
      simp
    · decide +kernel
  · refine (hkept 0x0402 fun value hmem => ?_).trans ?_
    · rw [htrace] at hmem
      simp at hmem
    · exact Function.update_self (0x0402 : U16) (0x60 : U8) start

end footprint

end Machine

end Mos6502
