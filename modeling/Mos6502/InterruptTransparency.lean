import Mos6502.Effects.Observation
import Mos6502.InterruptFrames

/-!
# Interrupt transparency

Interrupts whose handlers only return are invisible to the program that they interrupt.
However the pins move, the states that the program goes through are those of a run in
which the pins are never asserted, up to the bytes of page one that are not on its stack.
-/

namespace Mos6502

open Effects

/-! ### Main programs -/

/-- The instructions of a main program: it leaves interrupt entry and return to the
hardware, does not jam, and does not load the stack pointer. -/
def Instr.isMain : Instr → Bool
  | .SpecialInstr .BRK _ | .SpecialInstr .RTI _ | .SpecialInstr .JAM _ => false
  | i => !i.loadsStackPointer

/-- What a main program may do in one step: `mem` is the memory at the start of the run,
`depth` the number of bytes that the program has on the stack and `a` the state. -/
structure MainStep (V : Variant) (mem : Memory) (depth : ℕ) (a : Arch) : Prop where
  allowed : (instr (a.mem a.regs.pc)).isMain = true
  opcode_outside : page a.regs.pc ≠ 1
  stays_outside : (instr (a.mem a.regs.pc)).StaysOutside V (a.advance 1)
  not_nmi : a.regs.pc ≠ (handlers mem).nmi
  not_irq : a.regs.pc ≠ (handlers mem).irq
  writes : ∀ addr value,
    .write addr value ∈ (StepKind.instruction (a.mem a.regs.pc)).accesses V a →
      addr ∉ interruptAddresses mem
  pulls : (instr (a.mem a.regs.pc)).pulls ≤ depth
  room : depth ≤ 250

theorem Instr.of_isMain {i : Instr} (h : i.isMain = true) :
    i.loadsStackPointer = false ∧ i.isBreak = false ∧ i.jams = false ∧
      i.bracket ≠ .closing .interrupt := by
  cases i with
  | SpecialInstr op mode | ImpliedInstr op mode | ReadInstr op mode | UnstableStoreInstr op mode =>
    cases op <;> first | contradiction | exact ⟨rfl, rfl, rfl, fun hclosing => by cases hclosing⟩
  | _ => exact ⟨rfl, rfl, rfl, nofun⟩

/-- What can be seen of a program: the registers, the memory outside page one, and the
bytes that the program has on the stack. -/
structure View where
  regs : Registers
  outside : Memory
  stack : List U8

namespace Machine

section views

variable {β : Type} [PlainMemory β]

/-- The next step enters an interrupt service or executes a handler. -/
def isInterruption (hs : Handlers) (m : Machine β NullHooks) : Bool :=
  match m.stepKind with
  | .nmi | .irq => true
  | .instruction _ => m.cpu.regs.pc == hs.nmi || m.cpu.regs.pc == hs.irq
  | .jammed => false

/-- The run in which the pins are never asserted: the same registers and memory, on a
bus that makes no pin calls. -/
def undisturbed (m : Machine β NullHooks) : Machine FlatBus NullHooks :=
  fresh m.cpu.regs { memory := PlainMemory.memory m.bus }

variable (V : Variant) (host : ℕ → List PinCall) (m : Machine β NullHooks)

/-- Step `k` belongs to an interrupt and not to the program. -/
def interrupted (k : ℕ) : Bool :=
  (m.pinnedSteps V host k).isInterruption (handlers m.arch.mem)

/-- The number of bytes that the steps of the program itself have left on the stack. -/
def programDepth : ℕ → ℕ
  | 0 => 0
  | k + 1 =>
    if m.interrupted V host k then programDepth k
    else (m.pushedAt V host k).length +
      (programDepth k - (m.pinnedSteps V host k).stepKind.pulls)

def programView (k : ℕ) : View where
  regs := (m.pinnedSteps V host k).cpu.regs
  outside := fun addr => if page addr = 1 then 0 else (m.pinnedSteps V host k).arch.mem addr
  stack := stackBytes (m.pinnedSteps V host k).arch.mem (m.pinnedSteps V host k).cpu.regs.s
    (m.programDepth V host k)

/-- What the program visits in the first `n` steps: the start, and the state after each
step that does not belong to an interrupt. -/
def visited (n : ℕ) : List View :=
  observed (fun k => m.interrupted V host k = false) (m.programView V host) n

/-- The undisturbed run executes a main program. -/
def MainProgram : Prop :=
  ∀ k, MainStep V m.arch.mem (m.undisturbed.programDepth V (fun _ => []) k)
    (m.undisturbed.pinnedSteps V (fun _ => []) k).arch

end views

/-! ### The undisturbed run -/

section undisturbed

variable {β : Type} [PlainMemory β] {V : Variant} {m : Machine β NullHooks}

/-- In the undisturbed run nothing is ever pending and nothing jams. -/
structure Undisturbed (y : Machine FlatBus NullHooks) : Prop where
  jammed : y.cpu.jammed = false
  pendingNmi : y.cpu.pendingNmi = false
  pendingIrq : y.cpu.pendingIrq = false
  pins : y.cpu.pins = {}

theorem Undisturbed.stepKind {y : Machine FlatBus NullHooks} (h : Undisturbed y) :
    y.stepKind = .instruction (y.arch.mem y.arch.regs.pc) :=
  stepKind_of_idle_plain h.jammed h.pendingNmi h.pendingIrq

theorem Undisturbed.stepMachine {y : Machine FlatBus NullHooks} (h : Undisturbed y)
    (hjams : (instr (y.arch.mem y.arch.regs.pc)).jams = false) : Undisturbed (y.stepMachine V) where
  jammed := by rw [step_jams, h.stepKind]; exact hjams
  pendingNmi := by rw [step_pendingNmi V y h.jammed, stepPinCalls_silent, h.pins]; rfl
  pendingIrq := by
    rw [step_pendingIrq V y h.jammed, stepPinCalls_silent, h.pins, h.pendingNmi]
    rfl
  pins := by rw [step_pins V y h.jammed, stepPinCalls_silent, h.pins]; rfl

namespace MainProgram

variable (h : m.MainProgram V) (k : ℕ)
include h

theorem undisturbed : Undisturbed (m.undisturbed.pinnedSteps V (fun _ => []) k) := by
  induction k with
  | zero => exact ⟨rfl, rfl, rfl, rfl⟩
  | succ k ih =>
    rw [pinnedSteps_succ]
    exact ih.stepMachine (Instr.of_isMain (h k).allowed).2.2.1

theorem stepKind :
    (m.undisturbed.pinnedSteps V (fun _ => []) k).stepKind =
      .instruction ((m.undisturbed.pinnedSteps V (fun _ => []) k).arch.mem
        (m.undisturbed.pinnedSteps V (fun _ => []) k).arch.regs.pc) := (h.undisturbed k).stepKind

theorem interrupted : m.undisturbed.interrupted V (fun _ => []) k = false := by
  have hnmi := (h k).not_nmi
  have hirq := (h k).not_irq
  simp only [Machine.interrupted, isInterruption, h.stepKind, Bool.or_eq_false_iff,
    beq_eq_false_iff_ne]
  exact ⟨hnmi, hirq⟩

/-- A main program leaves its handlers and the vectors as they are. -/
theorem mem {addr : U16} (haddr : addr ∈ interruptAddresses m.arch.mem) :
    (m.undisturbed.pinnedSteps V (fun _ => []) k).arch.mem addr = m.arch.mem addr := by
  induction k with
  | zero => rfl
  | succ k ih =>
    rw [pinnedSteps_succ_arch, h.stepKind, StepKind.effect_frame, ih]
    exact fun value hwrite => (h k).writes addr value hwrite haddr

theorem handlers :
    handlers (m.undisturbed.pinnedSteps V (fun _ => []) k).arch.mem = handlers m.arch.mem := by
  have hmem (addr : U16) (haddr : addr ∈ interruptAddresses m.arch.mem) := h.mem k haddr
  simp only [Mos6502.handlers]
  rw [hmem kNmiVector (by simp [interruptAddresses]),
    hmem (kNmiVector + 1) (by simp [interruptAddresses]),
    hmem kIrqVector (by simp [interruptAddresses]),
    hmem (kIrqVector + 1) (by simp [interruptAddresses])]

end MainProgram

/-- An instruction that leaves everything as it is runs forever: it is a main program if
it may be the first step of one. -/
theorem MainProgram.of_loop (hstep : MainStep V m.arch.mem 0 m.arch)
    (heffect : (StepKind.instruction (m.arch.mem m.arch.regs.pc)).effect V m.arch = m.arch)
    (hpushed : (StepKind.instruction (m.arch.mem m.arch.regs.pc)).pushed m.arch = []) :
    m.MainProgram V := by
  have hrun (k : ℕ) : Undisturbed (m.undisturbed.pinnedSteps V (fun _ => []) k) ∧
      (m.undisturbed.pinnedSteps V (fun _ => []) k).arch = m.arch ∧
      m.undisturbed.programDepth V (fun _ => []) k = 0 := by
    induction k with
    | zero => exact ⟨⟨rfl, rfl, rfl, rfl⟩, rfl, rfl⟩
    | succ k ih =>
      obtain ⟨hundisturbed, harch, hdepth⟩ := ih
      have hkind := hundisturbed.stepKind
      rw [harch] at hkind
      refine ⟨?_, ?_, ?_⟩
      · rw [pinnedSteps_succ]
        refine hundisturbed.stepMachine ?_
        rw [harch]
        exact (Instr.of_isMain hstep.allowed).2.2.1
      · rw [pinnedSteps_succ_arch, hkind, harch, heffect]
      · rw [programDepth, pushedAt, hdepth, hkind, harch, hpushed]
        simp
  intro k
  obtain ⟨_, harch, hdepth⟩ := hrun k
  rw [harch, hdepth]
  exact hstep

end undisturbed

/-! ### The simulation -/

section simulation

variable {β : Type} [PlainMemory β] {V : Variant} {host : ℕ → List PinCall}
  {m : Machine β NullHooks} {n : ℕ} {f : Frame} {fs : List Frame}

/-- The number of the program's own steps among the first `n`. -/
def programSteps (V : Variant) (host : ℕ → List PinCall) (m : Machine β NullHooks) (n : ℕ) : ℕ :=
  Nat.count (fun k => m.interrupted V host k = false) n

/-- The machine after `n` steps, under the services `fs`, shadows the undisturbed run
after the program's own steps. While a service is under way no IRQ is pending, and at most
an IRQ service and on top of it an NMI service are. -/
structure Simulates (V : Variant) (host : ℕ → List PinCall) (m : Machine β NullHooks) (n : ℕ)
    (fs : List Frame) : Prop where
  jammed : (m.pinnedSteps V host n).cpu.jammed = false
  exclusive : (m.pinnedSteps V host n).Exclusive
  masked : fs ≠ [] → (m.pinnedSteps V host n).cpu.pendingIrq = false
  recent : ∀ f gs, fs = f :: gs → f.isNmi = true →
    ∃ k, n = k + 1 ∧ (m.pinnedSteps V host k).stepKind = .nmi
  order : fs.Pairwise fun f g => f.isNmi = true ∧ g.isNmi = false
  depth : m.programDepth V host n =
    m.undisturbed.programDepth V (fun _ => []) (m.programSteps V host n)
  shadows : Shadows (handlers m.arch.mem) (m.programDepth V host n) fs
    (m.pinnedSteps V host n).arch
    (m.undisturbed.pinnedSteps V (fun _ => []) (m.programSteps V host n)).arch

theorem length_le_two (h : fs.Pairwise fun f g => f.isNmi = true ∧ g.isNmi = false) :
    fs.length ≤ 2 := by
  rcases fs with _ | ⟨f, _ | ⟨g, _ | ⟨e, gs⟩⟩⟩
  · simp
  · simp
  · simp
  · simp only [List.pairwise_cons, List.mem_cons, forall_eq_or_imp] at h
    simp [h.1.1.2] at h

/-- After a step whose mask is set no IRQ is pending. -/
theorem pendingIrq_succ (hjammed : (m.pinnedSteps V host n).cpu.jammed = false)
    (hexcl : (m.pinnedSteps V host n).Exclusive)
    (hmask : (m.pinnedSteps V host n).stepKind.mask (m.pinnedSteps V host n).cpu.regs
      (m.pinnedSteps V host (n + 1)).cpu.regs = true) :
    (m.pinnedSteps V host (n + 1)).cpu.pendingIrq = false := by
  have hregs : (m.pinnedBefore V host n).cpu.regs = (m.pinnedSteps V host n).cpu.regs :=
    congrArg Core.regs pinnedBefore_core
  have hbefore : (m.pinnedBefore V host n).cpu.jammed = false :=
    (congrArg Core.jammed pinnedBefore_core).trans hjammed
  have hexcl' : (m.pinnedBefore V host n).Exclusive := hexcl.pinCalls (host n)
  rw [pinnedSteps_succ] at hmask ⊢
  refine hexcl'.pendingIrq_of_mask V hbefore ?_
  rw [pinnedBefore_stepKind, hregs, hmask]

/-! A step that belongs to an interrupt leaves the program where it is. -/

theorem programDepth_of_interrupted (h : m.interrupted V host n = true) :
    m.programDepth V host (n + 1) = m.programDepth V host n := by
  simp [programDepth, h]

theorem programSteps_of_interrupted (h : m.interrupted V host n = true) :
    m.programSteps V host (n + 1) = m.programSteps V host n := by
  simp [programSteps, Nat.count_succ, h]

theorem programSteps_of_program (h : m.interrupted V host n = false) :
    m.programSteps V host (n + 1) = m.programSteps V host n + 1 := by
  simp [programSteps, Nat.count_succ, h]

namespace Simulates

/-- **Service.** The entry of a service puts its frame on top. -/
theorem service (hmain : m.MainProgram V) (h : Simulates V host m n fs)
    (hregs : f.regs = (m.pinnedSteps V host n).cpu.regs)
    (hkind : (m.pinnedSteps V host n).stepKind = f.kind)
    (horder : (f :: fs).Pairwise fun f g => f.isNmi = true ∧ g.isNmi = false) :
    Simulates V host m (n + 1) (f :: fs) := by
  have hservice : f.kind = .nmi ∨ f.kind = .irq := by
    unfold Frame.kind
    split <;> simp
  have hinterrupted : m.interrupted V host n = true := by
    rw [interrupted, isInterruption, hkind]
    rcases hservice with hf | hf <;> rw [hf]
  have hlength := length_le_two horder
  rw [List.length_cons] at hlength
  have hdepth : m.programDepth V host n ≤ 250 := h.depth ▸ (hmain _).room
  have hshadows := h.shadows.service (V := V) f hregs (hmain.handlers _) (by omega)
  rw [← hkind, ← pinnedSteps_succ_arch] at hshadows
  refine ⟨?_, h.exclusive.pinnedSteps_succ, fun _ => ?_, ?_, horder, ?_, ?_⟩
  · rw [pinnedSteps_succ_jammed, hkind]
    rcases hservice with hf | hf <;> rw [hf] <;> rfl
  · refine pendingIrq_succ h.jammed h.exclusive ?_
    rw [hkind]
    rcases hservice with hf | hf <;> rw [hf] <;> rfl
  · rintro g gs heq hnmi
    obtain rfl : f = g := (List.cons.inj heq).1
    refine ⟨n, rfl, ?_⟩
    rw [hkind, Frame.kind, hnmi]
    rfl
  · rw [programDepth_of_interrupted hinterrupted, programSteps_of_interrupted hinterrupted, h.depth]
  · rwa [programDepth_of_interrupted hinterrupted, programSteps_of_interrupted hinterrupted]

/-- **RTI.** A step that executes an instruction while a service is under way is the RTI
of its handler, and takes its frame away. -/
theorem rti (hmain : m.MainProgram V) (hrti : LoneRti m.arch.mem)
    (h : Simulates V host m n (f :: fs)) {op : U8}
    (hkind : (m.pinnedSteps V host n).stepKind = .instruction op) :
    Simulates V host m (n + 1) fs ∧ m.interrupted V host n = true := by
  have hentered : Entered (handlers m.arch.mem) f (m.pinnedSteps V host n).cpu.regs :=
    h.shadows.nested.1
  have hnested : Nested (handlers m.arch.mem) _ fs f.regs := h.shadows.nested.2
  have hlength := length_le_two h.order
  rw [List.length_cons] at hlength
  have hdepth : m.programDepth V host n ≤ 250 := h.depth ▸ (hmain _).room
  have hhandler : f.handler (handlers m.arch.mem) ∈ interruptAddresses m.arch.mem := by
    unfold Frame.handler
    split <;> simp [interruptAddresses]
  have hop : op = 0x40 := by
    rw [← mem_pc_of_instruction hkind, hentered.pc,
      h.shadows.outside _ (hrti.outside _ hhandler), hmain.mem _ hhandler]
    unfold Frame.handler
    split
    · exact hrti.nmi
    · exact hrti.irq
  have hclosing : (m.pinnedSteps V host n).stepKind.bracket = .closing .interrupt := by
    rw [hkind, hop]
    decide +kernel
  have hinterrupted : m.interrupted V host n = true := by
    rw [interrupted, isInterruption, hkind]
    simp only [hentered.pc]
    unfold Frame.handler
    split <;> simp
  obtain ⟨hshadows, hregs⟩ := h.shadows.rti (V := V) hclosing (by omega)
  rw [← pinnedSteps_succ_arch] at hshadows hregs
  refine ⟨⟨?_, h.exclusive.pinnedSteps_succ, fun hne => ?_, ?_, h.order.of_cons, ?_, ?_⟩,
    hinterrupted⟩
  · rw [pinnedSteps_succ_jammed, hkind, hop]
    decide +kernel
  · -- The RTI returns into an outer service, where I is set.
    refine pendingIrq_succ h.jammed h.exclusive ?_
    obtain ⟨g, gs, rfl⟩ := List.exists_cons_of_ne_nil hne
    have hi : f.regs.i = true := hnested.1.i
    have hmask : (m.pinnedSteps V host (n + 1)).cpu.regs.i = true := by
      rw [← hi, ← hregs]
      rfl
    rw [hkind, hop]
    exact hmask
  · rintro g gs rfl hnmi
    have hfirst := (List.pairwise_cons.mp h.order).1 g List.mem_cons_self
    rw [hnmi] at hfirst
    cases hfirst.2
  · rw [programDepth_of_interrupted hinterrupted, programSteps_of_interrupted hinterrupted, h.depth]
  · rwa [programDepth_of_interrupted hinterrupted, programSteps_of_interrupted hinterrupted]

/-- **Step.** Between services the next instruction is the program's own. -/
theorem step (hmain : m.MainProgram V) (h : Simulates V host m n []) {op : U8}
    (hkind : (m.pinnedSteps V host n).stepKind = .instruction op) :
    Simulates V host m (n + 1) [] := by
  have hms := hmain (m.programSteps V host n)
  have hregs : (m.pinnedSteps V host n).cpu.regs =
      (m.undisturbed.pinnedSteps V (fun _ => []) (m.programSteps V host n)).arch.regs :=
    h.shadows.nested
  have hop : (m.undisturbed.pinnedSteps V (fun _ => []) (m.programSteps V host n)).arch.mem
      (m.undisturbed.pinnedSteps V (fun _ => []) (m.programSteps V host n)).arch.regs.pc = op := by
    rw [← h.shadows.outside _ hms.opcode_outside, ← hregs]
    exact mem_pc_of_instruction hkind
  have hkind' := hmain.stepKind (m.programSteps V host n)
  rw [hop] at hkind'
  have hprogram : m.interrupted V host n = false := by
    simp only [interrupted, isInterruption, hkind, hregs, Bool.or_eq_false_iff,
      beq_eq_false_iff_ne]
    exact ⟨hms.not_nmi, hms.not_irq⟩
  obtain ⟨hloads, hbreak, hjams, _⟩ := Instr.of_isMain hms.allowed
  have hout := hms.stays_outside
  have hpulls := hms.pulls
  have hroom := hms.room
  rw [hop] at hloads hbreak hjams hout hpulls
  rw [← h.depth] at hpulls hroom
  have hshadows := h.shadows.step (V := V) hloads hbreak hout hpulls hroom
  have hpushed : (m.pushedAt V host n) = (m.undisturbed.pushedAt V (fun _ => [])
      (m.programSteps V host n)) := by
    rw [pushedAt, pushedAt, hkind, hkind']
    exact Instr.pushed_of_regs (congrArg (fun r => { r with pc := r.pc + BitVec.ofNat 16 1 }) hregs)
  have hdepth : m.programDepth V host (n + 1) =
      m.undisturbed.programDepth V (fun _ => []) (m.programSteps V host n + 1) := by
    simp only [programDepth, hprogram, hmain.interrupted, hpushed, hkind, hkind', h.depth]
  have harch : (m.pinnedSteps V host (n + 1)).arch =
      (StepKind.instruction op).effect V (m.pinnedSteps V host n).arch := by
    rw [pinnedSteps_succ_arch, hkind]
  have harch' : (m.undisturbed.pinnedSteps V (fun _ => []) (m.programSteps V host n + 1)).arch =
      (StepKind.instruction op).effect V
        (m.undisturbed.pinnedSteps V (fun _ => []) (m.programSteps V host n)).arch := by
    rw [pinnedSteps_succ_arch, hkind']
  refine ⟨?_, h.exclusive.pinnedSteps_succ, fun hne => absurd rfl hne, nofun, .nil, ?_, ?_⟩
  · rw [pinnedSteps_succ_jammed, hkind]
    exact hjams
  · rw [hdepth, programSteps_of_program hprogram]
  · rw [hdepth, programSteps_of_program hprogram, harch, harch']
    have hnext : m.undisturbed.programDepth V (fun _ => []) (m.programSteps V host n + 1) =
        ((StepKind.instruction op).pushed
            (m.undisturbed.pinnedSteps V (fun _ => []) (m.programSteps V host n)).arch).length +
          (m.programDepth V host n - (instr op).pulls) := by
      simp only [programDepth, hmain.interrupted, pushedAt, hkind', h.depth]
      rfl
    rw [hnext]
    exact hshadows

/-- Between services the program shows what the undisturbed run shows. -/
theorem view (h : Simulates V host m n []) :
    m.programView V host n =
      m.undisturbed.programView V (fun _ => []) (m.programSteps V host n) := by
  have hregs : (m.pinnedSteps V host n).cpu.regs =
      (m.undisturbed.pinnedSteps V (fun _ => []) (m.programSteps V host n)).cpu.regs :=
    h.shadows.nested
  have houtside : (fun addr => if page addr = 1 then 0 else
      (m.pinnedSteps V host n).arch.mem addr) = fun addr => if page addr = 1 then 0 else
        (m.undisturbed.pinnedSteps V (fun _ => []) (m.programSteps V host n)).arch.mem addr := by
    funext addr
    split
    · rfl
    · next hpage => exact h.shadows.outside addr hpage
  have hstack := h.shadows.stack
  simp only [List.length_nil, Nat.mul_zero, Nat.zero_add, List.flatMap_nil, List.nil_append]
    at hstack
  simp only [programView, View.mk.injEq, ← h.depth]
  exact ⟨hregs, houtside, hstack⟩

/-- **One step.** The simulation goes on, and after a step of the program itself no
service is under way. -/
theorem next (hmain : m.MainProgram V) (hrti : LoneRti m.arch.mem)
    (hschedule : ∀ j k, j < k → (m.pinnedSteps V host j).stepKind = .nmi →
      (m.pinnedSteps V host k).stepKind = .nmi →
        ∃ i, j < i ∧ i < k ∧ (m.pinnedSteps V host i).stepKind.bracket = .closing .interrupt)
    (h : Simulates V host m n fs) :
    ∃ gs, Simulates V host m (n + 1) gs ∧ (m.interrupted V host n = false → gs = []) := by
  cases hkind : (m.pinnedSteps V host n).stepKind with
  | jammed =>
    have hjammed := h.jammed
    rw [stepKind_eq_jammed.mp hkind] at hjammed
    cases hjammed
  | nmi =>
    -- The service under way, if any, is that of an IRQ: no NMI has returned since its own.
    have horder : (⟨true, (m.pinnedSteps V host n).cpu.regs⟩ :: fs).Pairwise
        fun f g : Frame => f.isNmi = true ∧ g.isNmi = false := by
      refine List.pairwise_cons.mpr ⟨fun g hg => ⟨rfl, ?_⟩, h.order⟩
      cases fs with
      | nil => cases hg
      | cons f fs =>
        have hirq : f.isNmi = false := by
          by_contra hnmi
          obtain ⟨k, rfl, hk⟩ := h.recent f fs rfl (by simpa using hnmi)
          obtain ⟨i, _, _, _⟩ := hschedule k (k + 1) (Nat.lt_succ_self k) hk hkind
          omega
        rcases List.mem_cons.mp hg with rfl | hmem
        · exact hirq
        · have hfirst := (List.pairwise_cons.mp h.order).1 g hmem
          rw [hirq] at hfirst
          cases hfirst.1
    have hnext := h.service hmain (f := ⟨true, (m.pinnedSteps V host n).cpu.regs⟩) rfl hkind horder
    refine ⟨_, hnext, fun hprogram => ?_⟩
    simp [interrupted, isInterruption, hkind] at hprogram
  | irq =>
    have hnil : fs = [] := by
      by_contra hne
      have hpending := (stepKind_eq_irq.mp hkind).2.2
      rw [h.masked hne] at hpending
      cases hpending
    subst hnil
    have hnext := h.service hmain (f := ⟨false, (m.pinnedSteps V host n).cpu.regs⟩) rfl hkind
      (List.pairwise_singleton ..)
    refine ⟨_, hnext, fun hprogram => ?_⟩
    simp [interrupted, isInterruption, hkind] at hprogram
  | instruction op =>
    cases fs with
    | nil => exact ⟨[], h.step hmain hkind, fun _ => rfl⟩
    | cons f fs =>
      obtain ⟨hnext, hinterrupted⟩ := h.rti hmain hrti hkind
      refine ⟨fs, hnext, fun hprogram => ?_⟩
      rw [hinterrupted] at hprogram
      cases hprogram

end Simulates

end simulation

/-- **Interrupt transparency.** Take a main program with at most 250 bytes on its stack, on
plain memory whose NMI and IRQ vectors point at a lone RTI outside page one. For all
initial registers, with no NMI pending, and however the host and the bus move the pins,
as long as an RTI is executed between any two NMI services: what the program visits in
any number of steps is a prefix of what it visits when the pins are never asserted. -/
theorem interrupt_transparency {β : Type} [PlainMemory β] (V : Variant)
    (host : ℕ → List PinCall) (m : Machine β NullHooks) (hjammed : m.cpu.jammed = false)
    (hnmi : m.cpu.pendingNmi = false) (hrti : LoneRti m.arch.mem) (hmain : m.MainProgram V)
    (hschedule : ∀ j k, j < k → (m.pinnedSteps V host j).stepKind = .nmi →
      (m.pinnedSteps V host k).stepKind = .nmi →
        ∃ i, j < i ∧ i < k ∧ (m.pinnedSteps V host i).stepKind.bracket = .closing .interrupt)
    (n : ℕ) : m.visited V host n <+: m.undisturbed.visited V (fun _ => []) n := by
  have hstart : Simulates V host m 0 [] :=
    { jammed := hjammed
      exclusive := by rw [pinnedSteps_zero, Exclusive, hnmi, Bool.false_and]
      masked := fun hne => absurd rfl hne
      recent := nofun
      order := .nil
      depth := rfl
      shadows := ⟨rfl, fun _ _ => rfl, rfl⟩ }
  have hsim (k : ℕ) : ∃ fs, Simulates V host m k fs := by
    induction k with
    | zero => exact ⟨[], hstart⟩
    | succ k ih =>
      obtain ⟨fs, h⟩ := ih
      obtain ⟨gs, hnext, _⟩ := h.next hmain hrti hschedule
      exact ⟨gs, hnext⟩
  have hview (k : ℕ) (hk : m.interrupted V host k = false) :
      m.programView V host (k + 1) =
        m.undisturbed.programView V (fun _ => []) (m.programSteps V host k + 1) := by
    obtain ⟨fs, h⟩ := hsim k
    obtain ⟨gs, hnext, hgs⟩ := h.next hmain hrti hschedule
    rw [hgs hk] at hnext
    rw [← programSteps_of_program hk]
    exact hnext.view
  exact observed_prefix (m.programView V host) (m.undisturbed.programView V fun _ => [])
    (fun k => hmain.interrupted k) rfl hview n

/-- `JMP $0400` at `$0400`, interrupted by IRQs whose handler is an RTI at `$0500`. -/
theorem interrupt_transparency_irq :
    let code : List (U16 × U8) := [(0x0400, 0x4C), (0x0401, 0x00), (0x0402, 0x04), (0x0500, 0x40),
      (0xFFFA, 0x00), (0xFFFB, 0x05), (0xFFFE, 0x00), (0xFFFF, 0x05)]
    let m : Machine FlatBus NullHooks :=
      fresh { pc := 0x0400, i := false } { memory := fun a => (code.lookup a).getD 0xEA }
    let host : ℕ → List PinCall := fun k => [.setIrq (k % 5 < 3)]
    ∀ n, m.visited Nmos6502 host n <+: m.undisturbed.visited Nmos6502 (fun _ => []) n := by
  intro code m host n
  have hop : m.arch.mem m.arch.regs.pc = 0x4C := by decide +kernel
  have haccesses : (StepKind.instruction (m.arch.mem m.arch.regs.pc)).accesses Nmos6502 m.arch =
      [.read 0x0400 0x4C, .read 0x0401 0x00, .read 0x0402 0x04] := by decide +kernel
  have hstep : MainStep Nmos6502 m.arch.mem 0 m.arch :=
    { allowed := by decide +kernel
      opcode_outside := by decide +kernel
      stays_outside := by
        rw [hop]
        refine ⟨fun k (hk : k < 2) => ?_, fun addr hmem => ?_⟩
        · interval_cases k <;> decide +kernel
        · cases hmem
      not_nmi := by decide +kernel
      not_irq := by decide +kernel
      writes := by simp [haccesses]
      pulls := by decide +kernel
      room := by decide }
  have hmain : m.MainProgram Nmos6502 :=
    .of_loop hstep (hop ▸ Arch.ext (by decide +kernel) rfl) (hop ▸ rfl)
  have hrti : LoneRti m.arch.mem :=
    ⟨by decide +kernel, by decide +kernel, by decide +kernel, by decide +kernel⟩
  refine interrupt_transparency Nmos6502 host m rfl rfl hrti hmain (fun j k _ hj _ => ?_) n
  have hpending := (stepKind_eq_nmi.mp hj).2
  rw [(pendingNmi_of_quiet rfl rfl (by simp [host]) j).1] at hpending
  cases hpending

end Machine

end Mos6502
