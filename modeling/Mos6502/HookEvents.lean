import Mos6502.Latches

/-!
# The hook event stream

Five callbacks are raised from `step`, `read`, `write` and `jam`. Hooks that record
them show what each step raises: every access in order, the instruction right after
its opcode fetch, an interrupt before its first access, and a jam last. The only
slip is the argument of the jam: `jam` does not know the opcode and passes zero.
-/

namespace Mos6502

open Effects

/-- A callback of the processor. -/
inductive HookEvent
  | onInstruction (pc : U16) (opcode : U8)
  | onRead (addr : U16) (value : U8)
  | onWrite (addr : U16) (value : U8)
  | onInterrupt (isNmi : Bool)
  | onJam (opcode : U8)
  deriving DecidableEq, Repr

namespace HookEvent

/-- The callback that an access raises. -/
def ofAccess : BusAccess → HookEvent
  | .read addr value => .onRead addr value
  | .write addr value => .onWrite addr value

/-- The access that a callback reports. -/
def access? : HookEvent → Option BusAccess
  | .onRead addr value => some (.read addr value)
  | .onWrite addr value => some (.write addr value)
  | _ => none

/-- The instruction that a callback reports. -/
def instruction? : HookEvent → Option (U16 × U8)
  | .onInstruction pc opcode => some (pc, opcode)
  | _ => none

@[simp] theorem filterMap_access_map (accs : List BusAccess) :
    (accs.map ofAccess).filterMap access? = accs := by
  induction accs with
  | nil => rfl
  | cons a accs ih => cases a <;> simp [ofAccess, access?, ih]

@[simp] theorem filterMap_instruction_map (accs : List BusAccess) :
    (accs.map ofAccess).filterMap instruction? = [] := by
  rw [List.filterMap_eq_nil_iff]
  rintro _ h
  obtain ⟨a, _, rfl⟩ := List.mem_map.mp h
  cases a <;> rfl

end HookEvent

/-- Hooks that record every callback and do nothing else. -/
structure RecordingHooks where
  events : List HookEvent := []
  deriving DecidableEq, Repr

namespace Machine

variable {β : Type}

def raise (e : HookEvent) (m : Machine β RecordingHooks) : Machine β RecordingHooks :=
  { m with hooks := { events := m.hooks.events ++ [e] } }

instance : Hooks β RecordingHooks where
  onInstruction pc opcode := raise (.onInstruction pc opcode)
  onRead addr value := raise (.onRead addr value)
  onWrite addr value := raise (.onWrite addr value)
  onInterrupt isNmi := raise (.onInterrupt isNmi)
  onJam opcode := raise (.onJam opcode)

/-- The machine without its hooks. -/
def unhook {η : Type} (m : Machine β η) : Machine β NullHooks :=
  { cpu := m.cpu, bus := m.bus, hooks := {} }

variable [BusLike β]

/-- What a step raises, when the jam callback of an opcode carries `jamOpcode` of it. -/
def raised (V : Variant) (jamOpcode : U8 → U8) (m : Machine β NullHooks) : List HookEvent :=
  let accesses := (m.stepAccesses V).map HookEvent.ofAccess
  match m.stepKind with
  | .jammed => accesses
  | .nmi => .onInterrupt true :: accesses
  | .irq => .onInterrupt false :: accesses
  | .instruction opcode =>
    accesses.take 1 ++ .onInstruction m.cpu.regs.pc opcode :: accesses.drop 1 ++
      if (instr opcode).jams then [.onJam (jamOpcode opcode)] else []

/-! ### Policies -/

/-- The recording machine `s` and the logging machine `t` are in the same state, and as
long as no JAM was executed, `s` has recorded since `es` what `t` has logged since `base`. -/
structure Recorded (es : List HookEvent) (base : List BusAccess) (s : Machine β RecordingHooks)
    (t : Machine (Logged β) NullHooks) : Prop where
  unhook : s.unhook = t.forget
  events : t.cpu.jammed = false → ∃ accs, BusEvent.accesses t.bus.log = base ++ accs ∧
    s.hooks.events = es ++ accs.map HookEvent.ofAccess

section policies

variable {es : List HookEvent} {base : List BusAccess} {s : Machine β RecordingHooks}
  {t : Machine (Logged β) NullHooks}

omit [BusLike β] in
theorem parts_of_unhook (h : s.unhook = t.forget) : t.cpu = s.cpu ∧ t.bus.bus = s.bus := by
  injection h with hcpu hbus
  exact ⟨hcpu.symm, hbus.symm⟩

/-- A read is recorded and logged with the same value. -/
theorem recorded_read (h : s.unhook = t.forget) (addr : U16) :
    (s.read addr).1 = (t.read addr).1 ∧ (s.read addr).2.unhook = (t.read addr).2.forget ∧
      (s.read addr).2.hooks.events = s.hooks.events ++ [.onRead addr (t.read addr).1] ∧
      BusEvent.accesses (t.read addr).2.bus.log =
        BusEvent.accesses t.bus.log ++ [.read addr (t.read addr).1] := by
  obtain ⟨cpu, bus, hooks⟩ := s
  obtain ⟨rfl, rfl⟩ := parts_of_unhook h
  obtain ⟨fs, haccesses, hgrows⟩ := grows_read addr t
  exact ⟨rfl, rfl, rfl, by rw [hgrows.log, BusEvent.accesses_append, haccesses]⟩

theorem recorded_write (h : s.unhook = t.forget) (addr : U16) (value : U8) :
    (s.write addr value).unhook = (t.write addr value).forget ∧
      (s.write addr value).hooks.events = s.hooks.events ++ [.onWrite addr value] ∧
      BusEvent.accesses (t.write addr value).bus.log =
        BusEvent.accesses t.bus.log ++ [.write addr value] := by
  obtain ⟨cpu, bus, hooks⟩ := s
  obtain ⟨rfl, rfl⟩ := parts_of_unhook h
  obtain ⟨fs, haccesses, hgrows⟩ := grows_write addr value t
  exact ⟨rfl, rfl, by rw [hgrows.log, BusEvent.accesses_append, haccesses]⟩

/-- **Policies.** A policy is recorded as it is logged. -/
theorem Recorded.exec {α : Type} (p : Policy α) (h : Recorded es base s t) :
    (s.exec p).1 = (t.exec p).1 ∧ Recorded es base (s.exec p).2 (t.exec p).2 := by
  refine Program.run_sim (fun c s t h => ?_) p h
  cases c with
  | read addr =>
    obtain ⟨hvalue, hunhook, hevents, haccesses⟩ := recorded_read h.unhook addr
    refine ⟨hvalue, hunhook, fun hjammed => ?_⟩
    obtain ⟨accs, hlog, hrecorded⟩ := h.events hjammed
    refine ⟨accs ++ [.read addr (t.read addr).1], ?_, ?_⟩
    · exact haccesses.trans (by rw [hlog, List.append_assoc])
    · exact hevents.trans (by rw [hrecorded, List.map_append, List.append_assoc]; rfl)
  | write addr value =>
    obtain ⟨hunhook, hevents, haccesses⟩ := recorded_write h.unhook addr value
    refine ⟨rfl, hunhook, fun hjammed => ?_⟩
    obtain ⟨accs, hlog, hrecorded⟩ := h.events hjammed
    refine ⟨accs ++ [.write addr value], ?_, ?_⟩
    · exact haccesses.trans (by rw [hlog, List.append_assoc])
    · exact hevents.trans (by rw [hrecorded, List.map_append, List.append_assoc]; rfl)
  | regs | setRegs _ | jam | pollImmediate =>
    obtain ⟨hunhook, hevents⟩ := h
    obtain ⟨cpu, bus, hooks⟩ := s
    obtain ⟨rfl, rfl⟩ := parts_of_unhook hunhook
    first
    | exact ⟨rfl, rfl, hevents⟩
    | exact ⟨rfl, rfl, fun hjammed => Bool.noConfusion hjammed⟩

omit [BusLike β] in
/-- Recording starts anew after a callback that is not an access. -/
theorem Recorded.start (h : s.unhook = t.forget) :
    Recorded s.hooks.events (BusEvent.accesses t.bus.log) s t where
  unhook := h
  events _ := ⟨[], by simp, by simp⟩

theorem Recorded.pollImmediate (h : Recorded es base s t) :
    Recorded es base s.pollImmediate t.pollImmediate :=
  (h.exec Policy.pollImmediate).2

omit [BusLike β] in
/-- The poll that ends a step raises nothing. -/
theorem unhook_pollInterrupts (h : s.unhook = t.forget) :
    s.pollInterrupts.unhook = t.pollInterrupts.forget := by
  have hforget : t.pollInterrupts.forget = t.forget.pollInterrupts := rfl
  rw [hforget, ← h]
  rfl

end policies

/-! ### Steps -/

section steps

variable (V : Variant) {m : Machine β RecordingHooks}

/-- The service of an interrupt raises its callback, then its accesses. -/
private theorem recorded_service (isNmi : Bool) (vector : U16) {t : Machine (Logged β) NullHooks}
    (hm : m.unhook = t.forget) (hlog : t.bus.log = []) (hjammed : t.cpu.jammed = false) :
    (m.serviceInterrupt V isNmi vector).unhook = (t.serviceInterrupt V isNmi vector).forget ∧
      (m.serviceInterrupt V isNmi vector).hooks.events = m.hooks.events ++
        .onInterrupt isNmi ::
          (BusEvent.accesses (t.serviceInterrupt V isNmi vector).bus.log).map
            HookEvent.ofAccess := by
  have hstart : Recorded (m.hooks.events ++ [.onInterrupt isNmi]) (BusEvent.accesses t.bus.log)
      (Hooks.onInterrupt isNmi m) t := Recorded.start (s := raise (.onInterrupt isNmi) m) hm
  obtain ⟨_, hexec⟩ := hstart.exec (Policy.interruptSequence V false vector)
  obtain ⟨_, hjam, _⟩ := exec_holds (m := t)
    (Core.holds_interruptSequence V false vector (s := t.core))
  obtain ⟨accs, haccs, hevents⟩ := hexec.events (hjam.trans hjammed)
  rw [hlog] at haccs
  have hm' : m.serviceInterrupt V isNmi vector =
      ((Hooks.onInterrupt isNmi m).exec
        (Policy.interruptSequence V false vector)).2.pollImmediate.pollInterrupts := rfl
  have ht' : t.serviceInterrupt V isNmi vector =
      (t.exec (Policy.interruptSequence V false vector)).2.pollImmediate.pollInterrupts := rfl
  rw [hm', ht']
  refine ⟨unhook_pollInterrupts hexec.pollImmediate.unhook, ?_⟩
  change ((Hooks.onInterrupt isNmi m).exec _).2.hooks.events = m.hooks.events ++
    .onInterrupt isNmi :: (BusEvent.accesses (t.exec _).2.bus.log).map HookEvent.ofAccess
  rw [hevents, haccs, List.append_assoc]
  rfl

/-- The opcode fetch reads the opcode at the program counter. -/
theorem accesses_fetch (t : Machine (Logged β) NullHooks) :
    BusEvent.accesses (t.exec Policy.fetch).2.bus.log =
      BusEvent.accesses t.bus.log ++ [.read t.cpu.regs.pc (t.exec Policy.fetch).1] := by
  obtain ⟨fs, haccesses, hgrows⟩ := grows_read t.cpu.regs.pc
    { t with cpu := { t.cpu with regs := { t.cpu.regs with pc := t.cpu.regs.pc + 1 } } }
  have hlog : (t.exec Policy.fetch).2.bus.log = t.bus.log ++ fs := hgrows.log
  rw [hlog, BusEvent.accesses_append, haccesses]
  rfl

/-- The reads of a JAM. -/
private def jamReads : Policy Unit := do
  let r ← Policy.regs
  let _ ← Policy.read r.pc
  let _ ← Policy.read 0xFFFF
  let _ ← Policy.read 0xFFFE
  let _ ← Policy.read 0xFFFE
  let _ ← Policy.read 0xFFFF
  let _ ← Policy.read 0xFFFF
  let _ ← Policy.read 0xFFFF
  let _ ← Policy.read 0xFFFF
  let _ ← Policy.read 0xFFFF
  let _ ← Policy.read 0xFFFF
  pure ()

/-- An instruction raises its accesses after the opcode fetch, and a JAM its callback
after them. -/
private theorem recorded_execute (i : Instr) {es : List HookEvent} {base : List BusAccess}
    {s : Machine β RecordingHooks} {t : Machine (Logged β) NullHooks}
    (h : Recorded es base s t) (hjammed : t.cpu.jammed = false) :
    (s.exec (i.execute V)).2.unhook = (t.exec (i.execute V)).2.forget ∧
      ∃ accs, BusEvent.accesses (t.exec (i.execute V)).2.bus.log = base ++ accs ∧
        (s.exec (i.execute V)).2.hooks.events =
          es ++ accs.map HookEvent.ofAccess ++ if i.jams then [.onJam 0] else [] := by
  obtain ⟨_, hexec⟩ := h.exec (i.execute V)
  refine ⟨hexec.unhook, ?_⟩
  cases hjams : i.jams with
  | false =>
    have hafter : (t.exec (i.execute V)).2.cpu.jammed = false := by
      have hcore := exec_holds (m := t) (Core.holds_execute V i t.core)
      exact hcore.jammed.trans (by simp [core, hjammed, hjams])
    obtain ⟨accs, haccs, hevents⟩ := hexec.events hafter
    exact ⟨accs, haccs, by simpa using hevents⟩
  | true =>
    obtain ⟨mode, rfl⟩ := Instr.eq_of_jams hjams
    obtain ⟨_, hreads⟩ := h.exec jamReads
    have hafter : (t.exec jamReads).2.core.jammed = false :=
      exec_holds (m := t) (p := jamReads) (Q := fun _ s => s.jammed = false)
        (by simp [jamReads, core, hjammed])
    obtain ⟨accs, haccs, hevents⟩ := hreads.events hafter
    have hexecute : (Instr.SpecialInstr .JAM mode).execute V =
        jamReads >>= fun _ => Policy.jam := rfl
    have hs : (s.exec (jamReads >>= fun _ => Policy.jam)).2 = (s.exec jamReads).2.jam := by
      rw [exec, Program.run_bind]
      rfl
    have ht : (t.exec (jamReads >>= fun _ => Policy.jam)).2 = (t.exec jamReads).2.jam := by
      rw [exec, Program.run_bind]
      rfl
    rw [hexecute, hs, ht]
    refine ⟨accs, haccs, ?_⟩
    change (s.exec jamReads).2.hooks.events ++ [.onJam 0] = _
    rw [hevents]
    rfl

/-- The execution of an instruction. -/
private theorem recorded_instruction (hjammed : m.cpu.jammed = false)
    (hnmi : m.cpu.pendingNmi = false) (hirq : m.cpu.pendingIrq = false) :
    (m.executeInstruction V).unhook = (m.unhook.logged.executeInstruction V).forget ∧
      (m.executeInstruction V).hooks.events =
        m.hooks.events ++ m.unhook.raised V fun _ => 0 := by
  let t := m.unhook.logged.pollImmediate
  let f := m.pollImmediate.exec Policy.fetch
  let g := t.exec Policy.fetch
  have hstart : Recorded m.hooks.events [] m.pollImmediate t :=
    Recorded.start (s := m.pollImmediate) (t := t) rfl
  obtain ⟨hopcode, hfetch⟩ := hstart.exec Policy.fetch
  have hg : BusEvent.accesses g.2.bus.log = [.read m.cpu.regs.pc g.1] := accesses_fetch t
  have hgjammed : g.2.cpu.jammed = false := hjammed
  obtain ⟨accs, haccs, hevents⟩ := hfetch.events hgjammed
  obtain rfl : accs = [.read m.cpu.regs.pc g.1] := by
    rw [← hg, haccs]
    rfl
  have hraise : Recorded (f.2.hooks.events ++ [.onInstruction m.cpu.regs.pc g.1])
      [.read m.cpu.regs.pc g.1] (raise (.onInstruction m.cpu.regs.pc g.1) f.2) g.2 := by
    rw [← hg]
    exact Recorded.start (s := raise (.onInstruction m.cpu.regs.pc g.1) f.2) hfetch.unhook
  obtain ⟨hunhook, rest, hrest, hrecorded⟩ := recorded_execute V (instr g.1) hraise hgjammed
  have hm : m.executeInstruction V =
      ((raise (.onInstruction m.cpu.regs.pc g.1) f.2).exec
        ((instr g.1).execute V)).2.pollInterrupts := by
    have hdispatch : m.executeInstruction V =
        ((raise (.onInstruction m.cpu.regs.pc f.1) f.2).exec (dispatch V f.1)).2.pollInterrupts :=
      rfl
    rw [hdispatch, dispatch_eq, show f.1 = g.1 from hopcode]
  have ht : m.unhook.logged.executeInstruction V =
      (g.2.exec ((instr g.1).execute V)).2.pollInterrupts := by
    have hdispatch : m.unhook.logged.executeInstruction V =
        (g.2.exec (dispatch V g.1)).2.pollInterrupts := rfl
    rw [hdispatch, dispatch_eq]
  refine ⟨by rw [hm, ht]; exact unhook_pollInterrupts hunhook, ?_⟩
  have haccesses : m.unhook.stepAccesses V = .read m.cpu.regs.pc g.1 :: rest := by
    rw [stepAccesses, stepEvents, stepMachine_idle V (m := m.unhook.logged) hjammed hnmi hirq, ht]
    exact hrest
  have hkind : m.unhook.stepKind = .instruction g.1 := by
    rw [stepKind_of_idle (m := m.unhook) hjammed hnmi hirq, ← opcode_logged]
    rfl
  have hraised : m.unhook.raised V (fun _ => 0) =
      .onRead m.cpu.regs.pc g.1 :: .onInstruction m.cpu.regs.pc g.1 ::
        (rest.map HookEvent.ofAccess ++ if (instr g.1).jams then [.onJam 0] else []) := by
    simp only [raised, hkind, haccesses]
    rfl
  rw [hm, hraised]
  change ((raise (.onInstruction m.cpu.regs.pc g.1) f.2).exec _).2.hooks.events = _
  rw [hrecorded, show f.2.hooks.events = _ from hevents]
  simp [HookEvent.ofAccess]

/-- **Steps.** A recording processor behaves as one without hooks, and records what each
step raises. -/
theorem recorded_step (V : Variant) (m : Machine β RecordingHooks) :
    (m.stepMachine V).unhook = m.unhook.stepMachine V ∧
      (m.stepMachine V).hooks.events = m.hooks.events ++ m.unhook.raised V fun _ => 0 := by
  have hlogged : m.unhook.stepMachine V = (m.unhook.logged.stepMachine V).forget :=
    (stepMachine_logged V m.unhook).symm
  rw [hlogged]
  cases hjammed : m.cpu.jammed with
  | true =>
    have ht : m.unhook.logged.stepMachine V = (m.unhook.logged.read m.cpu.regs.pc).2 :=
      stepMachine_jammed V (m := m.unhook.logged) hjammed
    obtain ⟨_, hunhook, hevents, haccesses⟩ :=
      recorded_read (s := m) (t := m.unhook.logged) rfl m.cpu.regs.pc
    have hkind : m.unhook.stepKind = .jammed := stepKind_eq_jammed.mpr hjammed
    rw [stepMachine_jammed V hjammed, ht]
    refine ⟨hunhook, ?_⟩
    rw [hevents, raised, hkind, stepAccesses, stepEvents, ht, haccesses]
    rfl
  | false =>
    cases hnmi : m.cpu.pendingNmi with
    | true =>
      have ht := stepMachine_nmi V (m := m.unhook.logged) hjammed hnmi
      have hkind : m.unhook.stepKind = .nmi := stepKind_eq_nmi.mpr ⟨hjammed, hnmi⟩
      rw [stepMachine_nmi V hjammed hnmi, raised, hkind, stepAccesses, stepEvents, ht]
      exact recorded_service V true kNmiVector rfl rfl hjammed
    | false =>
      cases hirq : m.cpu.pendingIrq with
      | true =>
        have ht := stepMachine_irq V (m := m.unhook.logged) hjammed hnmi hirq
        have hkind : m.unhook.stepKind = .irq := stepKind_eq_irq.mpr ⟨hjammed, hnmi, hirq⟩
        rw [stepMachine_irq V hjammed hnmi hirq, raised, hkind, stepAccesses, stepEvents, ht]
        exact recorded_service V false kIrqVector rfl rfl hjammed
      | false =>
        have ht := stepMachine_idle V (m := m.unhook.logged) hjammed hnmi hirq
        rw [stepMachine_idle V hjammed hnmi hirq, ht]
        exact recorded_instruction V hjammed hnmi hirq

/-! ### What a step raises -/

variable (m : Machine β NullHooks)

/-- The callbacks of the accesses are the accesses of the step. -/
theorem filterMap_access_raised (jamOpcode : U8 → U8) :
    (m.raised V jamOpcode).filterMap HookEvent.access? = m.stepAccesses V := by
  unfold raised
  cases m.stepKind with
  | jammed | nmi | irq => exact HookEvent.filterMap_access_map _
  | instruction op =>
    have hjam : (if (instr op).jams then [HookEvent.onJam (jamOpcode op)] else []).filterMap
        HookEvent.access? = [] := by
      split <;> rfl
    simp only [← List.map_take, ← List.map_drop, List.filterMap_append, List.filterMap_cons,
      HookEvent.filterMap_access_map, hjam, List.append_nil, HookEvent.access?,
      List.take_append_drop]

/-- A step that executes an instruction raises one callback for it, and no other step
raises one. -/
theorem filterMap_instruction_raised (jamOpcode : U8 → U8) :
    (m.raised V jamOpcode).filterMap HookEvent.instruction? =
      match m.stepKind with
      | .instruction op => [(m.cpu.regs.pc, op)]
      | _ => [] := by
  unfold raised
  cases m.stepKind with
  | jammed | nmi | irq => exact HookEvent.filterMap_instruction_map _
  | instruction op =>
    have hjam : (if (instr op).jams then [HookEvent.onJam (jamOpcode op)] else []).filterMap
        HookEvent.instruction? = [] := by
      split <;> rfl
    simp only [← List.map_take, ← List.map_drop, List.filterMap_append, List.filterMap_cons,
      HookEvent.filterMap_instruction_map, hjam, List.append_nil, List.nil_append,
      HookEvent.instruction?]

/-- The first access of an instruction is its opcode fetch. -/
theorem head_stepAccesses {op : U8} (hkind : m.stepKind = .instruction op) :
    ∃ rest, m.stepAccesses V = .read m.cpu.regs.pc op :: rest := by
  obtain ⟨hjammed, hnmi, hirq, rfl⟩ := idle_of_instruction hkind
  let g := m.logged.pollImmediate.exec Policy.fetch
  have hg : BusEvent.accesses g.2.bus.log = [.read m.cpu.regs.pc g.1] :=
    accesses_fetch m.logged.pollImmediate
  obtain ⟨fs, hgrows⟩ := grows_exec (dispatch V g.1) g.2
  refine ⟨BusEvent.accesses fs, ?_⟩
  rw [stepAccesses, stepEvents, stepMachine_idle V (m := m.logged) hjammed hnmi hirq]
  change BusEvent.accesses (g.2.exec (dispatch V g.1)).2.bus.log = _
  rw [hgrows.log, BusEvent.accesses_append, hg, ← opcode_logged]
  rfl

/-- The end of an interrupt sequence. -/
private def loadVector (vector : U16) : Policy Unit := do
  let lo ← Policy.read vector
  let hi ← Policy.read (vector + 1)
  Policy.modifyRegs fun r => { r with pc := word lo hi }

/-- The interrupt sequence up to there. -/
private def saveState (V : Variant) : Policy Unit := do
  let r ← Policy.regs
  let _ ← Policy.read r.pc
  let _ ← Policy.read r.pc
  let r ← Policy.regs
  Policy.push (page r.pc)
  Policy.push (offset r.pc)
  let r ← Policy.regs
  Policy.push (r.pack false)
  Policy.modifyRegs fun r =>
    { r with i := true, d := if V.clearDecimalOnInterrupt then false else r.d }

private theorem exec_loadVector (vector : U16) (t : Machine (Logged β) NullHooks) :
    ∃ lo hi, BusEvent.accesses (t.exec (loadVector vector)).2.bus.log =
        BusEvent.accesses t.bus.log ++ [.read vector lo, .read (vector + 1) hi] ∧
      (t.exec (loadVector vector)).2.cpu.regs.pc = word lo hi := by
  obtain ⟨fs, hfs, hgrows⟩ := grows_read vector t
  obtain ⟨gs, hgs, hgrows'⟩ := grows_read (vector + 1) (t.read vector).2
  have hlog : (t.exec (loadVector vector)).2.bus.log = t.bus.log ++ fs ++ gs := by
    rw [← hgrows.log]
    exact hgrows'.log
  refine ⟨_, _, ?_, rfl⟩
  rw [hlog, BusEvent.accesses_append, BusEvent.accesses_append, hfs, hgs, List.append_assoc]
  rfl

/-- An interrupt service ends with the load of the program counter from its vector. -/
private theorem service_vector (isNmi : Bool) (vector : U16)
    (t : Machine (Logged β) NullHooks) :
    ∃ accs lo hi, BusEvent.accesses (t.serviceInterrupt V isNmi vector).bus.log =
        accs ++ [.read vector lo, .read (vector + 1) hi] ∧
      (t.serviceInterrupt V isNmi vector).cpu.regs.pc = word lo hi := by
  have hsequence : Policy.interruptSequence V false vector =
      saveState V >>= fun _ => loadVector vector := rfl
  have hexec : (t.exec (Policy.interruptSequence V false vector)).2 =
      ((t.exec (saveState V)).2.exec (loadVector vector)).2 := by
    rw [hsequence, exec, Program.run_bind]
    rfl
  obtain ⟨lo, hi, haccs, hpc⟩ := exec_loadVector vector (t.exec (saveState V)).2
  rw [← hexec] at haccs hpc
  have hcore : (t.serviceInterrupt V isNmi vector).core.regs =
      (t.exec (Policy.interruptSequence V false vector)).2.core.regs := by
    rw [serviceInterrupt, pollInterrupts_core]
    rfl
  exact ⟨_, lo, hi, haccs, (congrArg Registers.pc hcore).trans hpc⟩

/-- **Services.** The isNmi of a service tells the vector that PC is then loaded from. -/
theorem step_vector (isNmi : Bool) (hkind : m.stepKind = if isNmi then .nmi else .irq) :
    ∃ accs lo hi, m.stepAccesses V =
        accs ++ [.read (if isNmi then kNmiVector else kIrqVector) lo,
          .read ((if isNmi then kNmiVector else kIrqVector) + 1) hi] ∧
      (m.stepMachine V).cpu.regs.pc = word lo hi := by
  rw [← stepMachine_logged, stepAccesses, stepEvents]
  cases isNmi with
  | true =>
    obtain ⟨hjammed, hnmi⟩ := stepKind_eq_nmi.mp hkind
    rw [stepMachine_nmi V (m := m.logged) hjammed hnmi]
    exact service_vector V true kNmiVector _
  | false =>
    obtain ⟨hjammed, hnmi, hirq⟩ := stepKind_eq_irq.mp hkind
    rw [stepMachine_irq V (m := m.logged) hjammed hnmi hirq]
    exact service_vector V false kIrqVector _

/-- The callbacks of a step do not depend on what a jam callback carries, unless it
executes a JAM. -/
theorem raised_eq_iff :
    m.raised V (fun _ => 0) = m.raised V id ↔ m.stepKind.executes Instr.jams = false := by
  unfold raised
  cases m.stepKind with
  | jammed | nmi | irq => simp [StepKind.executes]
  | instruction op =>
    cases hjams : (instr op).jams with
    | false => simp [StepKind.executes, hjams]
    | true =>
      have hne : 0 ≠ op := by
        rintro rfl
        exact absurd hjams (by decide)
      simp [StepKind.executes, hjams]
      exact hne

theorem length_raised (jamOpcode jamOpcode' : U8 → U8) :
    (m.raised V jamOpcode).length = (m.raised V jamOpcode').length := by
  unfold raised
  cases m.stepKind with
  | jammed | nmi | irq => rfl
  | instruction op =>
    cases hjams : (instr op).jams <;> simp [hjams]

end steps

/-! ### Runs -/

/-- The machine after `k` steps with any hooks, under a host that moves the pins in
between. -/
def hookedSteps {η : Type} [Hooks β η] (V : Variant) (host : ℕ → List PinCall)
    (m : Machine β η) : ℕ → Machine β η :=
  orbit (fun k s => (s.pinCalls (host k)).stepMachine V) m

section runs

variable (V : Variant) (host : ℕ → List PinCall) (m : Machine β NullHooks)

/-- The machine with hooks that start to record. -/
def recording (m : Machine β NullHooks) : Machine β RecordingHooks :=
  { cpu := m.cpu, bus := m.bus, hooks := {} }

/-- The recording machine after `k` steps. -/
def recordedSteps : ℕ → Machine β RecordingHooks := m.recording.hookedSteps V host

/-- Everything that `k` steps raise. -/
def hookLog (k : ℕ) : List HookEvent := (m.recordedSteps V host k).hooks.events

/-- The event stream of the first `n` steps is the faithful one: each step raises what it
should, and a jam carries its opcode. -/
def FaithfulLog (n : ℕ) : Prop :=
  m.hookLog V host n = (List.range n).flatMap fun k => (m.pinnedBefore V host k).raised V id

theorem recordedSteps_eq (k : ℕ) :
    (m.recordedSteps V host k).unhook = m.pinnedSteps V host k ∧
      m.hookLog V host k =
        (List.range k).flatMap fun j => (m.pinnedBefore V host j).raised V fun _ => 0 := by
  induction k with
  | zero => exact ⟨rfl, rfl⟩
  | succ k ih =>
    obtain ⟨hmachine, hlog⟩ := ih
    have hbefore : ((m.recordedSteps V host k).pinCalls (host k)).unhook =
        m.pinnedBefore V host k := by
      rw [pinnedBefore, ← hmachine, pinCalls_eq, pinCalls_eq]
      rfl
    have hhooks : ((m.recordedSteps V host k).pinCalls (host k)).hooks.events =
        m.hookLog V host k := by
      rw [pinCalls_eq]
      rfl
    obtain ⟨hunhook, hevents⟩ := recorded_step V ((m.recordedSteps V host k).pinCalls (host k))
    rw [hbefore] at hunhook hevents
    refine ⟨hunhook.trans pinnedSteps_succ.symm, ?_⟩
    rw [hhooks, hlog] at hevents
    rw [List.range_succ, List.flatMap_append, List.flatMap_singleton]
    exact hevents

/-- Two streams whose parts have equal lengths are equal when their parts are. -/
private theorem flatMap_range_eq_iff {f g : ℕ → List HookEvent}
    (hlength : ∀ k, (f k).length = (g k).length) (n : ℕ) :
    (List.range n).flatMap f = (List.range n).flatMap g ↔ ∀ k < n, f k = g k := by
  induction n with
  | zero => simp
  | succ n ih =>
    rw [List.range_succ, List.flatMap_append, List.flatMap_append, List.flatMap_singleton,
      List.flatMap_singleton]
    constructor
    · intro h k hk
      obtain ⟨hinit, hlast⟩ := List.append_inj' h (hlength n)
      rcases Nat.lt_succ_iff_lt_or_eq.mp hk with hlt | rfl
      · exact ih.mp hinit k hlt
      · exact hlast
    · intro h
      rw [ih.mpr fun k hk => h k (by omega), h n (Nat.lt_succ_self n)]

end runs

/-- **The event stream.** On every bus, from every state and under every interleaving of
steps and pin calls, hooks that record do not change the run, the read and write
callbacks are the accesses of its steps in order, and the instruction callbacks are its
executed instructions in order; an instruction's first access is its opcode fetch, and
PC is loaded from the NMI vector in exactly the services that say so. The whole stream
is the faithful one, where each callback stands in its place with its arguments and each
jam carries its opcode, if and only if no step executes a JAM. -/
theorem hook_log_faithful_iff (V : Variant) (host : ℕ → List PinCall) (m : Machine β NullHooks)
    (n : ℕ) :
    (m.recordedSteps V host n).unhook = m.pinnedSteps V host n ∧
    (m.hookLog V host n).filterMap HookEvent.access? =
      (List.range n).flatMap (fun k => (m.pinnedBefore V host k).stepAccesses V) ∧
    (m.hookLog V host n).filterMap HookEvent.instruction? =
      (List.range n).flatMap (fun k =>
        match (m.pinnedBefore V host k).stepKind with
        | .instruction op => [((m.pinnedBefore V host k).cpu.regs.pc, op)]
        | _ => []) ∧
    (∀ k < n,
      (∀ op, (m.pinnedBefore V host k).stepKind = .instruction op →
        ∃ rest, (m.pinnedBefore V host k).stepAccesses V =
          .read (m.pinnedBefore V host k).cpu.regs.pc op :: rest) ∧
      ∀ isNmi : Bool, (m.pinnedBefore V host k).stepKind = (if isNmi then .nmi else .irq) →
        ∃ accs lo hi, (m.pinnedBefore V host k).stepAccesses V =
            accs ++ [.read (if isNmi then kNmiVector else kIrqVector) lo,
              .read ((if isNmi then kNmiVector else kIrqVector) + 1) hi] ∧
          (m.pinnedSteps V host (k + 1)).cpu.regs.pc = word lo hi) ∧
    (m.FaithfulLog V host n ↔
      ∀ k < n, (m.pinnedBefore V host k).stepKind.executes Instr.jams = false) := by
  obtain ⟨hmachine, hlog⟩ := recordedSteps_eq V host m n
  refine ⟨hmachine, ?_, ?_, fun k _ => ⟨fun op hkind => ?_, fun isNmi hkind => ?_⟩, ?_⟩
  · rw [hlog, List.filterMap_flatMap]
    simp only [filterMap_access_raised]
  · rw [hlog, List.filterMap_flatMap]
    simp only [filterMap_instruction_raised]
  · exact head_stepAccesses V _ hkind
  · rw [pinnedSteps_succ]
    exact step_vector V _ isNmi hkind
  · rw [FaithfulLog, hlog, flatMap_range_eq_iff fun k => length_raised V _ _ _]
    exact forall₂_congr fun k _ => raised_eq_iff V _

/-- The jam callback of an executed $02 carries zero. -/
theorem not_faithfulLog_jam :
    ¬ (fresh {} { memory := fun _ => 0x02 : FlatBus }).FaithfulLog Nmos6502 (fun _ => []) 1 := by
  intro h
  have hlast := congrArg List.getLast? h
  exact absurd hlast (by decide +kernel)

/-- A row of NOPs with an NMI: the stream of the first two steps is faithful. -/
theorem hook_log_faithful_nmi :
    (fresh {} { memory := fun _ => 0xEA : FlatBus }).FaithfulLog Nmos6502
      (fun k => if k = 0 then [.setNmi true] else []) 2 :=
  (hook_log_faithful_iff Nmos6502 (fun k => if k = 0 then [.setNmi true] else [])
    (fresh {} { memory := fun _ => 0xEA : FlatBus }) 2).2.2.2.2.mpr (by decide +kernel)

end Machine

end Mos6502
