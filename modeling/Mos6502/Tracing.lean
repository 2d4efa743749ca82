import Mos6502.Disassembler
import Mos6502.LogGrowth

/-!
# Tracing

Hooks that emit one line for each instruction, with the disassembler's text. The
disassembler asks for a peek without side effects, but the tracer peeks through the
bus, so tracing is invisible only as long as the bus reads at the instruction bytes
change nothing.
-/

namespace Mos6502

open Effects

/-- A Hooks policy that emits one line per instruction. -/
structure TracingHooks where
  lines : List String := []
  enabled : Bool := true
  deriving DecidableEq, Repr

/-- The format `%-12s`. -/
def padded (text : String) : String := String.ofList (text.toList.rightpad 12 ' ')

/-- A line of the trace. -/
def traceLine (pc : U16) (opcode : U8) (text : String) (c : Cpu) : String :=
  hexWord pc ++ "  " ++ hexByte opcode ++ "  " ++ padded text ++ " A:" ++ hexByte c.regs.a ++
    " X:" ++ hexByte c.regs.x ++ " Y:" ++ hexByte c.regs.y ++ " P:" ++
    hexByte (c.regs.pack false) ++ " SP:" ++ hexByte c.regs.s ++ " CYC:" ++
    toString c.cycles.toNat

namespace Machine

variable {β γ : Type} [BusLike β] [BusLike γ]

/-- The tracer's peek: a read of the bus, without a tick. -/
def peekBus {η : Type} (addr : U16) : StateM (Machine β η) U8 := fun m =>
  let r := BusLike.read m.bus addr
  (r.value, m.absorb r)

instance : Hooks β TracingHooks where
  onInstruction pc opcode m :=
    if m.hooks.enabled then
      let ((text, _), m) := (disassemble peekBus pc).run m
      { m with
        hooks := { m.hooks with lines := m.hooks.lines ++ [traceLine pc opcode text m.cpu] } }
    else m
  onRead _ _ m := m
  onWrite _ _ m := m
  onInterrupt _ m := m
  onJam _ m := m

example :
    traceLine 0x0400 0xEA "NOP" { regs := { a := 0x1C, s := 0xFD }, cycles := 7 } =
      "0400  EA  NOP          A:1C X:00 Y:00 P:24 SP:FD CYC:7" := by decide +kernel

/-! ### Peeks -/

/-- A peek that is only made when it is wanted. -/
def peekIf {η : Type} (wanted : Bool) (addr : U16) (m : Machine β η) : Machine β η :=
  if wanted then (peekBus addr m).2 else m

/-- The disassembler peeks at the opcode, and at as many bytes after it as the opcode that
it found there says. -/
theorem disassemble_peeks {η : Type} (pc : U16) (m : Machine β η) :
    ((disassemble peekBus pc).run m).2 =
      ((peekBus pc m).2.peekIf (1 ≤ (row (peekBus pc m).1).instr.mode.operandBytes)
        (pc + 1)).peekIf (2 ≤ (row (peekBus pc m).1).instr.mode.operandBytes) (pc + 2) := by
  have hpeek (wanted : Prop) [Decidable wanted] (addr : U16) (s : Machine β η) :
      ((if wanted then peekBus addr else pure 0 : StateM (Machine β η) U8) s).2 =
        s.peekIf wanted addr := by
    by_cases hwanted : wanted
    · simp only [peekIf, hwanted, if_true, decide_true]
    · simp only [peekIf, hwanted, if_false, decide_false, Bool.false_eq_true]
      rfl
  rw [← hpeek, ← hpeek]
  rfl

/-- The addresses that the tracer peeks at: the bytes of the instruction, by the opcode
that a peek finds there. -/
def peekedAddresses (b : β) (pc : U16) : List U16 :=
  (List.range (instructionLength (BusLike.read b pc).value)).map fun k => pc + BitVec.ofNat 16 k

/-- A read that changes nothing on the bus and makes no pin calls. -/
def ReadsQuietly (b : β) (addr : U16) : Prop :=
  (BusLike.read b addr).bus = b ∧ (BusLike.read b addr).calls = []

/-- If the next step executes an instruction, the addresses that the tracer then peeks at
are all quiet. -/
def QuietFor (quiet : β → U16 → Prop) (m : Machine β NullHooks) : Prop :=
  ∀ op, m.stepKind = .instruction op →
    ∀ addr ∈ peekedAddresses (m.exec Policy.fetch).2.bus m.cpu.regs.pc,
      quiet (m.exec Policy.fetch).2.bus addr

/-- A relation between the bus of a traced and of an untraced machine: bus cycles preserve
it, and so do peeks at addresses that are `quiet`. -/
structure PeekSim (B : β → γ → Prop) (quiet : γ → U16 → Prop) : Prop where
  value : ∀ {b c}, B b c → ∀ addr, (BusLike.read b addr).value = (BusLike.read c addr).value
  tick : ∀ {b c}, B b c → (BusLike.tick b).calls = (BusLike.tick c).calls
  read : ∀ {b c}, B b c → ∀ addr,
    let r := BusLike.read (BusLike.tick b).bus addr
    let r' := BusLike.read (BusLike.tick c).bus addr
    r.value = r'.value ∧ r.calls = r'.calls ∧ B r.bus r'.bus
  write : ∀ {b c}, B b c → ∀ addr data,
    let r := BusLike.write (BusLike.tick b).bus addr data
    let r' := BusLike.write (BusLike.tick c).bus addr data
    r.calls = r'.calls ∧ B r.bus r'.bus
  peek : ∀ {b c}, B b c → ∀ addr, quiet c addr →
    (BusLike.read b addr).calls = [] ∧ B (BusLike.read b addr).bus c

/-- The traced machine `s` and the untraced machine `t`. -/
structure Traced (B : β → γ → Prop) (enabled : Bool) (s : Machine β TracingHooks)
    (t : Machine γ NullHooks) : Prop where
  cpu : s.cpu = t.cpu
  bus : B s.bus t.bus
  enabled : s.hooks.enabled = enabled

section simulation

variable {B : β → γ → Prop} {quiet : γ → U16 → Prop} (hB : PeekSim B quiet) {e : Bool}
  {s : Machine β TracingHooks} {t : Machine γ NullHooks}
include hB

/-- Policies make no peeks. -/
theorem Traced.exec {α : Type} (h : Traced B e s t) (policy : Policy α) :
    (s.exec policy).1 = (t.exec policy).1 ∧ Traced B e (s.exec policy).2 (t.exec policy).2 := by
  refine Program.run_sim (fun c s t h => ?_) policy h
  have htick := hB.tick h.bus
  cases c with
  | read addr =>
    obtain ⟨hvalue, hcalls, hbus⟩ := hB.read h.bus addr
    refine ⟨hvalue, ?_, hbus, h.enabled⟩
    simp only [handle, Machine.read, Machine.tick, absorb, Hooks.onRead, h.cpu, htick, hcalls]
  | write addr value =>
    obtain ⟨hcalls, hbus⟩ := hB.write h.bus addr value
    refine ⟨rfl, ?_, hbus, h.enabled⟩
    simp only [handle, Machine.write, Machine.tick, absorb, Hooks.onWrite, h.cpu, htick, hcalls]
  | regs => exact ⟨congrArg Cpu.regs h.cpu, h⟩
  | setRegs _ | jam | pollImmediate =>
    refine ⟨rfl, ?_, h.bus, h.enabled⟩
    simp only [handle, Machine.jam, Machine.pollImmediate, Hooks.onJam, h.cpu]

/-- A quiet peek leaves no mark. -/
theorem Traced.peek (h : Traced B e s t) {addr : U16} (hquiet : quiet t.bus addr) :
    Traced B e (peekBus addr s).2 t := by
  obtain ⟨hcalls, hbus⟩ := hB.peek h.bus addr hquiet
  refine ⟨?_, hbus, h.enabled⟩
  simp only [peekBus, absorb, hcalls, Pins.calls_nil, h.cpu]

theorem Traced.peekIf (h : Traced B e s t) {wanted : Bool} {addr : U16}
    (hquiet : wanted = true → quiet t.bus addr) : Traced B e (s.peekIf wanted addr) t := by
  cases wanted with
  | true => exact h.peek hB (hquiet rfl)
  | false => exact h

/-- The disassembler peeks at the bytes of the instruction. -/
theorem Traced.disassemble (h : Traced B e s t) {pc : U16}
    (hquiet : ∀ addr ∈ peekedAddresses t.bus pc, quiet t.bus addr) :
    Traced B e ((Mos6502.disassemble peekBus pc).run s).2 t := by
  let bytes := (row (peekBus pc s).1).instr.mode.operandBytes
  have hlength : instructionLength (BusLike.read t.bus pc).value = 1 + bytes := by
    rw [instructionLength, ← hB.value h.bus pc]
    rfl
  have hpeeked (k : ℕ) (hk : k ≤ bytes) : quiet t.bus (pc + BitVec.ofNat 16 k) :=
    hquiet _ (List.mem_map.mpr ⟨k, List.mem_range.mpr (by omega), rfl⟩)
  have hopcode := h.peek hB (by simpa using hpeeked 0 (Nat.zero_le _))
  have hlow := hopcode.peekIf hB fun hone => hpeeked 1 (of_decide_eq_true hone)
  rw [disassemble_peeks]
  exact hlow.peekIf hB fun htwo => hpeeked 2 (of_decide_eq_true htwo)

/-- The instruction callback changes nothing but the lines, when its peeks are quiet. -/
theorem Traced.onInstruction (h : Traced B e s t) (pc : U16) (opcode : U8)
    (hquiet : e = true → ∀ addr ∈ peekedAddresses t.bus pc, quiet t.bus addr) :
    Traced B e (Hooks.onInstruction pc opcode s) t := by
  cases e with
  | false =>
    have hoff : Hooks.onInstruction pc opcode s = s := by
      simp [Hooks.onInstruction, h.enabled]
    rw [hoff]
    exact h
  | true =>
    have hpeeks := h.disassemble hB (hquiet rfl)
    have hon : Hooks.onInstruction pc opcode s =
        { ((Mos6502.disassemble peekBus pc).run s).2 with
          hooks := { ((Mos6502.disassemble peekBus pc).run s).2.hooks with
            lines := ((Mos6502.disassemble peekBus pc).run s).2.hooks.lines ++
              [traceLine pc opcode ((Mos6502.disassemble peekBus pc).run s).1.1
                ((Mos6502.disassemble peekBus pc).run s).2.cpu] } } := by
      simp only [Hooks.onInstruction, h.enabled, if_true]
      rfl
    rw [hon]
    exact ⟨hpeeks.cpu, hpeeks.bus, hpeeks.enabled⟩

omit hB [BusLike β] [BusLike γ] in
theorem Traced.pollInterrupts (h : Traced B e s t) :
    Traced B e s.pollInterrupts t.pollInterrupts :=
  ⟨congrArg Cpu.pollInterrupts h.cpu, h.bus, h.enabled⟩

private theorem Traced.serviceInterrupt (h : Traced B e s t) (V : Variant) (isNmi : Bool)
    (vector : U16) :
    Traced B e (s.serviceInterrupt V isNmi vector) (t.serviceInterrupt V isNmi vector) := by
  obtain ⟨_, hexec⟩ := h.exec hB (Policy.interruptSequence V false vector)
  obtain ⟨_, hpoll⟩ := hexec.exec hB Policy.pollImmediate
  exact hpoll.pollInterrupts

private theorem Traced.executeInstruction (h : Traced B e s t) (V : Variant)
    (hjammed : t.cpu.jammed = false) (hnmi : t.cpu.pendingNmi = false)
    (hirq : t.cpu.pendingIrq = false) (hquiet : e = true → t.QuietFor quiet) :
    Traced B e (s.executeInstruction V) (t.executeInstruction V) := by
  have hkind := stepKind_of_idle hjammed hnmi hirq
  obtain ⟨_, hpoll⟩ := h.exec hB Policy.pollImmediate
  obtain ⟨hopcode, hfetch⟩ := hpoll.exec hB Policy.fetch
  have hhook := hfetch.onInstruction hB t.cpu.regs.pc
    (t.pollImmediate.exec Policy.fetch).1 fun he => hquiet he _ hkind
  obtain ⟨_, hdispatch⟩ := hhook.exec hB (dispatch V (t.pollImmediate.exec Policy.fetch).1)
  have hs : s.executeInstruction V =
      ((Hooks.onInstruction t.cpu.regs.pc (t.pollImmediate.exec Policy.fetch).1
        (s.pollImmediate.exec Policy.fetch).2).exec
          (dispatch V (t.pollImmediate.exec Policy.fetch).1)).2.pollInterrupts := by
    have hpc : s.cpu.regs.pc = t.cpu.regs.pc := by rw [h.cpu]
    rw [← hpc, ← show (s.pollImmediate.exec Policy.fetch).1 =
      (t.pollImmediate.exec Policy.fetch).1 from hopcode]
    rfl
  rw [hs]
  exact hdispatch.pollInterrupts

/-- **Steps.** While its peeks are quiet, a traced machine steps as an untraced one. -/
theorem Traced.stepMachine (h : Traced B e s t) (V : Variant)
    (hquiet : e = true → t.QuietFor quiet) :
    Traced B e (s.stepMachine V) (t.stepMachine V) := by
  cases hjammed : t.cpu.jammed with
  | true =>
    rw [stepMachine_jammed V hjammed, stepMachine_jammed V (by rw [h.cpu, hjammed]), h.cpu]
    exact (h.exec hB (Policy.read t.cpu.regs.pc)).2
  | false =>
    have hsjammed : s.cpu.jammed = false := by rw [h.cpu, hjammed]
    cases hnmi : t.cpu.pendingNmi with
    | true =>
      have hserved : Traced B e { s with cpu := { s.cpu with pendingNmi := false } }
          { t with cpu := { t.cpu with pendingNmi := false } } :=
        ⟨by rw [h.cpu], h.bus, h.enabled⟩
      rw [stepMachine_nmi V hjammed hnmi, stepMachine_nmi V hsjammed (by rw [h.cpu, hnmi])]
      exact hserved.serviceInterrupt hB V true kNmiVector
    | false =>
      have hsnmi : s.cpu.pendingNmi = false := by rw [h.cpu, hnmi]
      cases hirq : t.cpu.pendingIrq with
      | true =>
        have hserved : Traced B e { s with cpu := { s.cpu with pendingIrq := false } }
            { t with cpu := { t.cpu with pendingIrq := false } } :=
          ⟨by rw [h.cpu], h.bus, h.enabled⟩
        rw [stepMachine_irq V hjammed hnmi hirq,
          stepMachine_irq V hsjammed hsnmi (by rw [h.cpu, hirq])]
        exact hserved.serviceInterrupt hB V false kIrqVector
      | false =>
        rw [stepMachine_idle V hjammed hnmi hirq,
          stepMachine_idle V hsjammed hsnmi (by rw [h.cpu, hirq])]
        exact h.executeInstruction hB V hjammed hnmi hirq hquiet

/-- **Runs.** -/
theorem Traced.hookedSteps (h : Traced B e s t) (V : Variant) (host : ℕ → List PinCall) (k : ℕ)
    (hquiet : e = true → ∀ j < k, (t.pinnedBefore V host j).QuietFor quiet) :
    Traced B e (s.hookedSteps V host k) (t.pinnedSteps V host k) := by
  induction k with
  | zero => exact h
  | succ k ih =>
    have hk := ih fun he j hj => hquiet he j (by omega)
    have hbefore : Traced B e ((s.hookedSteps V host k).pinCalls (host k))
        (t.pinnedBefore V host k) := by
      rw [pinnedBefore, pinCalls_eq, pinCalls_eq]
      refine ⟨?_, hk.bus, hk.enabled⟩
      rw [hk.cpu]
    rw [pinnedSteps_succ]
    exact hbefore.stepMachine hB V fun he => hquiet he k (Nat.lt_succ_self k)

end simulation

end Machine

/-! ### The log of a traced run -/

namespace BusEvent

/-- Whether a tick is still waiting for its access at the end of an event log. -/
def openAfter : Bool → List BusEvent → Bool
  | waiting, [] => waiting
  | _, .tick :: es => openAfter true es
  | waiting, .pin _ :: es => openAfter waiting es
  | _, .access _ :: es => openAfter false es

/-- The accesses that have a tick right before them, pin calls apart: those that are bus
cycles of the processor. -/
def ticked : Bool → List BusEvent → List BusAccess
  | _, [] => []
  | _, .tick :: es => ticked true es
  | waiting, .pin _ :: es => ticked waiting es
  | waiting, .access a :: es => (if waiting then [a] else []) ++ ticked false es

theorem ticked_append (waiting : Bool) (es fs : List BusEvent) :
    ticked waiting (es ++ fs) = ticked waiting es ++ ticked (openAfter waiting es) fs ∧
      openAfter waiting (es ++ fs) = openAfter (openAfter waiting es) fs := by
  induction es generalizing waiting with
  | nil => exact ⟨rfl, rfl⟩
  | cons e es ih =>
    cases e with
    | tick => exact ih true
    | pin c => exact ih waiting
    | access a =>
      obtain ⟨hticked, hopen⟩ := ih false
      exact ⟨by simp only [List.cons_append, ticked, hticked, openAfter, List.append_assoc], hopen⟩

@[simp] theorem ticked_pins (waiting : Bool) (cs : List PinCall) :
    ticked waiting (cs.map .pin) = [] ∧ openAfter waiting (cs.map .pin) = waiting := by
  induction cs with
  | nil => exact ⟨rfl, rfl⟩
  | cons c cs ih => exact ih

/-- A bus cycle counts, whatever was on the log before. -/
theorem ticked_ofAccess (waiting : Bool) (cs ds : List PinCall) (a : BusAccess) :
    ticked waiting (ofAccess cs a ds) = [a] ∧ openAfter waiting (ofAccess cs a ds) = false := by
  obtain ⟨hticked, hopen⟩ := ticked_append true (cs.map .pin) (.access a :: ds.map .pin)
  obtain ⟨hcs, hcsOpen⟩ := ticked_pins true cs
  obtain ⟨hds, hdsOpen⟩ := ticked_pins false ds
  constructor
  · change ticked true (cs.map .pin ++ .access a :: ds.map .pin) = _
    rw [hticked, hcs, hcsOpen]
    simp only [ticked, hds, if_true]
    rfl
  · change openAfter true (cs.map .pin ++ .access a :: ds.map .pin) = _
    rw [hopen, hcsOpen]
    exact hdsOpen

end BusEvent

namespace Machine

variable {β : Type} [BusLike β]

/-- The traced log has the bus cycles of the untraced one, and peeks in between. -/
structure PeeksLogged (b c : Logged β) : Prop where
  bus : b.bus = c.bus
  closed : BusEvent.openAfter false b.log = false
  ticked : BusEvent.ticked false b.log = BusEvent.accesses c.log

omit [BusLike β] in
/-- A bus cycle goes on both logs. -/
theorem PeeksLogged.cycle {b c b' c' : Logged β} (h : PeeksLogged b c)
    {cs ds : List PinCall} {a : BusAccess} (hbus : b'.bus = c'.bus)
    (hb : b'.log = b.log ++ BusEvent.ofAccess cs a ds)
    (hc : c'.log = c.log ++ BusEvent.ofAccess cs a ds) : PeeksLogged b' c' := by
  obtain ⟨hticked, hopen⟩ := BusEvent.ticked_append false b.log (BusEvent.ofAccess cs a ds)
  obtain ⟨hcycle, hclosed⟩ := BusEvent.ticked_ofAccess false cs ds a
  rw [h.closed] at hticked hopen
  refine ⟨hbus, ?_, ?_⟩
  · rw [hb, hopen, hclosed]
  · rw [hb, hc, hticked, hcycle, h.ticked, BusEvent.accesses_append, BusEvent.accesses_ofAccess]

/-- The log of a read cycle. -/
theorem log_readCycle (b : Logged β) (addr : U16) :
    (BusLike.read (BusLike.tick b).bus addr).bus.log =
      b.log ++ BusEvent.ofAccess (BusLike.tick b.bus).calls
        (.read addr (BusLike.read (BusLike.tick b.bus).bus addr).value)
        (BusLike.read (BusLike.tick b.bus).bus addr).calls := by
  simp [BusLike.read, BusLike.tick, Logged.record, BusEvent.ofAccess]

theorem log_writeCycle (b : Logged β) (addr : U16) (data : U8) :
    (BusLike.write (BusLike.tick b).bus addr data).bus.log =
      b.log ++ BusEvent.ofAccess (BusLike.tick b.bus).calls (.write addr data)
        (BusLike.write (BusLike.tick b.bus).bus addr data).calls := by
  simp [BusLike.write, BusLike.tick, Logged.record, BusEvent.ofAccess]

/-- On a logging bus the peeks are on the log, and nowhere else. -/
theorem peekSim_logged : PeekSim (PeeksLogged (β := β)) fun c => ReadsQuietly c.bus where
  value h addr := congrArg (fun bus : β => (BusLike.read bus addr).value) h.bus
  tick h := congrArg (fun bus : β => (BusLike.tick bus).calls) h.bus
  read {b c} h addr := by
    have hb := log_readCycle b addr
    rw [h.bus] at hb
    let cycle (bus : β) := BusLike.read (BusLike.tick bus).bus addr
    exact ⟨congrArg (fun bus => (cycle bus).value) h.bus,
      congrArg (fun bus => (cycle bus).calls) h.bus,
      h.cycle (congrArg (fun bus => (cycle bus).bus) h.bus) hb (log_readCycle c addr)⟩
  write {b c} h addr data := by
    have hb := log_writeCycle b addr data
    rw [h.bus] at hb
    let cycle (bus : β) := BusLike.write (BusLike.tick bus).bus addr data
    exact ⟨congrArg (fun bus => (cycle bus).calls) h.bus,
      h.cycle (congrArg (fun bus => (cycle bus).bus) h.bus) hb (log_writeCycle c addr data)⟩
  peek {b c} h addr hquiet := by
    obtain ⟨hbus, hcalls⟩ := hquiet
    have hread : BusLike.read b.bus addr = BusLike.read c.bus addr := by rw [h.bus]
    have hlog : (BusLike.read b addr).bus.log =
        b.log ++ [.access (.read addr (BusLike.read c.bus addr).value)] := by
      change b.log ++ _ :: (BusLike.read b.bus addr).calls.map .pin = _
      rw [hread, hcalls]
      rfl
    obtain ⟨hticked, hopen⟩ := BusEvent.ticked_append false b.log
      [.access (.read addr (BusLike.read c.bus addr).value)]
    rw [h.closed] at hticked hopen
    refine ⟨(congrArg Callback.calls hread).trans hcalls,
      (congrArg Callback.bus hread).trans hbus, ?_, ?_⟩
    · rw [hlog, hopen]
      rfl
    · rw [hlog, hticked, h.ticked]
      exact List.append_nil _

/-- Without a log, quiet peeks leave no mark at all. -/
theorem peekSim_eq : PeekSim (fun b c : β => b = c) ReadsQuietly where
  value h addr := by rw [h]
  tick h := by rw [h]
  read h addr := by
    subst h
    exact ⟨rfl, rfl, rfl⟩
  write h addr data := by
    subst h
    exact ⟨rfl, rfl⟩
  peek h addr hquiet := by
    subst h
    exact ⟨hquiet.2, hquiet.1⟩

/-! ### The first peek -/

/-- A peek is on the log. -/
theorem seen_peek {η : Type} (addr : U16) (m : Machine (Logged β) η) :
    (peekBus addr m).2.seen = m.seen ++ [.read addr (peekBus addr m).1] := by
  let r := BusLike.read m.bus.bus addr
  change BusEvent.accesses (m.bus.log ++ ([.access (.read addr r.value)] ++ r.calls.map .pin)) = _
  rw [BusEvent.accesses_append, BusEvent.accesses_append, BusEvent.accesses_pins]
  rfl

theorem seen_peekIf {η : Type} (wanted : Bool) (addr : U16) (m : Machine (Logged β) η) :
    m.seen <+: (m.peekIf wanted addr).seen := by
  cases wanted with
  | true => exact ⟨_, (seen_peek addr m).symm⟩
  | false => exact List.prefix_refl _

/-- The first peek of the disassembler is at the opcode. -/
theorem seen_disassemble {η : Type} (pc : U16) (m : Machine (Logged β) η) :
    m.seen ++ [.read pc (peekBus pc m).1] <+: ((disassemble peekBus pc).run m).2.seen := by
  rw [← seen_peek, disassemble_peeks]
  exact (seen_peekIf _ _ _).trans (seen_peekIf _ _ _)

theorem seen_onInstruction (pc : U16) (opcode : U8) {m : Machine (Logged β) TracingHooks}
    (henabled : m.hooks.enabled = true) :
    m.seen ++ [.read pc (peekBus pc m).1] <+: (Hooks.onInstruction pc opcode m).seen := by
  have hseen : (Hooks.onInstruction pc opcode m).seen =
      ((disassemble peekBus pc).run m).2.seen := by
    simp only [Hooks.onInstruction, henabled, if_true]
    rfl
  rw [hseen]
  exact seen_disassemble pc m

instance : KeepsLog β TracingHooks where
  onInstruction pc opcode m := by
    cases henabled : m.hooks.enabled with
    | true => exact (List.prefix_append _ _).trans (seen_onInstruction pc opcode henabled)
    | false =>
      simp only [Hooks.onInstruction, henabled, Bool.false_eq_true, if_false]
      exact List.prefix_refl _
  onRead _ _ _ := List.prefix_refl _
  onWrite _ _ _ := List.prefix_refl _
  onInterrupt _ _ := List.prefix_refl _
  onJam _ _ := List.prefix_refl _

/-- An instruction goes on to the byte after its opcode, but the tracer looks at the
opcode once more. -/
theorem Traced.parts {s : Machine (Logged β) TracingHooks} {t : Machine (Logged β) NullHooks}
    (h : Traced (fun b c => b = c) true s t) (V : Variant) {op : U8}
    (hkind : t.stepKind = .instruction op) :
    ∃ opcode peeked next,
      t.seen ++ [.read t.cpu.regs.pc opcode, .read t.cpu.regs.pc peeked] <+:
        (s.stepMachine V).seen ∧
      t.seen ++ [.read t.cpu.regs.pc opcode, .read (t.cpu.regs.pc + 1) next] <+:
        (t.stepMachine V).seen := by
  obtain ⟨hjammed, hnmi, hirq, _⟩ := idle_of_instruction hkind
  let f := s.pollImmediate.exec Policy.fetch
  let g := t.pollImmediate.exec Policy.fetch
  obtain ⟨_, hpoll⟩ := h.exec peekSim_eq Policy.pollImmediate
  have hfetch : Traced (fun b c => b = c) true f.2 g.2 := (hpoll.exec peekSim_eq Policy.fetch).2
  have hg : g.2.seen = t.seen ++ [.read t.cpu.regs.pc g.1] := accesses_fetch t.pollImmediate
  have hf : f.2.seen = t.seen ++ [.read t.cpu.regs.pc g.1] := by
    rw [← hg]
    exact congrArg (fun b : Logged β => BusEvent.accesses b.log) hfetch.bus
  have htraced := seen_onInstruction t.cpu.regs.pc f.1 hfetch.enabled
  have hrest := seen_exec (dispatch V f.1) (Hooks.onInstruction t.cpu.regs.pc f.1 f.2)
  obtain ⟨next, huntraced⟩ := readsAtPc_execute V (instr_modeFits g.1) g.2
  have hs : s.stepMachine V =
      ((Hooks.onInstruction t.cpu.regs.pc f.1 f.2).exec (dispatch V f.1)).2.pollInterrupts := by
    rw [stepMachine_idle V (by rw [h.cpu, hjammed]) (by rw [h.cpu, hnmi]) (by rw [h.cpu, hirq]),
      ← h.cpu]
    rfl
  have ht : t.stepMachine V = (g.2.exec ((instr g.1).execute V)).2.pollInterrupts := by
    rw [stepMachine_idle V hjammed hnmi hirq, ← dispatch_eq]
    rfl
  refine ⟨g.1, (peekBus t.cpu.regs.pc f.2).1, next, ?_, ?_⟩
  · have hseen := htraced.trans hrest
    rw [hf, List.append_assoc] at hseen
    rw [hs]
    exact hseen
  · rw [hg, List.append_assoc] at huntraced
    rw [ht]
    exact huntraced

/-! ### Transparency -/

section transparency

variable (V : Variant) (host : ℕ → List PinCall)

/-- The untraced run on a logging bus is the untraced run. -/
theorem pinnedSteps_forget (m : Machine (Logged β) NullHooks) (k : ℕ) :
    (m.pinnedSteps V host k).forget = m.forget.pinnedSteps V host k := by
  induction k with
  | zero => rfl
  | succ k ih =>
    rw [pinnedSteps_succ, pinnedSteps_succ, ← stepMachine_forget, pinnedBefore, pinnedBefore, ← ih,
      pinCalls_eq, pinCalls_eq]
    rfl

theorem pinnedBefore_forget (m : Machine (Logged β) NullHooks) (k : ℕ) :
    (m.pinnedBefore V host k).forget = m.forget.pinnedBefore V host k := by
  rw [pinnedBefore, pinnedBefore, ← pinnedSteps_forget, pinCalls_eq, pinCalls_eq]
  rfl

theorem stepKind_forget (m : Machine (Logged β) NullHooks) : m.stepKind = m.forget.stepKind := by
  have hopcode : m.opcode = m.forget.opcode := (exec_forget Policy.fetch m).1.symm
  simp only [stepKind, hopcode]
  rfl

/-- The machine with a logging bus under any hooks. -/
def onLog {η : Type} (m : Machine β η) : Machine (Logged β) η :=
  { cpu := m.cpu, bus := { bus := m.bus }, hooks := m.hooks }

/-- The first `n` steps are as without tracing: the same registers, flags, cycle counter,
latches and bus, the same step results and the same bus cycles. -/
structure TransparentRun (m : Machine β TracingHooks) (n : ℕ) : Prop where
  machine : (m.hookedSteps V host n).unhook = m.unhook.pinnedSteps V host n
  returns : ∀ k < n, (((m.hookedSteps V host k).pinCalls (host k)).step V).1 =
    ((m.unhook.pinnedBefore V host k).step V).1
  accesses : BusEvent.ticked false (m.onLog.hookedSteps V host n).bus.log =
    BusEvent.accesses (m.unhook.logged.pinnedSteps V host n).bus.log

/-- The first `n` steps are as without tracing, and the bus cannot tell the difference:
the tracer's peeks included, it sees the same accesses. -/
structure SameRun (m : Machine β TracingHooks) (n : ℕ) : Prop
    extends m.TransparentRun V host n where
  seen : (m.onLog.hookedSteps V host n).seen = (m.unhook.logged.pinnedSteps V host n).seen

/-- Without hooks the log keeps what it holds, too. -/
theorem seen_pinnedSteps (m : Machine (Logged β) NullHooks) {k n : ℕ} (hkn : k ≤ n) :
    (m.pinnedSteps V host k).seen <+: (m.pinnedSteps V host n).seen := by
  have hhooked (j : ℕ) : m.pinnedSteps V host j = m.hookedSteps V host j := by
    induction j with
    | zero => rfl
    | succ j ih =>
      rw [pinnedSteps_succ, pinnedBefore, ih]
      rfl
  rw [hhooked, hhooked]
  exact seen_hookedSteps V m host hkn

theorem quietFor_forget {m : Machine (Logged β) NullHooks}
    (h : m.forget.QuietFor ReadsQuietly) : m.QuietFor fun c => ReadsQuietly c.bus := by
  intro op hkind addr haddr
  have hbus : (m.forget.exec Policy.fetch).2.bus = (m.exec Policy.fetch).2.bus.bus :=
    congrArg Machine.bus (exec_forget Policy.fetch m).2
  rw [stepKind_forget] at hkind
  have hquiet := h op hkind addr
  rw [hbus] at hquiet
  exact hquiet haddr

/-- Two runs in the same state at a traced instruction never agree on the accesses of the
bus again. -/
theorem seen_ne_of_instruction (m : Machine β TracingHooks) (henabled : m.hooks.enabled = true)
    {k n : ℕ} (hk : k < n) {op : U8}
    (hkind : (m.unhook.pinnedBefore V host k).stepKind = .instruction op)
    (hbefore : ∀ j < k, ∀ op, (m.unhook.pinnedBefore V host j).stepKind ≠ .instruction op) :
    (m.onLog.hookedSteps V host n).seen ≠ (m.unhook.logged.pinnedSteps V host n).seen := by
  intro hsame
  have hstart : Traced (fun b c => b = c) true m.onLog m.unhook.logged := ⟨rfl, rfl, henabled⟩
  obtain ⟨hcpu, hbus, hon⟩ := hstart.hookedSteps peekSim_eq V host k fun _ j hj op hop => by
    rw [stepKind_forget, pinnedBefore_forget] at hop
    exact absurd hop (hbefore j hj op)
  let s := (m.onLog.hookedSteps V host k).pinCalls (host k)
  let t := m.unhook.logged.pinnedBefore V host k
  have hst : Traced (fun b c => b = c) true s t := by
    simp only [s, t, pinnedBefore, pinCalls_eq]
    exact ⟨by rw [hcpu], hbus, hon⟩
  have hinstruction : t.stepKind = .instruction op := by
    rw [stepKind_forget, pinnedBefore_forget]
    exact hkind
  obtain ⟨opcode, peeked, next, htraced, huntraced⟩ := hst.parts V hinstruction
  have hs := htraced.trans (seen_hookedSteps V m.onLog host (Nat.succ_le_of_lt hk))
  have hrest := seen_pinnedSteps V host m.unhook.logged (Nat.succ_le_of_lt hk)
  rw [pinnedSteps_succ] at hrest
  have ht := huntraced.trans hrest
  rw [hsame] at hs
  have heq := (List.prefix_of_prefix_length_le hs ht (by simp)).eq_of_length (by simp)
  simp at heq

/-- While its peeks are quiet, the tracer changes nothing. -/
theorem transparentRun_of_quiet (m : Machine β TracingHooks) (n : ℕ)
    (hquiet : m.hooks.enabled = true →
      ∀ k < n, (m.unhook.pinnedBefore V host k).QuietFor ReadsQuietly) :
    m.TransparentRun V host n := by
  have hstart : Traced (fun b c : β => b = c) m.hooks.enabled m m.unhook := ⟨rfl, rfl, rfl⟩
  have hrun (k : ℕ) (hk : k ≤ n) := hstart.hookedSteps peekSim_eq V host k
    fun he j hj => hquiet he j (by omega)
  have hlogged := Traced.hookedSteps (peekSim_logged (β := β)) (e := m.hooks.enabled)
    (s := m.onLog) (t := m.unhook.logged) ⟨rfl, ⟨rfl, rfl, rfl⟩, rfl⟩ V host n
    fun he j hj => quietFor_forget (by rw [pinnedBefore_forget]; exact hquiet he j hj)
  refine ⟨?_, fun k hk => ?_, hlogged.bus.ticked⟩
  · obtain ⟨hcpu, hbus, _⟩ := hrun n le_rfl
    simp only [unhook, hcpu, hbus]
  · have hbefore := hrun k (by omega)
    have hafter := hrun (k + 1) hk
    have hcpu : ((m.hookedSteps V host k).pinCalls (host k)).cpu =
        (m.unhook.pinnedBefore V host k).cpu := by
      rw [pinnedBefore, pinCalls_eq, pinCalls_eq, hbefore.cpu]
    have hnext : (((m.hookedSteps V host k).pinCalls (host k)).stepMachine V).cpu =
        ((m.unhook.pinnedBefore V host k).stepMachine V).cpu :=
      hafter.cpu.trans (by rw [pinnedSteps_succ])
    simp only [step, hcpu, hnext]

/-- **Tracing.** On every bus, from every state and under every interleaving of steps and
pin calls: with the tracer's peeks, the bus sees the accesses of the untraced run exactly
when tracing is off or no instruction is executed. Apart from the peeks, a run in which
the tracer only peeks at addresses that read quietly is as without tracing. -/
theorem tracing_transparent (m : Machine β TracingHooks) (n : ℕ) :
    (m.SameRun V host n ↔ m.hooks.enabled = false ∨
      ∀ k < n, ∀ op, (m.unhook.pinnedBefore V host k).stepKind ≠ .instruction op) ∧
    ((m.hooks.enabled = true →
        ∀ k < n, (m.unhook.pinnedBefore V host k).QuietFor ReadsQuietly) →
      m.TransparentRun V host n) := by
  have hquiet := m.transparentRun_of_quiet V host n
  refine ⟨⟨fun hsame => ?_, fun hnone => ⟨hquiet fun he k hk op hop => ?_, ?_⟩⟩, hquiet⟩
  · cases he : m.hooks.enabled with
    | false => exact .inl rfl
    | true =>
      refine .inr fun k hk op hop => ?_
      -- the first instruction of the run is where the logs part
      have hsome : ∃ k, ∃ op, (m.unhook.pinnedBefore V host k).stepKind = .instruction op :=
        ⟨k, op, hop⟩
      obtain ⟨first, hfirst⟩ := Nat.find_spec hsome
      have hle : Nat.find hsome ≤ k := Nat.find_min' hsome ⟨op, hop⟩
      exact seen_ne_of_instruction V host m he (by omega) hfirst
        (fun j hj op hop => Nat.find_min hsome hj ⟨op, hop⟩) hsame.seen
  · exact absurd hop (hnone.resolve_left (by simp [he]) k hk op)
  · have hstart : Traced (fun b c => b = c) m.hooks.enabled m.onLog m.unhook.logged :=
      ⟨rfl, rfl, rfl⟩
    have hrun := hstart.hookedSteps peekSim_eq V host n fun he k hk op hop => by
      rw [stepKind_forget, pinnedBefore_forget] at hop
      exact absurd hop (hnone.resolve_left (by simp [he]) k hk op)
    exact congrArg (fun b : Logged β => BusEvent.accesses b.log) hrun.bus

end transparency

/-- Flat memory reads quietly everywhere. -/
theorem readsQuietly_flatBus (b : FlatBus) (addr : U16) : ReadsQuietly b addr := ⟨rfl, rfl⟩

/-- A traced row of NOPs on flat memory. -/
theorem tracing_transparent_nop :
    ({ cpu := {}, bus := { memory := fun _ => 0xEA }, hooks := {} } :
      Machine FlatBus TracingHooks).TransparentRun Nmos6502 (fun _ => []) 3 :=
  (tracing_transparent Nmos6502 (fun _ => [])
    { cpu := {}, bus := { memory := fun _ => 0xEA }, hooks := {} } 3).2
    fun _ _ _ _ _ addr _ => readsQuietly_flatBus _ addr

/-! ### A bus that counts its reads -/

/-- Memory with a port at $D000, which tells how many reads the bus has served. -/
structure ReadCounter where
  memory : Memory
  reads : U8 := 0

instance : BusLike ReadCounter where
  read b addr :=
    { value := if addr = 0xD000 then b.reads else b.memory addr
      bus := { b with reads := b.reads + 1 } }
  write b addr data :=
    { value := (), bus := { b with memory := Function.update b.memory addr data } }
  tick b := { value := (), bus := b }

/-- An `LDA $D000` loads 3 without tracing, and 6 with it. -/
theorem not_transparentRun_readCounter :
    ¬ ({ cpu := { regs := { pc := 0x0400 } }
         bus := { memory := fun addr => if addr = 0x0400 then 0xAD
                    else if addr = 0x0402 then 0xD0 else 0x00 }
         hooks := {} } : Machine ReadCounter TracingHooks).TransparentRun
      Nmos6502 (fun _ => []) 1 := by
  intro h
  have ha := congrArg (fun m => m.cpu.regs.a) h.machine
  exact absurd ha (by decide +kernel)

end Machine

end Mos6502
