import Mos6502.HookEvents

/-!
# What stays on the log of a bus

Accesses are never taken off the log again, under any hooks that leave it alone. So two
runs whose logs part once never agree on them later. The byte after the opcode is where
they can part: whatever the bus answers, an instruction reads it before anything else,
if only to discard it.
-/

namespace Mos6502

open Effects

namespace Machine

variable {β : Type} [BusLike β]

/-- The accesses on the log of the bus. -/
def seen {η : Type} (m : Machine (Logged β) η) : List BusAccess := BusEvent.accesses m.bus.log

/-- Callbacks that take nothing off the log of the bus. -/
class KeepsLog (β η : Type) [BusLike β] [Hooks (Logged β) η] : Prop where
  onInstruction (pc : U16) (opcode : U8) (m : Machine (Logged β) η) :
    m.seen <+: (Hooks.onInstruction pc opcode m).seen
  onRead (addr : U16) (value : U8) (m : Machine (Logged β) η) :
    m.seen <+: (Hooks.onRead addr value m).seen
  onWrite (addr : U16) (value : U8) (m : Machine (Logged β) η) :
    m.seen <+: (Hooks.onWrite addr value m).seen
  onInterrupt (isNmi : Bool) (m : Machine (Logged β) η) :
    m.seen <+: (Hooks.onInterrupt isNmi m).seen
  onJam (opcode : U8) (m : Machine (Logged β) η) : m.seen <+: (Hooks.onJam opcode m).seen

instance : KeepsLog β NullHooks where
  onInstruction _ _ _ := List.prefix_refl _
  onRead _ _ _ := List.prefix_refl _
  onWrite _ _ _ := List.prefix_refl _
  onInterrupt _ _ := List.prefix_refl _
  onJam _ _ := List.prefix_refl _

section growth

variable {η : Type} [Hooks (Logged β) η] [KeepsLog β η]

theorem seen_exec {α : Type} (policy : Policy α) (m : Machine (Logged β) η) :
    m.seen <+: (m.exec policy).2.seen := by
  refine Program.run_frame (R := fun m m' : Machine (Logged β) η => m.seen <+: m'.seen)
    (fun _ => List.prefix_refl _) (fun _ _ _ => List.IsPrefix.trans) (fun c m => ?_) policy m
  cases c with
  | read addr =>
    have hread : m.seen <+: (m.tick.absorb (BusLike.read m.tick.bus addr)).seen := by
      simp [seen, Machine.tick, absorb, BusLike.read, BusLike.tick, Logged.record]
    exact hread.trans (KeepsLog.onRead addr _ _)
  | write addr value =>
    have hwrite : m.seen <+: (m.tick.absorb (BusLike.write m.tick.bus addr value)).seen := by
      simp [seen, Machine.tick, absorb, BusLike.write, BusLike.tick, Logged.record]
    exact hwrite.trans (KeepsLog.onWrite addr value _)
  | jam =>
    have hjam := KeepsLog.onJam 0 { m with cpu := { m.cpu with jammed := true } }
    exact hjam
  | regs | setRegs _ | pollImmediate => exact List.prefix_refl _

variable (V : Variant) (m : Machine (Logged β) η)

theorem seen_serviceInterrupt (isNmi : Bool) (vector : U16) :
    m.seen <+: (m.serviceInterrupt V isNmi vector).seen :=
  (KeepsLog.onInterrupt isNmi m).trans (seen_exec (Policy.interruptSequence V false vector) _)

theorem seen_executeInstruction : m.seen <+: (m.executeInstruction V).seen :=
  ((seen_exec Policy.fetch m.pollImmediate).trans (KeepsLog.onInstruction _ _ _)).trans
    (seen_exec (dispatch V (m.pollImmediate.exec Policy.fetch).1) _)

theorem seen_stepMachine : m.seen <+: (m.stepMachine V).seen := by
  unfold stepMachine
  split_ifs
  · exact seen_exec (Policy.read m.cpu.regs.pc) m
  · exact seen_serviceInterrupt V { m with cpu := { m.cpu with pendingNmi := false } } true _
  · exact seen_serviceInterrupt V { m with cpu := { m.cpu with pendingIrq := false } } false _
  · exact seen_executeInstruction V m

/-- **Runs.** What the log holds after `k` steps it holds from then on. -/
theorem seen_hookedSteps (host : ℕ → List PinCall) {k n : ℕ} (hkn : k ≤ n) :
    (m.hookedSteps V host k).seen <+: (m.hookedSteps V host n).seen := by
  induction n, hkn using Nat.le_induction with
  | base => exact List.prefix_refl _
  | succ n hkn ih =>
    have hpins : ((m.hookedSteps V host n).pinCalls (host n)).seen =
        (m.hookedSteps V host n).seen := by
      rw [pinCalls_eq]
      rfl
    have hstep := seen_stepMachine V ((m.hookedSteps V host n).pinCalls (host n))
    rw [hpins] at hstep
    exact ih.trans hstep

end growth

/-! ### The byte after the opcode -/

section policies

variable {α γ : Type}

/-- On every run the first access of the policy is a read at the program counter. -/
def ReadsAtPc (β : Type) [BusLike β] (p : Policy α) : Prop :=
  ∀ m : Machine (Logged β) NullHooks, ∃ value,
    m.seen ++ [.read m.cpu.regs.pc value] <+: (m.exec p).2.seen

theorem ReadsAtPc.bind {p : Policy α} (h : ReadsAtPc β p) (f : α → Policy γ) :
    ReadsAtPc β (p >>= f) := by
  intro m
  obtain ⟨value, hfirst⟩ := h m
  have hexec : m.exec (p >>= f) = (m.exec p).2.exec (f (m.exec p).1) := Program.run_bind ..
  rw [hexec]
  exact ⟨value, hfirst.trans (seen_exec _ _)⟩

theorem readsAtPc_fetch : ReadsAtPc β Policy.fetch :=
  fun m => ⟨_, [], (List.append_nil _).trans (accesses_fetch m).symm⟩

/-- A read that is discarded. -/
theorem readsAtPc_read (f : Registers → U8 → Policy α) :
    ReadsAtPc β (do
      let r ← Policy.regs
      let value ← Policy.read r.pc
      f r value) := by
  intro m
  let s := m.read m.cpu.regs.pc
  obtain ⟨es, haccesses, hgrows⟩ := grows_read m.cpu.regs.pc m
  have hread : s.2.seen = m.seen ++ [.read m.cpu.regs.pc s.1] := by
    rw [seen, hgrows.log, BusEvent.accesses_append, haccesses]
    rfl
  have hrest := seen_exec (f m.cpu.regs s.1) s.2
  rw [hread] at hrest
  exact ⟨s.1, hrest⟩

theorem readsAtPc_resolve (A : Access) (mode : IndexedMode) : ReadsAtPc β (mode.resolve A) := by
  cases mode with
  | AbsoluteX | AbsoluteY => exact (readsAtPc_fetch.bind _).bind _
  | IndirectY => exact readsAtPc_fetch.bind _

/-- Every mode with operand bytes starts with the fetch of the first one. -/
theorem readsAtPc_effective {mode : OperandMode} (h : mode ≠ .Immediate) (A : Access) :
    ReadsAtPc β (mode.effective A) := by
  cases mode with
  | Immediate => exact absurd rfl h
  | ZeroPage | ZeroPageX | ZeroPageY | IndirectX => exact readsAtPc_fetch.bind _
  | Absolute => exact readsAtPc_fetch.bind _
  | AbsoluteX => exact (readsAtPc_resolve A .AbsoluteX).bind _
  | AbsoluteY => exact (readsAtPc_resolve A .AbsoluteY).bind _
  | IndirectY => exact (readsAtPc_resolve A .IndirectY).bind _

theorem readsAtPc_special (V : Variant) (op : SpecialOp) : ReadsAtPc β (op.execute V) := by
  cases op with
  | BRK => exact readsAtPc_fetch.bind _
  | JSR => exact readsAtPc_fetch.bind _
  | JMP_ABS | JMP_IND => exact (readsAtPc_fetch.bind _).bind _
  | RTS | RTI | JAM => exact readsAtPc_read _

/-- **The first access of an instruction.** -/
theorem readsAtPc_execute (V : Variant) {i : Instr} (h : i.modeFits = true) :
    ReadsAtPc β (i.execute V) := by
  cases i with
  | ReadInstr op mode =>
    by_cases hmode : mode = .Immediate
    · subst hmode
      have hfetch : (Instr.ReadInstr op .Immediate).execute V =
          Policy.fetch >>= fun value => Policy.modifyRegs fun r => op.apply V value r := rfl
      rw [hfetch]
      exact readsAtPc_fetch.bind _
    · exact (readsAtPc_effective hmode .Read).bind _
  | WriteInstr op mode => exact (readsAtPc_effective (bne_iff_ne.mp h) .Write).bind _
  | RmwInstr op mode => exact (readsAtPc_effective (bne_iff_ne.mp h) .ReadModifyWrite).bind _
  | AccumInstr op mode => exact readsAtPc_read _
  | ImpliedInstr op mode => exact readsAtPc_read _
  | BranchInstr cond mode => exact readsAtPc_fetch.bind _
  | UnstableStoreInstr op mode => exact (readsAtPc_resolve .Write mode).bind _
  | SpecialInstr op mode => exact readsAtPc_special V op

end policies

end Machine

end Mos6502
