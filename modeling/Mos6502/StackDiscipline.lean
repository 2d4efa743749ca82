import Mos6502.Effects.Brackets
import Mos6502.Latches
import Mos6502.Stack

/-!
# The stack discipline

Pushes and pulls come in four pairs, and a run whose pairs are well bracketed treats the
stack as a stack: the pointer returns to where it was, and each pull gets back what the
matching push saved. Only the bytes pushed and not yet pulled have to be left alone.
-/

namespace Mos6502

open Effects

/-! ### The four pairs -/

/-- The pairs of a push and the pull that undoes it: PHA and PLA, PHP and PLP, JSR and
RTS, and an interrupt entry and RTI. -/
inductive StackPair
  | accumulator
  | status
  | call
  | interrupt
  deriving DecidableEq, Repr

namespace StackPair

/-- The number of bytes that a pair moves. -/
def size : StackPair → ℕ
  | .accumulator | .status => 1
  | .call => 2
  | .interrupt => 3

/-- Where an interrupt service returns to. A BRK skips its padding byte. -/
def resumption (isBreak : Bool) (r : Registers) : U16 := if isBreak then r.pc + 2 else r.pc

/-- The bytes that the push of a pair saves, in the order of the pulls. -/
def saved (pair : StackPair) (isBreak : Bool) (r : Registers) : List U8 :=
  match pair with
  | .accumulator => [r.a]
  | .status => [r.pack true]
  | .call => [offset (r.pc + 2), page (r.pc + 2)]
  | .interrupt =>
    [r.pack isBreak, offset (resumption isBreak r), page (resumption isBreak r)]

/-- What the pull of a pair gives back: `r` are the registers before the push, and `r'`
those after the pull. -/
def Restores (pair : StackPair) (isBreak : Bool) (r r' : Registers) : Prop :=
  match pair with
  | .accumulator => r'.a = r.a
  | .status => r'.flags = r.flags
  | .call => r'.pc = r.pc + 3
  | .interrupt => r'.flags = r.flags ∧ r'.pc = resumption isBreak r

theorem length_saved (pair : StackPair) (isBreak : Bool) (r : Registers) :
    (pair.saved isBreak r).length = pair.size := by
  cases pair <;> rfl

end StackPair

namespace Instr

def bracket : Instr → Bracket StackPair
  | .ImpliedInstr .PHA _ => .opening .accumulator
  | .ImpliedInstr .PLA _ => .closing .accumulator
  | .ImpliedInstr .PHP _ => .opening .status
  | .ImpliedInstr .PLP _ => .closing .status
  | .SpecialInstr .JSR _ => .opening .call
  | .SpecialInstr .RTS _ => .closing .call
  | .SpecialInstr .BRK _ => .opening .interrupt
  | .SpecialInstr .RTI _ => .closing .interrupt
  | _ => .neutral

variable {i : Instr} {pair : StackPair}

theorem of_opening (h : i.bracket = .opening pair) (a : Arch) :
    i.pushed (a.advance 1) = pair.saved i.isBreak a.regs ∧ i.pulls = 0 ∧
      i.loadsStackPointer = false := by
  have hpc : a.regs.pc + 1 + 1 = a.regs.pc + 2 := BitVec.add_assoc ..
  cases i with
  | ImpliedInstr op mode => cases op <;> cases h <;> exact ⟨rfl, rfl, rfl⟩
  | SpecialInstr op mode =>
    cases op with
    | JSR =>
      cases h
      refine ⟨?_, rfl, rfl⟩
      change [offset (a.regs.pc + 1 + 1), page (a.regs.pc + 1 + 1)] = _
      rw [hpc]
      rfl
    | BRK =>
      cases h
      refine ⟨?_, rfl, rfl⟩
      change [a.regs.pack true, offset (a.regs.pc + 1 + 1), page (a.regs.pc + 1 + 1)] = _
      rw [hpc]
      rfl
    | _ => cases h
  | _ => cases h

theorem of_closing (h : i.bracket = .closing pair) (a : Arch) :
    i.pushed a = [] ∧ i.pulls = pair.size ∧ i.loadsStackPointer = false := by
  cases i with
  | ImpliedInstr op mode | SpecialInstr op mode =>
    cases op <;> cases h <;> exact ⟨rfl, rfl, rfl⟩
  | _ => cases h

theorem of_neutral (h : i.bracket = .neutral) (a : Arch) : i.pushed a = [] ∧ i.pulls = 0 := by
  cases i with
  | ImpliedInstr op mode | SpecialInstr op mode =>
    cases op <;> first | exact ⟨rfl, rfl⟩ | cases h
  | _ => exact ⟨rfl, rfl⟩

/-- A pull that finds the bytes of its push on top of the stack gives back what its pair
promises. -/
theorem restores (V : Variant) (h : i.bracket = .closing pair) {a : Arch} {isBreak : Bool}
    {r : Registers} (hbytes : stackBytes a.mem a.regs.s pair.size = pair.saved isBreak r) :
    pair.Restores isBreak r (i.effect V a).regs := by
  rw [stackBytes_eq_map] at hbytes
  cases i with
  | ImpliedInstr op mode =>
    cases op with
    | PLA =>
      cases h
      exact (List.cons.inj hbytes).1
    | PLP =>
      cases h
      have hp : a.mem (a.pulled 1) = r.pack true := (List.cons.inj hbytes).1
      change ((a.drop 1).regs.unpack (a.mem (a.pulled 1))).flags = r.flags
      rw [hp, Registers.unpack_pack, Registers.flags_withFlags]
    | _ => cases h
  | SpecialInstr op mode =>
    cases op with
    | RTS =>
      cases h
      obtain ⟨hlo, hbytes⟩ := List.cons.inj hbytes
      have hhi : a.mem (a.pulled 2) = page (r.pc + 2) := (List.cons.inj hbytes).1
      change word (a.mem (a.pulled 1)) (a.mem (a.pulled 2)) + 1 = r.pc + 3
      rw [hhi, show a.mem (a.pulled 1) = offset (r.pc + 2) from hlo, word_offset_page]
      exact BitVec.add_assoc ..
    | RTI =>
      cases h
      obtain ⟨hp, hbytes⟩ := List.cons.inj hbytes
      obtain ⟨hlo, hbytes⟩ := List.cons.inj hbytes
      have hhi : a.mem (a.pulled 3) = page (StackPair.resumption isBreak r) :=
        (List.cons.inj hbytes).1
      constructor
      · change ((a.drop 3).regs.unpack (a.mem (a.pulled 1))).flags = r.flags
        rw [show a.mem (a.pulled 1) = r.pack isBreak from hp, Registers.unpack_pack,
          Registers.flags_withFlags]
      · change word (a.mem (a.pulled 2)) (a.mem (a.pulled 3)) = _
        rw [hhi, show a.mem (a.pulled 2) = offset (StackPair.resumption isBreak r) from hlo,
          word_offset_page]
    | _ => cases h
  | _ => cases h

end Instr

namespace StepKind

def bracket : StepKind → Bracket StackPair
  | .jammed => .neutral
  | .nmi | .irq => .opening .interrupt
  | .instruction op => (instr op).bracket

variable {kind : StepKind} {pair : StackPair}

theorem of_opening (h : kind.bracket = .opening pair) (a : Arch) :
    kind.pushed a = pair.saved (kind.executes Instr.isBreak) a.regs ∧ kind.pulls = 0 ∧
      kind.loadsStackPointer = false := by
  cases kind with
  | jammed => cases h
  | nmi | irq =>
    cases h
    exact ⟨rfl, rfl, rfl⟩
  | instruction op => exact Instr.of_opening h a

theorem of_closing (h : kind.bracket = .closing pair) (a : Arch) :
    kind.pushed a = [] ∧ kind.pulls = pair.size ∧ kind.loadsStackPointer = false := by
  cases kind with
  | jammed | nmi | irq => cases h
  | instruction op => exact Instr.of_closing h (a.advance 1)

theorem of_neutral (h : kind.bracket = .neutral) (a : Arch) :
    kind.pushed a = [] ∧ kind.pulls = 0 := by
  cases kind with
  | jammed => exact ⟨rfl, rfl⟩
  | nmi | irq => cases h
  | instruction op => exact Instr.of_neutral h (a.advance 1)

/-- The steps that neither push nor pull are the neutral letters. -/
theorem neutral_of {a : Arch} (hpushed : kind.pushed a = []) (hpulls : kind.pulls = 0) :
    kind.bracket = .neutral := by
  cases h : kind.bracket with
  | neutral => rfl
  | opening pair =>
    rw [(of_opening h a).1] at hpushed
    cases pair <;> cases hpushed
  | closing pair =>
    rw [(of_closing h a).2.1] at hpulls
    cases pair <;> cases hpulls

theorem restores (V : Variant) (h : kind.bracket = .closing pair) {a : Arch} {isBreak : Bool}
    {r : Registers} (hbytes : stackBytes a.mem a.regs.s pair.size = pair.saved isBreak r) :
    pair.Restores isBreak r (kind.effect V a).regs := by
  cases kind with
  | jammed | nmi | irq => cases h
  | instruction op => exact Instr.restores V h hbytes

end StepKind

/-! ### Runs -/

namespace Machine

variable {β : Type} [PlainMemory β]

section word

variable (V : Variant) (host : ℕ → List PinCall) (m : Machine β NullHooks)

/-- The steps of a run as pushes and pulls of the four pairs. -/
def stackWord (k : ℕ) : Bracket StackPair := (m.pinnedSteps V host k).stepKind.bracket

/-- The bytes that step `t` pushes, in the order in which they would be pulled. -/
def pushedAt (t : ℕ) : List U8 :=
  (m.pinnedSteps V host t).stepKind.pushed (m.pinnedSteps V host t).arch

/-- The bytes pushed and not yet pulled before step `k`, from the top of the stack. -/
def unpulled (k : ℕ) : List U8 :=
  ((Bracket.opened (m.stackWord V host) k).getD []).flatMap (m.pushedAt V host)

/-- A run segment whose pushes and pulls are well bracketed, which never has more than
the 256 bytes of page one on the stack, and whose other steps neither load the stack
pointer nor store into a byte pushed and not yet pulled. -/
structure Disciplined (n : ℕ) : Prop where
  bracketed : Bracket.WellBracketed (m.stackWord V host) n
  room : ∀ k ≤ n, (m.unpulled V host k).length ≤ 256
  loads : ∀ k < n, m.stackWord V host k = .neutral →
    (m.pinnedSteps V host k).stepKind.loadsStackPointer = false
  stores : ∀ k < n, m.stackWord V host k = .neutral → ∀ addr value,
    .write addr value ∈ (m.pinnedBefore V host k).stepAccesses V →
      ¬ StackLive (m.pinnedSteps V host k).cpu.regs.s (m.unpulled V host k).length addr

end word

variable {V : Variant} {host : ℕ → List PinCall} {m : Machine β NullHooks} {n : ℕ}

theorem length_pushedAt {t : ℕ} {pair : StackPair}
    (h : m.stackWord V host t = .opening pair) : (m.pushedAt V host t).length = pair.size := by
  have hsaved : m.pushedAt V host t = _ :=
    (StepKind.of_opening h (m.pinnedSteps V host t).arch).1
  rw [hsaved, StackPair.length_saved]

/-- The given bytes are right above the stack pointer, and nothing but them was pushed
since the start of the run. -/
structure OnStack (V : Variant) (host : ℕ → List PinCall) (m : Machine β NullHooks) (k : ℕ)
    (bytes : List U8) : Prop where
  pointer : (m.pinnedSteps V host k).cpu.regs.s = m.cpu.regs.s - BitVec.ofNat 8 bytes.length
  bytes : stackBytes (m.pinnedSteps V host k).arch.mem (m.pinnedSteps V host k).cpu.regs.s
    bytes.length = bytes

/-- **One step.** The bytes that a step pulls leave the stack and those it pushes enter it. -/
theorem OnStack.step {k : ℕ} {bytes : List U8} (h : OnStack V host m k bytes)
    (hloads : (m.pinnedSteps V host k).stepKind.loadsStackPointer = false)
    (hpulls : (m.pinnedSteps V host k).stepKind.pulls ≤ bytes.length)
    (hroom : (m.pushedAt V host k).length + bytes.length ≤ 256)
    (hstores : m.stackWord V host k = .neutral → ∀ addr value,
      .write addr value ∈ (m.pinnedBefore V host k).stepAccesses V →
        ¬ StackLive (m.pinnedSteps V host k).cpu.regs.s bytes.length addr) :
    OnStack V host m (k + 1)
      (m.pushedAt V host k ++ bytes.drop (m.pinnedSteps V host k).stepKind.pulls) := by
  set kind := (m.pinnedSteps V host k).stepKind with hkind
  have harch : (m.pinnedSteps V host (k + 1)).arch =
      kind.effect V (m.pinnedSteps V host k).arch := pinnedSteps_succ_arch
  have hregs : (m.pinnedSteps V host (k + 1)).cpu.regs =
      (kind.effect V (m.pinnedSteps V host k).arch).regs := pinnedSteps_succ_regs
  have hlength : (m.pushedAt V host k ++ bytes.drop kind.pulls).length =
      (m.pushedAt V host k).length + (bytes.length - kind.pulls) := by simp
  constructor
  · have hs : (m.pinnedSteps V host (k + 1)).cpu.regs.s =
        (m.pinnedSteps V host k).cpu.regs.s - BitVec.ofNat 8 (m.pushedAt V host k).length +
          BitVec.ofNat 8 kind.pulls := by
      rw [hregs]
      exact kind.effect_s V _ hloads
    obtain ⟨rest, hrest⟩ := Nat.exists_eq_add_of_le hpulls
    rw [hs, hlength, h.pointer, hrest, Nat.add_sub_cancel_left, BitVec.ofNat_add, BitVec.ofNat_add]
    grind
  · have hstack := kind.stackBytes_effect V (m.pinnedSteps V host k).arch hloads hpulls hroom
      fun hpushed hzero addr hlive => kind.effect_frame V _ fun value hmem => ?_
    · rw [harch, hregs, hlength]
      refine hstack.trans ?_
      conv_rhs => rw [← h.bytes]
      rfl
    · -- A step that neither pushes nor pulls is a neutral letter of the word.
      refine hstores (StepKind.neutral_of hpushed hzero) addr value ?_ hlive
      rw [stepAccesses_eq, pinnedBefore_stepKind, pinnedBefore, pinCalls_arch]
      exact hmem

/-- **Stack invariant.** All along a disciplined run the stack holds the open brackets. -/
theorem Disciplined.onStack (h : m.Disciplined V host n) {k : ℕ} (hk : k ≤ n) {ts : List ℕ}
    (hts : Bracket.opened (m.stackWord V host) k = some ts) :
    OnStack V host m k (ts.flatMap (m.pushedAt V host)) := by
  have hunpulled {k : ℕ} {ts : List ℕ} (hts : Bracket.opened (m.stackWord V host) k = some ts) :
      m.unpulled V host k = ts.flatMap (m.pushedAt V host) := by
    rw [unpulled, hts, Option.getD_some]
  refine Bracket.opened_invariant
    (P := fun k ts => OnStack V host m k (ts.flatMap (m.pushedAt V host))) ?_ ?_ ?_ ?_ hk hts
  · exact ⟨by simp, rfl⟩
  · intro k ts hk hletter hts hon
    obtain ⟨hpushed, hpulls⟩ := StepKind.of_neutral hletter (m.pinnedSteps V host k).arch
    have hpushedAt : m.pushedAt V host k = [] := hpushed
    have hroom := h.room k hk.le
    rw [hunpulled hts] at hroom
    have hnext := hon.step (h.loads k hk hletter) (by omega) (by simpa [hpushedAt] using hroom)
      fun _ => hunpulled hts ▸ h.stores k hk hletter
    simpa [hpushedAt, hpulls] using hnext
  · intro k ts pair hk hletter hts hon
    obtain ⟨_, hpulls, hloads⟩ := StepKind.of_opening hletter (m.pinnedSteps V host k).arch
    have hroom := h.room (k + 1) hk
    rw [hunpulled (Bracket.opened_of_opening hletter hts), List.flatMap_cons,
      List.length_append] at hroom
    have hnext := hon.step hloads (by omega) hroom fun hneutral => by simp [hletter] at hneutral
    simpa [hpulls] using hnext
  · intro k t ts pair hk hletter hopen hts hon
    obtain ⟨hpushed, hpulls, hloads⟩ := StepKind.of_closing hletter (m.pinnedSteps V host k).arch
    have hpushedAt : m.pushedAt V host k = [] := hpushed
    have hlength : (m.pushedAt V host t).length = pair.size := length_pushedAt hopen
    rw [List.flatMap_cons] at hon
    have hroom := h.room k hk.le
    rw [hunpulled hts, List.flatMap_cons] at hroom
    have hnext := hon.step hloads (by simp [hpulls, hlength]) (by simpa [hpushedAt] using hroom)
      fun hneutral => by simp [hletter] at hneutral
    rwa [hpushedAt, List.nil_append, hpulls, ← hlength, List.drop_left] at hnext

/-- **Stack discipline.** At the end of a disciplined run segment the stack pointer is
what it was at its start, and each pull has a matching push and restores what its pair
promises: PLA the accumulator, PLP and RTI all six flags, and RTS and RTI the place to
go on from. -/
theorem stack_discipline (V : Variant) (host : ℕ → List PinCall) (m : Machine β NullHooks) (n : ℕ)
    (h : m.Disciplined V host n) :
    (m.pinnedSteps V host n).cpu.regs.s = m.cpu.regs.s ∧
      ∀ k < n, ∀ pair, m.stackWord V host k = .closing pair →
        ∃ t < k, Bracket.Matches (m.stackWord V host) t k ∧
          pair.Restores ((m.pinnedSteps V host t).stepKind.executes Instr.isBreak)
            (m.pinnedSteps V host t).cpu.regs (m.pinnedSteps V host (k + 1)).cpu.regs := by
  constructor
  · have hend := (h.onStack le_rfl h.bracketed).pointer
    simpa using hend
  · intro k hk pair hletter
    obtain ⟨t, ht, pair', ts, hts, hopen, hclose⟩ := h.bracketed.exists_matches hk hletter
    obtain rfl : pair' = pair := Bracket.closing.inj (hclose.symm.trans hletter)
    refine ⟨t, ht, ⟨pair', ts, hts, hopen, hletter⟩, ?_⟩
    have hstack := (h.onStack hk.le hts).bytes
    have hlength : (m.pushedAt V host t).length = pair'.size := length_pushedAt hopen
    rw [List.flatMap_cons, List.length_append, stackBytes_add] at hstack
    have htop := (List.append_inj hstack (by simp)).1
    rw [hlength] at htop
    rw [pinnedSteps_succ_regs]
    refine StepKind.restores V hletter (htop.trans ?_)
    exact (StepKind.of_opening hopen (m.pinnedSteps V host t).arch).1

/-- A BRK whose handler runs PHP, PLP and RTI, on a stack that wraps around. -/
theorem stack_discipline_brk :
    let code : List (U16 × U8) :=
      [(0x0400, 0x00), (0x0410, 0x08), (0x0411, 0x28), (0x0412, 0x40), (0xFFFE, 0x10),
        (0xFFFF, 0x04)]
    let m : Machine FlatBus NullHooks :=
      fresh { s := 0x01, pc := 0x0400, c := true } { memory := fun a => (code.lookup a).getD 0xEA }
    (m.pinnedSteps Nmos6502 (fun _ => []) 4).cpu.regs.s = 0x01 ∧
      ∃ t < 3, Bracket.Matches (m.stackWord Nmos6502 fun _ => []) t 3 ∧
        StackPair.interrupt.Restores
          ((m.pinnedSteps Nmos6502 (fun _ => []) t).stepKind.executes Instr.isBreak)
          (m.pinnedSteps Nmos6502 (fun _ => []) t).cpu.regs
          (m.pinnedSteps Nmos6502 (fun _ => []) 4).cpu.regs := by
  intro code m
  have hletters : ∀ k < 4, m.stackWord Nmos6502 (fun _ => []) k ≠ .neutral := by decide +kernel
  have hdisciplined : m.Disciplined Nmos6502 (fun _ => []) 4 :=
    { bracketed := by decide +kernel
      room := fun k hk => by
        have hall : ∀ k < 5, (m.unpulled Nmos6502 (fun _ => []) k).length ≤ 256 := by
          decide +kernel
        exact hall k (by omega)
      loads := fun k hk hneutral => absurd hneutral (hletters k hk)
      stores := fun k hk hneutral => absurd hneutral (hletters k hk) }
  have h := stack_discipline Nmos6502 (fun _ => []) m 4 hdisciplined
  exact ⟨h.1, h.2 3 (by decide) .interrupt (by decide +kernel)⟩

end Machine

end Mos6502
