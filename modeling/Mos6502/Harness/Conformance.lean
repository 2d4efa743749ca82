import Mos6502.Harness.MemoryVerdict
import Mos6502.Harness.RoundTrip
import Mos6502.ProgramRuns

/-!
# What the suite checks

A case passes exactly when the programmer's model, started from the registers and the memory
that the case gives, agrees with it: on the registers and the six flags, on the listed memory,
and on every cycle. So the counts for a file are those of the cases that the model satisfies.
-/

namespace Mos6502.Harness

open Effects Json Parsing

instance : SilentBus TestBus where
  read_calls _ _ := rfl
  write_calls _ _ _ := rfl
  tick_calls _ := rfl

/-- The register file that a state of a case stands for. -/
def State.registers (state : State) : Registers :=
  ({ pc := state.pc, a := state.a, x := state.x, y := state.y, s := state.s } : Registers).unpack
    state.p

/-- The state that a case starts from. -/
def TestCase.start (test : TestCase) : Arch where
  regs := test.initial.registers
  mem := storeAll (fun _ => 0) test.initial.ram

/-- The cycles of the model's instruction, its opcode fetch included. -/
def TestCase.modelCycles (V : Variant) (test : TestCase) : List BusAccess :=
  test.start.rd test.start.regs.pc :: test.start.next.accesses V (test.start.advance 1)

/-- The case says what the instruction at its program counter does. -/
structure TestCase.Describes (V : Variant) (test : TestCase) : Prop where
  registers : (test.start.step V).regs = test.final.registers
  memory : ∀ entry ∈ test.final.ram, (test.start.step V).mem entry.1 = entry.2
  cycles : test.cycles.map CycleRecord.access = test.modelCycles V

/-! ### The comparisons -/

/-- The mask keeps what the flags are unpacked from. -/
theorem unpack_mask (r : Registers) (p : U8) : r.unpack (p &&& kStatusMask) = r.unpack p := by
  simp [Registers.unpack, kStatusMask, BitVec.and_assoc]

theorem pack_unpack (r : Registers) (p : U8) :
    (r.unpack p).pack true &&& kStatusMask = p &&& kStatusMask := by
  have hall : ∀ p : U8,
      (({} : Registers).unpack p).pack true &&& kStatusMask = p &&& kStatusMask := by
    decide +kernel
  exact hall p

/-- The bits that are compared are the six flags. -/
theorem pack_eq_iff (r : Registers) (p : U8) :
    r.pack true &&& kStatusMask = p &&& kStatusMask ↔ r = r.unpack p := by
  constructor
  · intro h
    calc r
      _ = r.unpack (r.pack true) := by rw [Registers.unpack_pack]; rfl
      _ = r.unpack (r.pack true &&& kStatusMask) := (unpack_mask r _).symm
      _ = r.unpack p := by rw [h, unpack_mask]
  · intro h
    rw [h]
    exact pack_unpack r p

theorem registersMatch_iff (r : Registers) (final : State) :
    registersMatch r final = true ↔ r = final.registers := by
  simp only [registersMatch, Bool.and_eq_true, beq_iff_eq, pack_eq_iff, State.registers]
  constructor
  · rintro ⟨⟨⟨⟨⟨hpc, ha⟩, hx⟩, hy⟩, hs⟩, hflags⟩
    rw [hflags]
    simp only [Registers.unpack, hpc, ha, hx, hy, hs]
  · rintro rfl
    exact ⟨⟨⟨⟨⟨rfl, rfl⟩, rfl⟩, rfl⟩, rfl⟩, rfl⟩

/-! ### The verdict -/

theorem caseMachine_arch (bus : TestBus) (test : TestCase) :
    (caseMachine bus test).arch = test.start :=
  Arch.ext rfl (caseMachine_bus bus test).1

theorem caseMachine_calm (bus : TestBus) (test : TestCase) : (caseMachine bus test).Calm :=
  ⟨rfl, rfl, rfl, rfl⟩

/-- The state after the step of a case is that of the programmer's model. -/
theorem stepMachine_caseMachine (V : Variant) (bus : TestBus) (test : TestCase) :
    ((caseMachine bus test).stepMachine V).arch = test.start.step V := by
  rw [(caseMachine_calm bus test).stepMachine_arch, caseMachine_arch]

/-- The log after the step of a case. -/
theorem stepMachine_log (V : Variant) (bus : TestBus) (test : TestCase) :
    ((caseMachine bus test).stepMachine V).bus.log =
      (test.modelCycles V).map CycleRecord.ofAccess := by
  have haccesses := (caseMachine_calm bus test).stepAccesses (V := V)
  rw [caseMachine_arch] at haccesses
  rw [(step_follows V _).log, (caseMachine_bus bus test).2, List.nil_append, haccesses]
  rfl

theorem log_eq_iff {accesses : List BusAccess} {cycles : List CycleRecord} :
    accesses.map CycleRecord.ofAccess = cycles ↔ cycles.map CycleRecord.access = accesses := by
  have hofAccess (record : CycleRecord) : CycleRecord.ofAccess record.access = record := by
    obtain ⟨addr, value, isWrite⟩ := record
    cases isWrite <;> rfl
  constructor
  · rintro rfl
    exact CycleRecord.map_access_ofAccess accesses
  · rintro rfl
    rw [List.map_map]
    exact List.map_id'' hofAccess cycles

/-- **What a verdict says**, whatever the bus held before the case. -/
theorem casePasses_iff (V : Variant) (bus : TestBus) (test : TestCase) :
    casePasses ((caseMachine bus test).step V).2 test = true ↔ test.Describes V := by
  have harch := stepMachine_caseMachine V bus test
  have hregs : ((caseMachine bus test).stepMachine V).cpu.regs = (test.start.step V).regs :=
    congrArg Arch.regs harch
  have hmemory : ((caseMachine bus test).stepMachine V).bus.memory = (test.start.step V).mem :=
    congrArg Arch.mem harch
  have hram : ramMatches ((caseMachine bus test).stepMachine V).bus test.final.ram = true ↔
      ∀ entry ∈ test.final.ram, (test.start.step V).mem entry.1 = entry.2 := by
    simp only [ramMatches, List.all_eq_true, beq_iff_eq, hmemory]
  have hlog : logMatches ((caseMachine bus test).stepMachine V).bus.log test.cycles = true ↔
      test.cycles.map CycleRecord.access = test.modelCycles V := by
    rw [logMatches_iff, stepMachine_log, log_eq_iff]
  change casePasses ((caseMachine bus test).stepMachine V) test = true ↔ _
  rw [casePasses, Bool.and_eq_true, Bool.and_eq_true, registersMatch_iff, hram, hlog, hregs]
  constructor
  · rintro ⟨⟨hregisters, hmem⟩, hcycles⟩
    exact ⟨hregisters, hmem, hcycles⟩
  · exact fun h => ⟨⟨h.registers, h.memory⟩, h.cycles⟩

theorem verdict_iff (V : Variant) (test : TestCase) :
    verdict V test = true ↔ test.Describes V := casePasses_iff V {} test

instance (V : Variant) (test : TestCase) : Decidable (test.Describes V) :=
  decidable_of_iff _ (verdict_iff V test)

/-- The counts for a list of cases. -/
def countCases (V : Variant) (tests : List TestCase) : FileResult where
  passed := Int32.ofNat (tests.countP fun test => test.Describes V)
  failed := Int32.ofNat (tests.countP fun test => ¬test.Describes V)

theorem countCases_eq (V : Variant) (tests : List TestCase) :
    countCases V tests = {
      passed := Int32.ofNat (tests.countP (verdict V))
      failed := Int32.ofNat (tests.countP fun test => !verdict V test) } := by
  have hverdict : verdict V = fun test => decide (test.Describes V) := by
    funext test
    rw [Bool.eq_iff_iff, verdict_iff, decide_eq_true_iff]
  simp only [countCases, hverdict, decide_not]

/-- The counters hold the counts of fewer than 2^31 cases. -/
theorem countCases_toInt (V : Variant) {tests : List TestCase} (hfew : tests.length < 2 ^ 31) :
    (countCases V tests).passed.toInt = tests.countP (fun test => test.Describes V) ∧
      (countCases V tests).failed.toInt = tests.countP fun test => ¬test.Describes V :=
  ⟨toInt_countP hfew _, toInt_countP hfew _⟩

/-! ### A text of each case -/

def listingText (opening closing : Char) (texts : List (List Char)) : List Char :=
  [opening] ++ ((texts.intersperse [',']).flatten ++ [closing])

def quotedText (s : List Char) : List Char := '"' :: (s ++ ['"'])

def entryText (key : String) (text : List Char) : List Char :=
  quotedText key.toList ++ ([':'] ++ text)

def StateMember.compact : StateMember → List Char
  | .pc value => entryText "pc" (Nat.toDigits 10 value.toNat)
  | .s value => entryText "s" (Nat.toDigits 10 value.toNat)
  | .a value => entryText "a" (Nat.toDigits 10 value.toNat)
  | .x value => entryText "x" (Nat.toDigits 10 value.toNat)
  | .y value => entryText "y" (Nat.toDigits 10 value.toNat)
  | .p value => entryText "p" (Nat.toDigits 10 value.toNat)
  | .ram entries => entryText "ram" (listingText '[' ']' (entries.map fun e =>
      listingText '[' ']' [Nat.toDigits 10 e.1.toNat, Nat.toDigits 10 e.2.toNat]))

def State.compact (state : State) : List Char :=
  listingText '{' '}' (state.members.map StateMember.compact)

def CycleRecord.compact (record : CycleRecord) : List Char :=
  listingText '[' ']'
    [Nat.toDigits 10 record.addr.toNat, Nat.toDigits 10 record.value.toNat, quotedText record.kind]

/-- A case without white space, with its members in the order of the suite. -/
def TestCase.compact (test : TestCase) : List Char :=
  listingText '{' '}' [entryText "name" (quotedText test.name),
    entryText "initial" test.initial.compact, entryText "final" test.final.compact,
    entryText "cycles" (listingText '[' ']' (test.cycles.map CycleRecord.compact))]

def compactDocument (tests : List TestCase) : List Char :=
  listingText '[' ']' (tests.map TestCase.compact)

theorem mem_listing_map (opening closing : Char) {α : Type} {xs : List α} {text : α → List Char}
    {item : α → Language Char} (h : ∀ x ∈ xs, text x ∈ item x) :
    listingText opening closing (xs.map text) ∈ listing opening closing (xs.map item) :=
  mem_listing opening closing (List.forall₂_map_left_iff.mpr
    (List.forall₂_map_right_iff.mpr (List.forall₂_same.mpr h)))

theorem StateMember.compact_mem (m : StateMember) : m.compact ∈ m.text := by
  cases m with
  | ram entries =>
    refine mem_entry "ram" (mem_listing_map '[' ']' fun e _ => ?_)
    exact mem_listing '[' ']' (.cons (mem_numeral _) (.cons (mem_numeral _) .nil))
  | _ => exact mem_entry _ (mem_numeral _)

theorem State.compact_mem (state : State) : state.compact ∈ stateText state.members :=
  mem_listing_map '{' '}' fun m _ => m.compact_mem

theorem CycleRecord.compact_mem (record : CycleRecord) : record.compact ∈ cycleText record :=
  mem_listing '[' ']' (.cons (mem_numeral _) (.cons (mem_numeral _) (.cons (mem_quoted _) .nil)))

/-- Every list of cases has a text. -/
theorem compactDocument_mem (tests : List TestCase) : compactDocument tests ∈ renderings tests := by
  let members (test : TestCase) : List CaseMember :=
    [.name test.name, .initial test.initial.members, .final test.final.members,
      .cycles test.cycles]
  refine ⟨tests.map members, List.forall₂_map_right_iff.mpr (List.forall₂_same.mpr ?_), ?_⟩
  · exact fun test _ => ⟨_, _, .refl _, .refl _, .refl _⟩
  · rw [documentText, List.map_map]
    refine mem_listing_map '[' ']' fun test _ => mem_listing '{' '}' ?_
    have hfinal : _ ∈ (CaseMember.final test.final.members).text :=
      Or.inl (mem_entry "final" test.final.compact_mem)
    have hcycles := mem_entry "cycles"
      (mem_listing_map '[' ']' fun record (_ : record ∈ test.cycles) => record.compact_mem)
    exact .cons (mem_entry "name" (mem_quoted test.name))
      (.cons (mem_entry "initial" test.initial.compact_mem) (.cons hfinal (.cons hcycles .nil)))

/-- **Conformance.** Whatever text a list of fewer than 2^31 cases is written as, the runner
counts as passed the cases that describe the programmer's model, and as failed those that do
not. -/
theorem runFile_counts (V : Variant) (tests : List TestCase)
    (hnames : ∀ test ∈ tests, '"' ∉ test.name) (hfew : tests.length < 2 ^ 31) {text : List Char}
    (htext : text ∈ renderings tests) (tail : List Char) :
    ∃ result, runFile V (text ++ tail) = .ok result ∧
      result.passed.toInt = tests.countP (fun test => test.Describes V) ∧
      result.failed.toInt = tests.countP fun test => ¬test.Describes V := by
  refine ⟨countCases V tests, ?_, countCases_toInt V hfew⟩
  rw [runFile_of_mem_renderings V hnames htext tail, countCases_eq]

/-- An `INC $10`, with and without its dummy write. -/
theorem runFile_counts_inc :
    let test : TestCase := {
      name := "inc".toList
      initial := { pc := 512, ram := [(512, 0xE6), (513, 0x10), (16, 0x7F)] }
      final := { pc := 514, p := 0x80, ram := [(16, 0x80)] }
      cycles := [⟨512, 0xE6, false⟩, ⟨513, 0x10, false⟩, ⟨16, 0x7F, false⟩, ⟨16, 0x7F, true⟩,
        ⟨16, 0x80, true⟩] }
    let short : TestCase := { test with
      cycles := [⟨512, 0xE6, false⟩, ⟨513, 0x10, false⟩, ⟨16, 0x7F, false⟩, ⟨16, 0x80, true⟩] }
    ∃ result, runFile Nmos6502 (compactDocument [test, short] ++ ['\n']) = .ok result ∧
      result.passed.toInt = 1 ∧ result.failed.toInt = 1 := by
  intro test short
  obtain ⟨result, hrun, hpassed, hfailed⟩ := runFile_counts Nmos6502 [test, short] (by decide)
    (by decide) (compactDocument_mem _) ['\n']
  exact ⟨result, hrun, hpassed.trans (by decide +kernel), hfailed.trans (by decide +kernel)⟩

end Mos6502.Harness
