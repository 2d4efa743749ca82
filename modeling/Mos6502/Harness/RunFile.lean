import Mos6502.Cpu
import Mos6502.Harness.TestCase

/-!
# Running a file of test cases

Each case of a file is loaded into a cleared bus and a fresh processor, one step is made, and
the case passes if the registers, the listed memory and every bus cycle are as the case says.
The bus and the test case are objects that live as long as the file is read.
-/

namespace Mos6502.Harness

open Json Parsing

/-- Bits 4 and 5 of P are not processor state. -/
def kStatusMask : U8 := 0xCF

/-- Flat memory that keeps a log of its accesses. -/
structure TestBus where
  memory : Memory := fun _ => 0
  log : List CycleRecord := []

namespace TestBus

def clear (_ : TestBus) : TestBus := { memory := fun _ => 0, log := [] }

/-- Store a byte behind the back of the log. -/
def set (b : TestBus) (entry : U16 × U8) : TestBus :=
  { b with memory := Function.update b.memory entry.1 entry.2 }

end TestBus

instance : PlainMemory TestBus where
  read b addr :=
    { value := b.memory addr
      bus := { b with log := b.log ++ [⟨addr, b.memory addr, false⟩] } }
  write b addr value :=
    { value := ()
      bus := { memory := Function.update b.memory addr value
               log := b.log ++ [⟨addr, value, true⟩] } }
  tick b := { value := (), bus := b }
  memory := TestBus.memory
  value_read _ _ := rfl
  memory_read _ _ := rfl
  memory_write _ _ _ := rfl
  memory_tick _ := rfl

/-- Two counters of the type `int`. Past 2^31 - 1 cases the source is undefined, and the counters
of this model wrap around: what is proved about the counts is for fewer cases. -/
structure FileResult where
  passed : Int32 := 0
  failed : Int32 := 0
  deriving DecidableEq, Repr

/-- The objects that live while a file is read. -/
structure FileRun where
  bus : TestBus := {}
  test : TestCase := {}
  result : FileResult := {}

/-- The processor and the bus of a case, before its step. -/
def caseMachine (bus : TestBus) (test : TestCase) : Machine TestBus NullHooks :=
  let bus := test.initial.ram.foldl TestBus.set bus.clear
  let regs : Registers :=
    { pc := test.initial.pc, a := test.initial.a, x := test.initial.x, y := test.initial.y
      s := test.initial.s }
  { cpu := { regs := regs.unpack test.initial.p }
    bus := { bus with log := [] }
    hooks := {} }

def registersMatch (r : Registers) (final : State) : Bool :=
  r.pc == final.pc && r.a == final.a && r.x == final.x && r.y == final.y && r.s == final.s &&
    (r.pack true &&& kStatusMask) == (final.p &&& kStatusMask)

def ramMatches (bus : TestBus) (ram : List (U16 × U8)) : Bool :=
  ram.all fun (addr, value) => bus.memory addr == value

def logMatches (log cycles : List CycleRecord) : Bool :=
  log.length == cycles.length &&
    (log.zip cycles).all fun (got, want) =>
      got.addr == want.addr && got.value == want.value && got.isWrite == want.isWrite

/-- Whether a case passes, once its step is made. -/
def casePasses (m : Machine TestBus NullHooks) (test : TestCase) : Bool :=
  registersMatch m.cpu.regs test.final && ramMatches m.bus test.final.ram &&
    logMatches m.bus.log test.cycles

/-- What is done with each case once it is parsed. -/
def checkCase (V : Variant) (run : FileRun) : FileRun :=
  let m := ((caseMachine run.bus run.test).step V).2
  { run with
    bus := m.bus
    result :=
      if casePasses m run.test then { run.result with passed := run.result.passed + 1 }
      else { run.result with failed := run.result.failed + 1 } }

/-- Parse a case into the object that held the case before it. -/
def parseNext : StateT FileRun Cursor Unit :=
  parseInto FileRun.test (fun test run => { run with test }) parseCase

def runCases (V : Variant) : StateT FileRun Cursor Unit :=
  array do
    parseNext
    modify (checkCase V)

/-- The traversal of the text of a file. -/
def runFile (V : Variant) (text : List Char) : Except Stop FileResult :=
  match (runCases V).run {} text.length text with
  | .ok ((_, run), _) => .ok run.result
  | .error e => .error e

/-! ### What each case is -/

/-- The test cases that a traversal visits, each with the text that it is parsed from. -/
structure Visits where
  test : TestCase := {}
  seen : List (List Char × TestCase) := []

/-- The traversal of `runFile` with a record of the cases in place of their steps. -/
def visitCases : StateT Visits Cursor Unit :=
  array do
    let before ← (Scanner.remaining : Cursor (List Char))
    parseInto Visits.test (fun test visits => { visits with test }) parseCase
    let after ← (Scanner.remaining : Cursor (List Char))
    modify fun visits =>
      { visits with seen := visits.seen ++
          [(before.take (before.length - after.length), visits.test)] }

/-- The cases of a text. -/
def casesOf (text : List Char) : Except Stop (List (List Char × TestCase)) :=
  match visitCases.run {} text.length text with
  | .ok ((_, visits), _) => .ok visits.seen
  | .error e => .error e

/-- A case that is parsed from its text alone, into a fresh object. -/
def parseAlone (text : List Char) : Except Stop TestCase :=
  match parseCase.run {} text.length text with
  | .ok ((_, test), _) => .ok test
  | .error e => .error e

/-! ### Visiting is reading, then parsing -/

/-- The cases of a text, each as its text and its members. -/
def readDocument : Cursor (List (List Char × List CaseMember)) :=
  arrayOf (Scanner.withText readCase)

/-- Visit one case. -/
def Visits.next (visits : Visits) (entry : List Char × List CaseMember) : Visits :=
  let test := visits.test.update entry.2
  { test, seen := visits.seen ++ [(entry.1, test)] }

theorem visitCases_run (visits : Visits) :
    visitCases.run visits =
      readDocument >>= fun document => pure ((), document.foldl Visits.next visits) := by
  refine array_run Visits.next _ (fun visits => ?_) visits
  simp [parseInto_run parseCase_run, Scanner.withText, Visits.next]

/-- Check one case. -/
def FileRun.next (V : Variant) (run : FileRun) (members : List CaseMember) : FileRun :=
  checkCase V { run with test := run.test.update members }

theorem runCases_run (V : Variant) (run : FileRun) :
    (runCases V).run run =
      arrayOf readCase >>= fun cases => pure ((), cases.foldl (FileRun.next V) run) := by
  refine array_run (FileRun.next V) _ (fun run => ?_) run
  simp [parseNext, parseInto_run parseCase_run, FileRun.next]

theorem arrayOf_readCase : arrayOf readCase = List.map Prod.snd <$> readDocument :=
  calc arrayOf readCase
    _ = arrayOf (Prod.snd <$> Scanner.withText readCase) := by rw [Scanner.snd_withText]
    _ = List.map Prod.snd <$> readDocument := listOf_map _ _ _

/-- Whether a case passes. -/
def verdict (V : Variant) (test : TestCase) : Bool :=
  casePasses ((caseMachine {} test).step V).2 test

/-- Nothing but the test case goes from the cases before into the verdict. -/
theorem checkCase_eq (V : Variant) (run : FileRun) :
    (checkCase V run).test = run.test ∧ (checkCase V run).result =
      if verdict V run.test then { run.result with passed := run.result.passed + 1 }
      else { run.result with failed := run.result.failed + 1 } := ⟨rfl, rfl⟩

/-- Checking cases one after the other counts their verdicts. -/
theorem foldl_checkCase (V : Variant) (tests : List TestCase) (run : FileRun) :
    (tests.foldl (fun run test => checkCase V { run with test }) run).result = {
      passed := run.result.passed + Int32.ofNat (tests.countP (verdict V))
      failed := run.result.failed + Int32.ofNat (tests.countP fun test => !verdict V test) } := by
  induction tests generalizing run with
  | nil => simp
  | cons test tests ih =>
    rw [List.foldl_cons, ih, (checkCase_eq V _).2]
    cases hverdict : verdict V test <;>
      simp [hverdict, Int32.add_assoc, Int32.add_comm 1]

/-- From the start of a file on, the counters hold the counts. -/
theorem foldl_checkCase_start (V : Variant) (tests : List TestCase) :
    (tests.foldl (fun run test => checkCase V { run with test }) {}).result = {
      passed := Int32.ofNat (tests.countP (verdict V))
      failed := Int32.ofNat (tests.countP fun test => !verdict V test) } := by
  rw [foldl_checkCase, Int32.zero_add, Int32.zero_add]

/-- A counter of fewer than 2^31 cases does not overflow. -/
theorem toInt_countP {α : Type} {cases : List α} (hfew : cases.length < 2 ^ 31) (p : α → Bool) :
    (Int32.ofNat (cases.countP p)).toInt = cases.countP p :=
  Int32.toInt_ofNat_of_lt (List.countP_le_length.trans_lt hfew)

/-- The cases that are checked are those that are visited. -/
theorem foldl_next (V : Variant) (document : List (List Char × List CaseMember)) :
    let visits := document.foldl Visits.next {}
    let run := (visits.seen.map Prod.snd).foldl (fun run test => checkCase V { run with test }) {}
    (document.map Prod.snd).foldl (FileRun.next V) {} = run ∧ run.test = visits.test := by
  induction document using List.reverseRecOn with
  | nil => exact ⟨rfl, rfl⟩
  | append_singleton document entry ih =>
    obtain ⟨hrun, htest⟩ := ih
    simp only [List.map_append, List.foldl_append, List.map_cons, List.map_nil, List.foldl_cons,
      List.foldl_nil, FileRun.next, Visits.next]
    rw [hrun, htest]
    exact ⟨rfl, rfl⟩

/-- **The result of a file.** It counts the verdicts on the cases that are visited. -/
theorem runFile_eq (V : Variant) (text : List Char) :
    runFile V text =
      match casesOf text with
      | .ok cases => .ok {
          passed := Int32.ofNat (cases.countP fun c => verdict V c.2)
          failed := Int32.ofNat (cases.countP fun c => !verdict V c.2) }
      | .error e => .error e := by
  rw [runFile, casesOf, runCases_run, visitCases_run, arrayOf_readCase, bind_map_left,
    Scanner.bind_apply, Scanner.bind_apply]
  cases readDocument text.length text with
  | error e => rfl
  | ok document =>
    have hresult := congrArg FileRun.result (foldl_next V document.1).1
    rw [foldl_checkCase_start, List.countP_map, List.countP_map] at hresult
    exact congrArg Except.ok hresult

/-- **The traversal ends.** It gives a result, or it stops with an exception of the cursor. -/
theorem runFile_ne_exhausted (V : Variant) (text : List Char) :
    runFile V text ≠ .error .exhausted := by
  have hcases : Scanner.Avoids .exhausted ((runCases V).run {}) := by
    rw [runCases_run]
    exact (avoids_listOf local_readCase avoids_readCase).bind fun _ => .pure _ _
  intro h
  rw [runFile] at h
  split at h
  · cases h
  · rename_i e herror
    cases h
    exact hcases _ _ herror

end Mos6502.Harness
