import Mos6502.Harness.Json
import Mos6502.Types

/-!
# Test cases

A test case gives the state of the processor and of its memory before and after one step,
and every bus cycle of the step in order. The two parsers assign the members that they find
in a text to an object that may hold the values of an earlier text: only the lists are
cleared first.
-/

namespace Mos6502.Harness

open Json Parsing

structure CycleRecord where
  addr : U16
  value : U8
  isWrite : Bool
  deriving DecidableEq, Repr

structure State where
  pc : U16 := 0
  s : U8 := 0
  a : U8 := 0
  x : U8 := 0
  y : U8 := 0
  p : U8 := 0
  ram : List (U16 × U8) := []
  deriving DecidableEq, Repr

structure TestCase where
  name : List Char := []
  initial : State := {}
  final : State := {}
  cycles : List CycleRecord := []
  deriving DecidableEq, Repr

/-! ### Parsing -/

/-- Read a number and store it, truncated to eight bits. -/
def parseByte (store : U8 → State → State) : StateT State Cursor Unit := do
  let value ← number
  modify (store (BitVec.ofInt 8 value))

def parseState : StateT State Cursor Unit := do
  modify fun state => { state with ram := [] }
  object fun key =>
    if key = "pc".toList then do
      let value ← number
      modify fun state => { state with pc := BitVec.ofInt 16 value }
    else if key = "s".toList then parseByte fun s state => { state with s }
    else if key = "a".toList then parseByte fun a state => { state with a }
    else if key = "x".toList then parseByte fun x state => { state with x }
    else if key = "y".toList then parseByte fun y state => { state with y }
    else if key = "p".toList then parseByte fun p state => { state with p }
    else if key = "ram".toList then
      array do
        expect '['
        let addr ← number
        expect ','
        let value ← number
        expect ']'
        modify fun state =>
          { state with ram := state.ram ++ [(BitVec.ofInt 16 addr, BitVec.ofInt 8 value)] }
    else
      monadLift (fail "unexpected key in state object" : Cursor Unit)

/-- Parse into a part of the state. -/
def parseInto {σ τ : Type} (part : σ → τ) (store : τ → σ → σ) (parse : StateT τ Cursor Unit) :
    StateT σ Cursor Unit := do
  let s ← get
  let (_, t) ← parse.run (part s)
  set (store t s)

def parseCase : StateT TestCase Cursor Unit := do
  modify fun test => { test with cycles := [] }
  object fun key =>
    if key = "name".toList then do
      let name ← string
      modify fun test => { test with name }
    else if key = "initial".toList then
      parseInto TestCase.initial (fun initial test => { test with initial }) parseState
    else if key = "final".toList || key = "expected".toList then
      parseInto TestCase.final (fun final test => { test with final }) parseState
    else if key = "cycles".toList then
      array do
        expect '['
        let addr ← number
        expect ','
        let value ← number
        expect ','
        let kind ← string
        expect ']'
        modify fun test =>
          { test with cycles := test.cycles ++
              [⟨BitVec.ofInt 16 addr, BitVec.ofInt 8 value, kind = "write".toList⟩] }
    else
      monadLift (fail "unexpected key in test case" : Cursor Unit)

/-! ### The members of a text -/

inductive StateMember
  | pc (value : U16)
  | s (value : U8)
  | a (value : U8)
  | x (value : U8)
  | y (value : U8)
  | p (value : U8)
  | ram (entries : List (U16 × U8))
  deriving DecidableEq, Repr

inductive CaseMember
  | name (text : List Char)
  | initial (members : List StateMember)
  | final (members : List StateMember)
  | cycles (records : List CycleRecord)
  deriving DecidableEq, Repr

/-- The assignment that a member makes. -/
def StateMember.assign (state : State) : StateMember → State
  | .pc value => { state with pc := value }
  | .s value => { state with s := value }
  | .a value => { state with a := value }
  | .x value => { state with x := value }
  | .y value => { state with y := value }
  | .p value => { state with p := value }
  | .ram entries => { state with ram := state.ram ++ entries }

/-- The state once all members of a text are assigned. -/
def State.update (state : State) (members : List StateMember) : State :=
  members.foldl StateMember.assign { state with ram := [] }

def CaseMember.assign (test : TestCase) : CaseMember → TestCase
  | .name text => { test with name := text }
  | .initial members => { test with initial := test.initial.update members }
  | .final members => { test with final := test.final.update members }
  | .cycles records => { test with cycles := test.cycles ++ records }

def TestCase.update (test : TestCase) (members : List CaseMember) : TestCase :=
  members.foldl CaseMember.assign { test with cycles := [] }

def readWord : Cursor U16 := BitVec.ofInt 16 <$> number

def readByte : Cursor U8 := BitVec.ofInt 8 <$> number

def readRamEntry : Cursor (U16 × U8) := do
  expect '['
  let addr ← readWord
  expect ','
  let value ← readByte
  expect ']'
  pure (addr, value)

def readCycle : Cursor CycleRecord := do
  expect '['
  let addr ← readWord
  expect ','
  let value ← readByte
  expect ','
  let kind ← string
  expect ']'
  pure ⟨addr, value, kind = "write".toList⟩

def readStateMember (key : List Char) : Cursor StateMember :=
  if key = "pc".toList then StateMember.pc <$> readWord
  else if key = "s".toList then StateMember.s <$> readByte
  else if key = "a".toList then StateMember.a <$> readByte
  else if key = "x".toList then StateMember.x <$> readByte
  else if key = "y".toList then StateMember.y <$> readByte
  else if key = "p".toList then StateMember.p <$> readByte
  else if key = "ram".toList then StateMember.ram <$> arrayOf readRamEntry
  else fail "unexpected key in state object"

def readState : Cursor (List StateMember) := objectOf readStateMember

def readCaseMember (key : List Char) : Cursor CaseMember :=
  if key = "name".toList then CaseMember.name <$> string
  else if key = "initial".toList then CaseMember.initial <$> readState
  else if key = "final".toList || key = "expected".toList then CaseMember.final <$> readState
  else if key = "cycles".toList then CaseMember.cycles <$> arrayOf readCycle
  else fail "unexpected key in test case"

def readCase : Cursor (List CaseMember) := objectOf readCaseMember

/-! ### Parsing is reading, then assigning -/

theorem parseByte_run (store : U8 → State → State) (state : State) :
    (parseByte store).run state = readByte >>= fun value => pure ((), store value state) := by
  simp [parseByte, readByte]

private theorem foldl_ram (state : State) (entries : List (U16 × U8)) :
    entries.foldl (fun state entry => { state with ram := state.ram ++ [entry] }) state =
      { state with ram := state.ram ++ entries } := by
  induction entries generalizing state with
  | nil => simp
  | cons entry entries ih => simp [ih]

private theorem foldl_cycles (test : TestCase) (records : List CycleRecord) :
    records.foldl (fun test record => { test with cycles := test.cycles ++ [record] }) test =
      { test with cycles := test.cycles ++ records } := by
  induction records generalizing test with
  | nil => simp
  | cons record records ih => simp [ih]

theorem parseState_run (state : State) :
    parseState.run state = readState >>= fun members => pure ((), state.update members) := by
  rw [parseState, StateT.run_bind, StateT.run_modify, pure_bind]
  refine object_run StateMember.assign (fun key state => ?_) _
  unfold readStateMember
  split_ifs
  · simp [readWord, StateMember.assign]
  iterate 5 simp [parseByte_run, StateMember.assign]
  · rw [array_run (fun (state : State) entry => { state with ram := state.ram ++ [entry] })
      readRamEntry fun _ => by simp [readRamEntry, readWord, readByte]]
    simp [foldl_ram, StateMember.assign]
  · rfl

theorem parseInto_run {σ τ μ : Type} {part : σ → τ} {store : τ → σ → σ}
    {parse : StateT τ Cursor Unit} {read : Cursor μ} {update : τ → μ → τ}
    (hparse : ∀ t, parse.run t = read >>= fun m => pure ((), update t m)) (s : σ) :
    (parseInto part store parse).run s =
      read >>= fun m => pure ((), store (update (part s) m) s) := by
  simp [parseInto, hparse]

/-- **Parsing a case is reading its members, then assigning them.** -/
theorem parseCase_run (test : TestCase) :
    parseCase.run test = readCase >>= fun members => pure ((), test.update members) := by
  rw [parseCase, StateT.run_bind, StateT.run_modify, pure_bind]
  refine object_run CaseMember.assign (fun key test => ?_) _
  unfold readCaseMember
  split_ifs
  · simp [CaseMember.assign]
  · rw [parseInto_run parseState_run]
    simp [CaseMember.assign]
  · rw [parseInto_run parseState_run]
    simp [CaseMember.assign]
  · rw [array_run (fun (test : TestCase) record => { test with cycles := test.cycles ++ [record] })
      readCycle fun _ => by simp [readCycle, readWord, readByte]]
    simp [foldl_cycles, CaseMember.assign]
  · rfl

/-! ### Reading does not look ahead -/

theorem local_readWord : Scanner.Local readWord := local_number.map _

theorem local_readByte : Scanner.Local readByte := local_number.map _

theorem local_readRamEntry : Scanner.Local readRamEntry :=
  (local_expect _).bind fun _ => local_readWord.bind fun _ => (local_expect _).bind fun _ =>
    local_readByte.bind fun _ => (local_expect _).bind fun _ => .pure _

theorem local_readCycle : Scanner.Local readCycle :=
  (local_expect _).bind fun _ => local_readWord.bind fun _ => (local_expect _).bind fun _ =>
    local_readByte.bind fun _ => (local_expect _).bind fun _ => local_string.bind fun _ =>
      (local_expect _).bind fun _ => .pure _

theorem local_readStateMember (key : List Char) : Scanner.Local (readStateMember key) := by
  unfold readStateMember
  split_ifs
  · exact local_readWord.map _
  iterate 5 exact local_readByte.map _
  · exact (local_listOf local_readRamEntry).map _
  · exact nofun

theorem local_readState : Scanner.Local readState := local_objectOf local_readStateMember

theorem local_readCaseMember (key : List Char) : Scanner.Local (readCaseMember key) := by
  unfold readCaseMember
  split_ifs
  · exact local_string.map _
  · exact local_readState.map _
  · exact local_readState.map _
  · exact (local_listOf local_readCycle).map _
  · exact nofun

theorem local_readCase : Scanner.Local readCase := local_objectOf local_readCaseMember

/-! ### Reading ends -/

theorem avoids_readWord : Scanner.Avoids .exhausted readWord := avoids_number.map _

theorem avoids_readByte : Scanner.Avoids .exhausted readByte := avoids_number.map _

theorem avoids_readRamEntry : Scanner.Avoids .exhausted readRamEntry :=
  (avoids_expect _).bind fun _ => avoids_readWord.bind fun _ => (avoids_expect _).bind fun _ =>
    avoids_readByte.bind fun _ => (avoids_expect _).bind fun _ => .pure _ _

theorem avoids_readCycle : Scanner.Avoids .exhausted readCycle :=
  (avoids_expect _).bind fun _ => avoids_readWord.bind fun _ => (avoids_expect _).bind fun _ =>
    avoids_readByte.bind fun _ => (avoids_expect _).bind fun _ => avoids_string.bind fun _ =>
      (avoids_expect _).bind fun _ => .pure _ _

theorem avoids_readState : Scanner.Avoids .exhausted readState := by
  refine avoids_objectOf local_readStateMember fun key => ?_
  unfold readStateMember
  split_ifs
  · exact avoids_readWord.map _
  iterate 5 exact avoids_readByte.map _
  · exact (avoids_listOf local_readRamEntry avoids_readRamEntry).map _
  · exact nofun

theorem avoids_readCase : Scanner.Avoids .exhausted readCase := by
  refine avoids_objectOf local_readCaseMember fun key => ?_
  unfold readCaseMember
  split_ifs
  · exact avoids_string.map _
  · exact avoids_readState.map _
  · exact avoids_readState.map _
  · exact (avoids_listOf local_readCycle avoids_readCycle).map _
  · exact nofun

end Mos6502.Harness
