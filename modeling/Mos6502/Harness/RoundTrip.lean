import Mos6502.Harness.JsonTexts
import Mos6502.Harness.RunFile

/-!
# Reading inverts the format

The members of a state or of a case may come in any order, with white space between any two
tokens. Reading gives back the members, and assigning them in any order gives back the case.
-/

namespace Mos6502.Harness

open Json Parsing Parsing.Scanner

/-! ### The format -/

def ramEntryText (e : U16 × U8) : Language Char :=
  listing '[' ']' [numeral e.1.toNat, numeral e.2.toNat]

def CycleRecord.kind (record : CycleRecord) : List Char :=
  if record.isWrite then "write".toList else "read".toList

def cycleText (record : CycleRecord) : Language Char :=
  listing '[' ']' [numeral record.addr.toNat, numeral record.value.toNat, quoted record.kind]

def StateMember.text : StateMember → Language Char
  | .pc value => entry "pc" (numeral value.toNat)
  | .s value => entry "s" (numeral value.toNat)
  | .a value => entry "a" (numeral value.toNat)
  | .x value => entry "x" (numeral value.toNat)
  | .y value => entry "y" (numeral value.toNat)
  | .p value => entry "p" (numeral value.toNat)
  | .ram entries => entry "ram" (listing '[' ']' (entries.map ramEntryText))

def stateText (members : List StateMember) : Language Char :=
  listing '{' '}' (members.map StateMember.text)

/-- The final state has two names. -/
def CaseMember.text : CaseMember → Language Char
  | .name chars => entry "name" (quoted chars)
  | .initial members => entry "initial" (stateText members)
  | .final members => entry "final" (stateText members) + entry "expected" (stateText members)
  | .cycles records => entry "cycles" (listing '[' ']' (records.map cycleText))

def caseText (members : List CaseMember) : Language Char :=
  listing '{' '}' (members.map CaseMember.text)

def documentText (document : List (List CaseMember)) : Language Char :=
  listing '[' ']' (document.map caseText)

def State.members (state : State) : List StateMember :=
  [.pc state.pc, .s state.s, .a state.a, .x state.x, .y state.y, .p state.p, .ram state.ram]

/-- The members give the case, in some order. -/
def TestCase.IsGivenBy (test : TestCase) (members : List CaseMember) : Prop :=
  ∃ initial final, initial.Perm test.initial.members ∧ final.Perm test.final.members ∧
    members.Perm [.name test.name, .initial initial, .final final, .cycles test.cycles]

/-- The texts of a list of test cases. -/
def renderings (tests : List TestCase) : Language Char :=
  {text | ∃ document, List.Forall₂ TestCase.IsGivenBy tests document ∧ text ∈ documentText document}

/-! ### Assigning in any order -/

theorem State.update_of_perm (state state' : State) {members : List StateMember}
    (h : members.Perm state'.members) : state.update members = state' := by
  have hcomm : ∀ m ∈ state'.members, ∀ m' ∈ state'.members, ∀ s : State,
      m'.assign (m.assign s) = m.assign (m'.assign s) := by
    simp [State.members, StateMember.assign]
  rw [State.update, h.foldl_eq' fun m hm m' hm' s =>
    hcomm m (h.mem_iff.mp hm) m' (h.mem_iff.mp hm') s]
  rfl

theorem TestCase.update_of_isGivenBy (test test' : TestCase) {members : List CaseMember}
    (h : test'.IsGivenBy members) : test.update members = test' := by
  obtain ⟨initial, final, hinitial, hfinal, hmembers⟩ := h
  rw [TestCase.update, hmembers.foldl_eq' ?_]
  · simp [CaseMember.assign, State.update_of_perm _ _ hinitial, State.update_of_perm _ _ hfinal]
  · intro m hm m' hm' t
    replace hm := hmembers.mem_iff.mp hm
    replace hm' := hmembers.mem_iff.mp hm'
    simp at hm hm'
    rcases hm with rfl | rfl | rfl | rfl <;> rcases hm' with rfl | rfl | rfl | rfl <;> rfl

/-! ### Reading the members -/

theorem reads_word (w : U16) : Reads noDigit readWord (numeral w.toNat) w := by
  have h := (reads_number (n := w.toNat) (by omega)).map (BitVec.ofInt 16)
  have hw : BitVec.ofInt 16 (w.toNat : ℤ) = w := by simp
  rw [hw] at h
  exact h

theorem reads_byte (b : U8) : Reads noDigit readByte (numeral b.toNat) b := by
  have h := (reads_number (n := b.toNat) (by omega)).map (BitVec.ofInt 8)
  have hb : BitVec.ofInt 8 (b.toNat : ℤ) = b := by simp
  rw [hb] at h
  exact h

/-- Nothing but a token of its own follows a number. -/
theorem guards_punct {c : Char} (hspace : isWhitespace c = false) (hdigit : c.isDigit = false)
    (m : Language Char) : Guards (punct c * m) noDigit :=
  ((led_token hspace []).mul m).guards hdigit

theorem reads_readRamEntry (e : U16 × U8) : Reads Set.univ readRamEntry (ramEntryText e) e := by
  have htext : ramEntryText e =
      punct '[' * (numeral e.1.toNat * (punct ',' * (numeral e.2.toNat * (punct ']' * 1)))) := by
    simp [ramEntryText, listing, mul_assoc]
  rw [htext]
  refine (reads_expect (by decide)).andThen ((reads_word e.1).bind ?_ (guards_punct rfl rfl _))
  refine (reads_expect (by decide)).andThen ((reads_byte e.2).bind ?_ (guards_punct rfl rfl _))
  exact (reads_expect (by decide)).andThen (.pure e)

theorem CycleRecord.kind_eq (record : CycleRecord) :
    '"' ∉ record.kind ∧ decide (record.kind = "write".toList) = record.isWrite := by
  unfold kind
  cases record.isWrite with
  | false => exact ⟨by decide, by decide⟩
  | true => exact ⟨by decide, by decide⟩

theorem reads_readCycle (record : CycleRecord) :
    Reads Set.univ readCycle (cycleText record) record := by
  have htext : cycleText record =
      punct '[' * (numeral record.addr.toNat * (punct ',' * (numeral record.value.toNat *
        (punct ',' * (quoted record.kind * (punct ']' * 1)))))) := by
    simp [cycleText, listing, mul_assoc]
  obtain ⟨hquote, hwrite⟩ := record.kind_eq
  have hrecord : record =
      ⟨record.addr, record.value, decide (record.kind = "write".toList)⟩ := by rw [hwrite]
  rw [htext]
  refine (reads_expect (by decide)).andThen ((reads_word _).bind ?_ (guards_punct rfl rfl _))
  refine (reads_expect (by decide)).andThen ((reads_byte _).bind ?_ (guards_punct rfl rfl _))
  refine (reads_expect (by decide)).andThen ((reads_string hquote).andThen ?_)
  refine (reads_expect (by decide)).andThen ?_
  rw [← hrecord]
  exact .pure record

/-- A member is read when its value is read under its key. -/
theorem reads_entry {α : Type} {follow : Set (List Char)} {key : String}
    (hkey : '"' ∉ key.toList) {member : List Char → Cursor α} {value : Language Char}
    {a : α} (h : Reads follow (member key.toList) value a) :
    Reads follow (do
      let key ← string
      expect ':'
      member key) (entry key value) a :=
  (reads_string hkey).andThen ((reads_expect (by decide)).andThen h)

theorem Reads.of_univ {α : Type} {follow : Set (List Char)} {p : Cursor α} {l : Language Char}
    {a : α} (h : Reads Set.univ p l a) : Reads follow p l a :=
  fun _ _ _ htext _ => h htext (Set.mem_univ _)

theorem reads_ram (entries : List (U16 × U8)) :
    Reads Set.univ (arrayOf readRamEntry) (listing '[' ']' (entries.map ramEntryText)) entries :=
  reads_listOf '[' rfl rfl rfl (by decide) (by decide) local_readRamEntry
    (fun _ _ => led_listing rfl _ _) fun e _ => Reads.of_univ (reads_readRamEntry e)

theorem reads_cycles (records : List CycleRecord) :
    Reads Set.univ (arrayOf readCycle) (listing '[' ']' (records.map cycleText)) records :=
  reads_listOf '[' rfl rfl rfl (by decide) (by decide) local_readCycle
    (fun _ _ => led_listing rfl _ _) fun r _ => Reads.of_univ (reads_readCycle r)

theorem reads_stateMember (m : StateMember) :
    Reads noDigit (do
      let key ← string
      expect ':'
      readStateMember key) m.text m := by
  cases m with
  | pc value => exact reads_entry (by decide) ((reads_word value).map StateMember.pc)
  | s value => exact reads_entry (by decide) ((reads_byte value).map StateMember.s)
  | a value => exact reads_entry (by decide) ((reads_byte value).map StateMember.a)
  | x value => exact reads_entry (by decide) ((reads_byte value).map StateMember.x)
  | y value => exact reads_entry (by decide) ((reads_byte value).map StateMember.y)
  | p value => exact reads_entry (by decide) ((reads_byte value).map StateMember.p)
  | ram entries =>
    exact reads_entry (by decide) (Reads.of_univ ((reads_ram entries).map StateMember.ram))

theorem reads_readState (members : List StateMember) :
    Reads Set.univ readState (stateText members) members := by
  refine reads_listOf '"' rfl rfl rfl (by decide) (by decide) ?_ (fun m _ => ?_)
    fun m _ => reads_stateMember m
  · exact local_string.bind fun key => (local_expect ':').bind fun _ => local_readStateMember key
  · cases m <;> exact led_entry _ _

/-- The name can be read. -/
def CaseMember.Readable : CaseMember → Prop
  | .name chars => '"' ∉ chars
  | _ => True

theorem reads_caseMember {m : CaseMember} (hm : m.Readable) :
    Reads noDigit (do
      let key ← string
      expect ':'
      readCaseMember key) m.text m := by
  cases m with
  | name chars =>
    exact reads_entry (by decide) (Reads.of_univ ((reads_string hm).map CaseMember.name))
  | initial members =>
    exact reads_entry (by decide) (Reads.of_univ ((reads_readState members).map CaseMember.initial))
  | final members =>
    have hstate : Reads noDigit _ _ _ :=
      Reads.of_univ ((reads_readState members).map CaseMember.final)
    exact (reads_entry (by decide) hstate).add (reads_entry (by decide) hstate)
  | cycles records =>
    exact reads_entry (by decide) (Reads.of_univ ((reads_cycles records).map CaseMember.cycles))

theorem reads_readCase {members : List CaseMember} (h : ∀ m ∈ members, m.Readable) :
    Reads Set.univ readCase (caseText members) members := by
  refine reads_listOf '"' rfl rfl rfl (by decide) (by decide) ?_ (fun m _ => ?_)
    fun m hm => reads_caseMember (h m hm)
  · exact local_string.bind fun key => (local_expect ':').bind fun _ => local_readCaseMember key
  · cases m with
    | final members => exact (led_entry _ _).add (led_entry _ _)
    | _ => exact led_entry _ _

/-- **Reading inverts the format.** -/
theorem reads_document {document : List (List CaseMember)}
    (h : ∀ members ∈ document, ∀ m ∈ members, m.Readable) :
    Reads Set.univ (arrayOf readCase) (documentText document) document :=
  reads_listOf '{' rfl rfl rfl (by decide) (by decide) local_readCase
    (fun _ _ => led_listing rfl _ _) fun members hmembers =>
      Reads.of_univ (reads_readCase (h members hmembers))


/-! ### Visiting the cases -/

theorem readable_of_isGivenBy {test : TestCase} {members : List CaseMember}
    (h : test.IsGivenBy members) (hname : '"' ∉ test.name) :
    ∀ m ∈ members, m.Readable := by
  obtain ⟨initial, final, -, -, hmembers⟩ := h
  intro m hm
  have hm' := hmembers.mem_iff.mp hm
  simp only [List.mem_cons, List.not_mem_nil, or_false] at hm'
  rcases hm' with rfl | rfl | rfl | rfl
  · exact hname
  all_goals trivial

theorem seen_of_isGivenBy {tests : List TestCase} {document : List (List Char × List CaseMember)}
    (h : List.Forall₂ TestCase.IsGivenBy tests (document.map Prod.snd)) (visits : Visits) :
    (document.foldl Visits.next visits).seen.map Prod.snd = visits.seen.map Prod.snd ++ tests := by
  induction document generalizing tests visits with
  | nil =>
    cases h
    simp
  | cons entry document ih =>
    obtain ⟨test, tests', htest, htests, rfl⟩ := List.forall₂_cons_right_iff.mp h
    rw [List.foldl_cons, ih htests, Visits.next, TestCase.update_of_isGivenBy _ _ htest,
      List.map_append, List.append_assoc]
    rfl

theorem checks_of_isGivenBy (V : Variant) {tests : List TestCase}
    {document : List (List CaseMember)} (h : List.Forall₂ TestCase.IsGivenBy tests document)
    (run : FileRun) :
    document.foldl (FileRun.next V) run =
      tests.foldl (fun run test => checkCase V { run with test }) run := by
  induction h generalizing run with
  | nil => rfl
  | cons htest _ ih =>
    rw [List.foldl_cons, List.foldl_cons, ih, FileRun.next, TestCase.update_of_isGivenBy _ _ htest]

/-- Every text of a list of cases is read as members that give these cases. -/
theorem read_of_mem_renderings {tests : List TestCase} (hnames : ∀ test ∈ tests, '"' ∉ test.name)
    {text : List Char} (htext : text ∈ renderings tests) (size : ℕ) (tail : List Char) :
    ∃ document, List.Forall₂ TestCase.IsGivenBy tests document ∧
      arrayOf readCase size (text ++ tail) = .ok (document, tail) := by
  obtain ⟨document, hgiven, htext⟩ := htext
  have hreadable : ∀ members ∈ document, ∀ m ∈ members, m.Readable := by
    clear htext
    induction hgiven with
    | nil => exact nofun
    | cons hmember _ ih =>
      obtain ⟨hname, hnames⟩ := List.forall_mem_cons.mp hnames
      exact List.forall_mem_cons.mpr ⟨readable_of_isGivenBy hmember hname, ih hnames⟩
  exact ⟨document, hgiven, reads_document hreadable htext (Set.mem_univ tail)⟩

/-- The result of a file counts the verdicts on its cases. -/
theorem runFile_of_mem_renderings (V : Variant) {tests : List TestCase}
    (hnames : ∀ test ∈ tests, '"' ∉ test.name) {text : List Char} (htext : text ∈ renderings tests)
    (tail : List Char) :
    runFile V (text ++ tail) = .ok {
      passed := Int32.ofNat (tests.countP (verdict V))
      failed := Int32.ofNat (tests.countP fun test => !verdict V test) } := by
  obtain ⟨document, hgiven, hread⟩ :=
    read_of_mem_renderings hnames htext (text ++ tail).length tail
  rw [runFile, runCases_run, Scanner.bind_ok hread, checks_of_isGivenBy V hgiven]
  exact congrArg Except.ok (foldl_checkCase_start V tests)

/-- **The case reader inverts the case format.** On every text of a list of cases the traversal
visits these cases in order, whatever the object held before, and it stops after the closing
bracket; so the harness checks these cases. -/
theorem case_reader_inverts (tests : List TestCase) (hnames : ∀ test ∈ tests, '"' ∉ test.name)
    {text : List Char} (htext : text ∈ renderings tests) (size : ℕ) (tail : List Char) :
    (∀ visits : Visits, ∃ visits',
      visitCases.run visits size (text ++ tail) = .ok (((), visits'), tail) ∧
        visits'.seen.map Prod.snd = visits.seen.map Prod.snd ++ tests) ∧
    ∀ (V : Variant) (run : FileRun), (runCases V).run run size (text ++ tail) =
      .ok (((), tests.foldl (fun run test => checkCase V { run with test }) run), tail) := by
  obtain ⟨document, hgiven, hread⟩ := read_of_mem_renderings hnames htext size tail
  constructor
  · intro visits
    rw [arrayOf_readCase] at hread
    obtain ⟨entries, rest, hentries, hdocument⟩ := Scanner.bind_eq_ok hread
    cases hdocument
    rw [visitCases_run, Scanner.bind_ok hentries]
    exact ⟨_, rfl, seen_of_isGivenBy hgiven visits⟩
  · intro V run
    rw [runCases_run, Scanner.bind_ok hread, checks_of_isGivenBy V hgiven]
    rfl

/-- A case with its members in another order, and further text behind the bracket. -/
theorem case_reader_inverts_one :
    let test : TestCase := {
      name := ['a']
      initial := { pc := 512, ram := [(512, 234)] }
      final := { pc := 513 }
      cycles := [⟨512, 234, false⟩] }
    let text := "[\x7b\"expected\":\x7b\"ram\":[],\"pc\":513,\"s\":0,\"a\":0,".toList ++
      "\"x\":0,\"y\":0,\"p\":0\x7d,\"cycles\":[[512,234,\"read\"]],".toList ++
      "\"name\":\"a\",\"initial\":\x7b\"ram\":[[512,234]],\"pc\":512,".toList ++
      "\"s\":0,\"a\":0,\"x\":0,\"y\":0,\"p\":0\x7d\x7d]".toList
    ∃ visits', visitCases.run {} 0 (text ++ [']']) = .ok (((), visits'), [']']) ∧
      visits'.seen.map Prod.snd = [test] := by
  intro test text
  let state (ram : List (U16 × U8)) (pc : U16) : List StateMember :=
    [.ram ram, .pc pc, .s 0, .a 0, .x 0, .y 0, .p 0]
  have hzero (key : String) := mem_entry key (mem_numeral 0)
  have hstate (ram : List (U16 × U8)) (pc : U16) {text : List Char}
      (hram : text ∈ listing '[' ']' (ram.map ramEntryText)) :=
    mem_listing '{' '}' (.cons (mem_entry "ram" hram)
      (.cons (mem_entry "pc" (mem_numeral pc.toNat)) (.cons (hzero "s") (.cons (hzero "a")
        (.cons (hzero "x") (.cons (hzero "y") (.cons (hzero "p") .nil)))))))
  have hram := mem_listing '[' ']' (.cons
    (mem_listing '[' ']' (.cons (mem_numeral 512) (.cons (mem_numeral 234) .nil))) .nil)
  have hcycles := mem_listing '[' ']' (.cons (mem_listing '[' ']' (.cons (mem_numeral 512)
    (.cons (mem_numeral 234) (.cons (mem_quoted "read".toList) .nil)))) .nil)
  have hfinal : _ ∈ (CaseMember.final (state [] 513)).text :=
    Or.inr (mem_entry "expected" (hstate [] 513 (mem_listing '[' ']' .nil)))
  have hcase := mem_listing '{' '}' (.cons hfinal
    (.cons (mem_entry "cycles" hcycles) (.cons (mem_entry "name" (mem_quoted ['a']))
      (.cons (mem_entry "initial" (hstate [(512, 234)] 512 hram)) .nil))))
  have hgiven : test.IsGivenBy [.final (state [] 513), .cycles [⟨512, 234, false⟩], .name ['a'],
      .initial (state [(512, 234)] 512)] :=
    ⟨state [(512, 234)] 512, state [] 513, by decide, by decide, by decide⟩
  have htext : text ∈ renderings [test] :=
    ⟨_, .cons hgiven .nil, Set.mem_of_eq_of_mem (by decide +kernel)
      (mem_listing '[' ']' (.cons hcase .nil))⟩
  exact (case_reader_inverts [test] (by decide) htext 0 [']']).1 {}

end Mos6502.Harness
