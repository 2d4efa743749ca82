import Mos6502.Effects.Stores
import Mos6502.Harness.RunFile

/-!
# What a case takes from the cases before it

One object is parsed into for every case of a file. The members that a text gives are stored
in it, the lists are cleared first, and everything else stays from the cases before. So a case
is the one that its own text gives exactly when nothing that stays was ever changed.
-/

namespace Mos6502.Harness

open Effects Json Parsing

/-! ### The parts of a test case -/

inductive Field
  | pc | s | a | x | y | p | ram
  deriving DecidableEq, Repr

/-- The parts that are not cleared before every case. -/
inductive Part
  | name
  | initial (field : Field)
  | final (field : Field)
  deriving DecidableEq, Repr

inductive Value
  | text (chars : List Char)
  | word (value : U16)
  | byte (value : U8)
  | ram (entries : List (U16 × U8))
  deriving DecidableEq, Repr

def State.field (state : State) : Field → Value
  | .pc => .word state.pc
  | .s => .byte state.s
  | .a => .byte state.a
  | .x => .byte state.x
  | .y => .byte state.y
  | .p => .byte state.p
  | .ram => .ram state.ram

def TestCase.part (test : TestCase) : Part → Value
  | .name => .text test.name
  | .initial field => test.initial.field field
  | .final field => test.final.field field

theorem State.field_injective : Function.Injective State.field := by
  intro state state' h
  have hfield (f : Field) : state.field f = state'.field f := congrFun h f
  have hpc := hfield .pc
  have hs := hfield .s
  have ha := hfield .a
  have hx := hfield .x
  have hy := hfield .y
  have hp := hfield .p
  have hram := hfield .ram
  cases state
  cases state'
  simp_all [State.field]

theorem TestCase.eq_of_part {test test' : TestCase} (hpart : test.part = test'.part)
    (hcycles : test.cycles = test'.cycles) : test = test' := by
  have hname : test.name = test'.name := Value.text.inj (congrFun hpart .name)
  have hinitial : test.initial = test'.initial :=
    State.field_injective (funext fun f => congrFun hpart (.initial f))
  have hfinal : test.final = test'.final :=
    State.field_injective (funext fun f => congrFun hpart (.final f))
  cases test
  cases test'
  simp_all

/-! ### The stores of a text -/

/-- The register that a member of a state gives. -/
def StateMember.register? : StateMember → Option (Field × Value)
  | .pc value => some (.pc, .word value)
  | .s value => some (.s, .byte value)
  | .a value => some (.a, .byte value)
  | .x value => some (.x, .byte value)
  | .y value => some (.y, .byte value)
  | .p value => some (.p, .byte value)
  | .ram _ => none

def StateMember.entries : StateMember → List (U16 × U8)
  | .ram entries => entries
  | _ => []

/-- What the text of a state stores: the registers that it gives, and the memory in any case. -/
def stateStores (members : List StateMember) : List (Field × Value) :=
  members.filterMap StateMember.register? ++ [(.ram, .ram (members.flatMap StateMember.entries))]

def CaseMember.stores : CaseMember → List (Part × Value)
  | .name text => [(.name, .text text)]
  | .initial members => (stateStores members).map fun s => (.initial s.1, s.2)
  | .final members => (stateStores members).map fun s => (.final s.1, s.2)
  | .cycles _ => []

def CaseMember.records : CaseMember → List CycleRecord
  | .cycles records => records
  | _ => []

theorem StateMember.assign_field (state : State) (m : StateMember) :
    (m.assign state).field =
      match m.register? with
      | some (field, value) => Function.update state.field field value
      | none => Function.update state.field .ram (.ram (state.ram ++ m.entries)) := by
  cases m <;> funext field <;> cases field <;> rfl

theorem StateMember.register?_ne_ram (m : StateMember) {s : Field × Value}
    (h : m.register? = some s) : s.1 ≠ .ram ∧ m.entries = [] := by
  cases m with
  | ram entries => cases h
  | _ =>
    cases h
    exact ⟨nofun, rfl⟩

theorem State.update_field (state : State) (members : List StateMember) :
    (state.update members).field = storeAll state.field (stateStores members) := by
  rw [stateStores, storeAll_append]
  change _ = Function.update (storeAll state.field _) _ _
  induction members using List.reverseRecOn with
  | nil =>
    funext field
    cases field <;> rfl
  | append_singleton members m ih =>
    rw [State.update, List.foldl_append, List.foldl_cons, List.foldl_nil,
      StateMember.assign_field, ← State.update, ih, List.filterMap_append, List.flatMap_append,
      storeAll_append]
    have hram : (state.update members).ram = members.flatMap StateMember.entries := by
      have := congrFun ih .ram
      rw [Function.update_self] at this
      exact Value.ram.inj this
    cases h : m.register? with
    | some s =>
      obtain ⟨hne, hentries⟩ := m.register?_ne_ram h
      simp [h, hentries, Function.update_comm hne]
    | none => simp [h, hram]

/-- The stores of a state within a test case, where `g` names its parts. -/
theorem storeAll_stateStores {g : Field → Part} (hg : Function.Injective g) (before : Part → Value)
    (state : State) (hbefore : before ∘ g = state.field) (members : List StateMember) :
    let after := storeAll before ((stateStores members).map fun s => (g s.1, s.2))
    (∀ field, after (g field) = (state.update members).field field) ∧
      ∀ part, (∀ field, g field ≠ part) → after part = before part := by
  refine ⟨fun field => ?_, fun part hne => storeAll_of_notMem before fun s hs => ?_⟩
  · rw [storeAll_map_injective hg, hbefore, ← State.update_field]
  · obtain ⟨s, -, rfl⟩ := List.mem_map.mp hs
    exact hne s.1

theorem CaseMember.assign_part (test : TestCase) (m : CaseMember) :
    (m.assign test).part = storeAll test.part m.stores := by
  funext part
  cases m with
  | name text => cases part <;> rfl
  | cycles records => rfl
  | initial members =>
    obtain ⟨hfields, hother⟩ := storeAll_stateStores (g := Part.initial)
      (fun _ _ => Part.initial.inj) test.part test.initial rfl members
    cases part with
    | initial field => exact (hfields field).symm
    | name => exact (hother .name nofun).symm
    | final field => exact (hother (.final field) nofun).symm
  | final members =>
    obtain ⟨hfields, hother⟩ := storeAll_stateStores (g := Part.final)
      (fun _ _ => Part.final.inj) test.part test.final rfl members
    cases part with
    | final field => exact (hfields field).symm
    | name => exact (hother .name nofun).symm
    | initial field => exact (hother (.initial field) nofun).symm

/-- **The parts after a text** are those before it, with the stores of the text. -/
theorem TestCase.update_part (test : TestCase) (members : List CaseMember) :
    (test.update members).part = storeAll test.part (members.flatMap CaseMember.stores) := by
  induction members using List.reverseRecOn with
  | nil => rfl
  | append_singleton members m ih =>
    rw [TestCase.update, List.foldl_append, List.foldl_cons, List.foldl_nil,
      CaseMember.assign_part, ← TestCase.update, ih, List.flatMap_append, storeAll_append,
      List.flatMap_singleton]

theorem TestCase.update_cycles (test : TestCase) (members : List CaseMember) :
    (test.update members).cycles = members.flatMap CaseMember.records := by
  induction members using List.reverseRecOn with
  | nil => rfl
  | append_singleton members m ih =>
    rw [List.flatMap_append, List.flatMap_singleton, ← ih, TestCase.update, TestCase.update,
      List.foldl_append, List.foldl_cons, List.foldl_nil]
    cases m <;> simp [CaseMember.assign, CaseMember.records]

/-- A text gives the same case in a used object as in a fresh one exactly when every part that
it does not store has its default value in the used one. -/
theorem TestCase.update_eq_iff (test : TestCase) (members : List CaseMember) :
    ({} : TestCase).update members = test.update members ↔
      ∀ part, lastStore (members.flatMap CaseMember.stores) part = none →
        test.part part = ({} : TestCase).part part := by
  constructor
  · intro h part hnone
    have hpart := congrFun (congrArg TestCase.part h) part
    rw [update_part, update_part, storeAll_apply, storeAll_apply, hnone] at hpart
    exact hpart.symm
  · intro h
    refine eq_of_part (funext fun part => ?_) (by rw [update_cycles, update_cycles])
    rw [update_part, update_part, storeAll_apply, storeAll_apply]
    cases hlast : lastStore (members.flatMap CaseMember.stores) part with
    | some value => rfl
    | none => exact (h part hlast).symm

/-! ### The cases of a file -/

/-- The stores that the text of a case makes. -/
def storesOf (text : List Char) : List (Part × Value) :=
  match readCase text.length text with
  | .ok (members, _) => members.flatMap CaseMember.stores
  | .error _ => []

/-- No text leaves out a part that the texts before it have changed. -/
def InheritsNothing (texts : List (List Char)) : Prop :=
  ∀ k text part, texts[k]? = some text → lastStore (storesOf text) part = none →
    storeAll ({} : TestCase).part ((texts.take k).flatMap storesOf) part =
      ({} : TestCase).part part

/-- Each case of a document is read again from its own text. -/
theorem reread_of_readDocument {size : ℕ} {text rest : List Char}
    {document : List (List Char × List CaseMember)}
    (h : readDocument size text = .ok (document, rest)) :
    ∀ entry ∈ document, ∀ size', readCase size' entry.1 = .ok (entry.2, []) :=
  forall_of_listOf (fun hentry => (local_readCase.of_withText hentry).2.2) h

theorem parseAlone_eq {text : List Char} {members : List CaseMember}
    (h : readCase text.length text = .ok (members, [])) :
    parseAlone text = .ok (({} : TestCase).update members) := by
  rw [parseAlone, parseCase_run, Scanner.bind_ok h]
  rfl

section document

variable (document : List (List Char × List CaseMember))

theorem length_seen : (document.foldl Visits.next {}).seen.length = document.length := by
  induction document using List.reverseRecOn with
  | nil => rfl
  | append_singleton document entry ih =>
    rw [List.foldl_append, List.foldl_cons, List.foldl_nil, Visits.next, List.length_append,
      List.length_append, ih]
    rfl

/-- What is seen of each case: its text, and its members on top of the object before it. -/
theorem seen_getElem? (k : ℕ) :
    (document.foldl Visits.next {}).seen[k]? =
      document[k]?.map fun entry =>
        (entry.1, ((document.take k).foldl Visits.next {}).test.update entry.2) := by
  induction document using List.reverseRecOn with
  | nil => rfl
  | append_singleton document entry ih =>
    have hlength := length_seen document
    rw [List.foldl_append, List.foldl_cons, List.foldl_nil]
    rcases Nat.lt_trichotomy k document.length with hlt | rfl | hgt
    · rw [List.getElem?_append_left hlt, List.take_append_of_le_length hlt.le, ← ih]
      exact List.getElem?_append_left (hlength ▸ hlt)
    · rw [List.getElem?_concat_length, List.take_left]
      exact hlength ▸ List.getElem?_concat_length
    · have hnone := List.getElem?_eq_none (l := document ++ [entry]) (i := k) (by simp; omega)
      rw [hnone]
      refine List.getElem?_eq_none ?_
      rw [Visits.next, List.length_append, hlength, List.length_singleton]
      omega

/-- The parts of the object after some cases come from the texts of these. -/
theorem visited_part
    (hreread : ∀ entry ∈ document, ∀ size, readCase size entry.1 = .ok (entry.2, [])) :
    (document.foldl Visits.next {}).test.part =
      storeAll ({} : TestCase).part ((document.map Prod.fst).flatMap storesOf) := by
  induction document using List.reverseRecOn with
  | nil => rfl
  | append_singleton document entry ih =>
    have hentry : storesOf entry.1 = entry.2.flatMap CaseMember.stores := by
      rw [storesOf, hreread entry (by simp)]
    rw [List.foldl_append, List.foldl_cons, List.foldl_nil, Visits.next, TestCase.update_part,
      ih fun e he => hreread e (List.mem_append_left _ he), List.map_append, List.flatMap_append,
      storeAll_append, ← hentry]
    simp

end document

theorem exists_document {text : List Char} {cases : List (List Char × TestCase)}
    (h : casesOf text = .ok cases) :
    ∃ document : List (List Char × List CaseMember),
      (∀ entry ∈ document, ∀ size, readCase size entry.1 = .ok (entry.2, [])) ∧
        cases = (document.foldl Visits.next {}).seen := by
  rw [casesOf, visitCases_run, Scanner.bind_apply] at h
  split at h
  · rename_i hvisits
    cases hdocument : readDocument text.length text with
    | error e =>
      rw [hdocument] at hvisits
      cases hvisits
    | ok document =>
      rw [hdocument] at hvisits
      cases hvisits
      cases h
      exact ⟨document.1, reread_of_readDocument hdocument, rfl⟩
  · cases h

/-- **Cases on their own.** Every case of a file is the one that its text gives on its own
exactly when no text leaves out a part that the texts before it have changed. -/
theorem each_case_alone_iff {text : List Char} {cases : List (List Char × TestCase)}
    (h : casesOf text = .ok cases) :
    (∀ (k : ℕ) own test, cases[k]? = some (own, test) → parseAlone own = .ok test) ↔
      InheritsNothing (cases.map Prod.fst) := by
  obtain ⟨document, hreread, rfl⟩ := exists_document h
  have hfst : (document.foldl Visits.next {}).seen.map Prod.fst = document.map Prod.fst := by
    refine List.ext_getElem? fun k => ?_
    rw [List.getElem?_map, List.getElem?_map, seen_getElem?, Option.map_map]
    rfl
  -- one case, in terms of the parts of the object before it
  have hcase {k : ℕ} {entry : List Char × List CaseMember} (hk : document[k]? = some entry) :
      parseAlone entry.1 =
          .ok (((document.take k).foldl Visits.next {}).test.update entry.2) ↔
        ∀ part, lastStore (storesOf entry.1) part = none →
          storeAll ({} : TestCase).part (((document.map Prod.fst).take k).flatMap storesOf) part =
            ({} : TestCase).part part := by
    have hentry := hreread entry (List.mem_of_getElem? hk)
    have hstores : storesOf entry.1 = entry.2.flatMap CaseMember.stores := by
      rw [storesOf, hentry]
    rw [parseAlone_eq (hentry _), Except.ok.injEq, TestCase.update_eq_iff, hstores,
      visited_part _ fun e he => hreread e (List.mem_of_mem_take he), List.map_take]
  rw [hfst]
  constructor
  · intro halone k own part hk
    obtain ⟨entry, hentry, rfl⟩ := Option.map_eq_some_iff.mp (List.getElem?_map ▸ hk)
    exact (hcase hentry).mp (halone k _ _ (by rw [seen_getElem?, hentry]; rfl)) part
  · intro hinherits k own test hk
    rw [seen_getElem?] at hk
    obtain ⟨entry, hentry, heq⟩ := Option.map_eq_some_iff.mp hk
    obtain ⟨rfl, rfl⟩ := Prod.mk.inj heq
    exact (hcase hentry).mpr fun part => hinherits k _ part (by rw [List.getElem?_map, hentry]; rfl)

/-- Two cases with names of their own take nothing from each other. -/
theorem each_case_alone_names :
    InheritsNothing ["\x7b\"name\":\"a\"\x7d".toList, " \x7b\"name\":\"b\"\x7d".toList] := by
  have h : casesOf "[\x7b\"name\":\"a\"\x7d, \x7b\"name\":\"b\"\x7d]".toList =
      .ok [("\x7b\"name\":\"a\"\x7d".toList, { name := ['a'] }),
        (" \x7b\"name\":\"b\"\x7d".toList, { name := ['b'] })] := by decide
  refine (each_case_alone_iff h).mp fun k own test hk => ?_
  match k with
  | 0 =>
    cases hk
    decide
  | 1 =>
    cases hk
    decide
  | k + 2 => cases hk

/-- The second case of this file gives nothing but its cycles. It passes with the state of the
first case, and fails on its own. -/
theorem second_case_not_alone :
    let first := "\x7b\"initial\":\x7b\"pc\":512,\"ram\":[[512,234]]\x7d,".toList ++
      "\"final\":\x7b\"pc\":513\x7d,".toList ++
      "\"cycles\":[[512,234,\"read\"],[513,0,\"read\"]]\x7d".toList
    let own := "\x7b\"cycles\":[[512,234,\"read\"],[513,0,\"read\"]]\x7d".toList
    ∃ inherited alone,
      casesOf ('[' :: first ++ ',' :: own ++ [']']) = .ok [(first, inherited), (own, inherited)] ∧
        parseAlone own = .ok alone ∧ alone ≠ inherited ∧
        verdict Nmos6502 inherited = true ∧ verdict Nmos6502 alone = false := by
  intro first own
  let cycles : List CycleRecord := [⟨512, 234, false⟩, ⟨513, 0, false⟩]
  refine ⟨{ initial := { pc := 512, ram := [(512, 234)] }, final := { pc := 513 }, cycles },
    { cycles }, ?_, ?_, ?_, ?_, ?_⟩
  · decide +kernel
  all_goals decide

end Mos6502.Harness
