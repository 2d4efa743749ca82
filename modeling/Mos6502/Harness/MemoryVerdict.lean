import Mos6502.BusLog
import Mos6502.Effects.Stores
import Mos6502.Harness.RunFile

/-!
# What a passing case says about memory

The memory of the test bus is always what its log of accesses makes of the memory at the
start, so a log that is compared in full leaves no address open: it does not matter which
ones the case lists.
-/

namespace Mos6502.Harness

open Effects

namespace CycleRecord

def access (record : CycleRecord) : BusAccess :=
  if record.isWrite then .write record.addr record.value else .read record.addr record.value

/-- What a cycle stores, if it is a write. -/
def store? (record : CycleRecord) : Option (U16 × U8) :=
  if record.isWrite then some (record.addr, record.value) else none

/-- The record of an access. -/
def ofAccess : BusAccess → CycleRecord
  | .read addr value => ⟨addr, value, false⟩
  | .write addr value => ⟨addr, value, true⟩

theorem access_ofAccess (a : BusAccess) : (ofAccess a).access = a := by cases a <;> rfl

theorem map_access_ofAccess (accesses : List BusAccess) :
    (accesses.map ofAccess).map access = accesses := by
  rw [List.map_map]
  exact List.map_id'' access_ofAccess accesses

/-- The stores of a list of cycles, in order. -/
def stores (records : List CycleRecord) : List (U16 × U8) := records.filterMap store?

end CycleRecord

/-! ### The log of the test bus -/

/-- The accesses lead from the one bus to the other, each with its record on the log. -/
structure TestBus.Follows (accesses : List BusAccess) (b b' : TestBus) : Prop where
  log : b'.log = b.log ++ accesses.map CycleRecord.ofAccess
  memory : b'.memory = storeAll b.memory (CycleRecord.stores (accesses.map CycleRecord.ofAccess))

namespace TestBus.Follows

theorem refl (b : TestBus) : Follows [] b b where
  log := by simp
  memory := rfl

theorem trans {as as' : List BusAccess} {b₁ b₂ b₃ : TestBus} (h : Follows as b₁ b₂)
    (h' : Follows as' b₂ b₃) : Follows (as ++ as') b₁ b₃ where
  log := by rw [h'.log, h.log, List.map_append, List.append_assoc]
  memory := by
    rw [h'.memory, h.memory, List.map_append, CycleRecord.stores, CycleRecord.stores,
      CycleRecord.stores, List.filterMap_append, storeAll_append]

theorem read (b : TestBus) (addr : U16) :
    Follows [.read addr (b.memory addr)] b (BusLike.read b addr).bus where
  log := rfl
  memory := rfl

theorem write (b : TestBus) (addr : U16) (value : U8) :
    Follows [.write addr value] b (BusLike.write b addr value).bus where
  log := rfl
  memory := rfl

end TestBus.Follows

/-- The accesses on the log of the bus lead from the bus before to the bus after. -/
theorem isFrame_follows :
    Machine.IsFrame fun m m' : Machine (Logged TestBus) NullHooks =>
      ∃ accesses, BusEvent.accesses m'.bus.log = BusEvent.accesses m.bus.log ++ accesses ∧
        TestBus.Follows accesses m.bus.bus m'.bus.bus where
  trans := by
    rintro m₁ m₂ m₃ ⟨as, hlog, hbus⟩ ⟨as', hlog', hbus'⟩
    exact ⟨as ++ as', by rw [hlog', hlog, List.append_assoc], hbus.trans hbus'⟩
  cpu m _ := ⟨[], (List.append_nil _).symm, .refl m.bus.bus⟩
  read addr m := by
    obtain ⟨es, haccesses, hgrows⟩ := Machine.grows_read addr m
    refine ⟨_, ?_, .read m.bus.bus addr⟩
    rw [hgrows.log, BusEvent.accesses_append, haccesses]
    rfl
  write addr value m := by
    obtain ⟨es, haccesses, hgrows⟩ := Machine.grows_write addr value m
    refine ⟨_, ?_, .write m.bus.bus addr value⟩
    rw [hgrows.log, BusEvent.accesses_append, haccesses]

/-- **A step on the test bus.** Its accesses lead from the bus before to the bus after. -/
theorem step_follows (V : Variant) (m : Machine TestBus NullHooks) :
    TestBus.Follows (m.stepAccesses V) m.bus (m.stepMachine V).bus := by
  obtain ⟨accesses, hlog, hbus⟩ := isFrame_follows.stepMachine V m.logged
  have haccesses : m.stepAccesses V = accesses := hlog
  rw [haccesses, ← Machine.stepMachine_logged]
  exact hbus

/-! ### The comparison with the case -/

theorem logMatches_iff {log cycles : List CycleRecord} :
    logMatches log cycles = true ↔ log = cycles := by
  have hrecord (got want : CycleRecord) :
      (got.addr == want.addr && got.value == want.value && got.isWrite == want.isWrite) = true ↔
        got = want := by
    cases got
    cases want
    simp [and_assoc]
  rw [logMatches, Bool.and_eq_true, beq_iff_eq, List.all_eq_true]
  constructor
  · rintro ⟨hlength, hzip⟩
    refine List.ext_getElem hlength fun k hk hk' => ?_
    have hmem : (log[k], cycles[k]) ∈ log.zip cycles :=
      List.mem_iff_getElem.mpr ⟨k, by simpa using ⟨hk, hk'⟩, List.getElem_zip⟩
    exact (hrecord _ _).mp (hzip _ hmem)
  · rintro rfl
    refine ⟨rfl, fun pair hpair => (hrecord _ _).mpr ?_⟩
    obtain ⟨k, hk, rfl⟩ := List.mem_iff_getElem.mp hpair
    rw [List.getElem_zip]

theorem foldl_set (b : TestBus) (ram : List (U16 × U8)) :
    (ram.foldl TestBus.set b).memory = storeAll b.memory ram := by
  induction ram generalizing b with
  | nil => rfl
  | cons entry ram ih => exact ih (b.set entry)

/-- A case starts from the memory that it gives, with nothing on the log. -/
theorem caseMachine_bus (bus : TestBus) (test : TestCase) :
    (caseMachine bus test).bus.memory = storeAll (fun _ => 0) test.initial.ram ∧
      (caseMachine bus test).bus.log = [] :=
  ⟨foldl_set bus.clear test.initial.ram, rfl⟩

/-- **A passing case pins down all of memory**, whatever the bus and the counts that the cases
before it left, and the step made its cycles. -/
theorem pass_pins_memory (V : Variant) (run : FileRun)
    (h : (checkCase V run).result.passed ≠ run.result.passed) :
    let test := run.test
    let bus := (checkCase V run).bus
    (∀ m : U16, bus.memory m =
      (lastStore (CycleRecord.stores test.cycles) m).getD
        ((lastStore test.initial.ram m).getD 0)) ∧
    (∀ entry ∈ test.final.ram, bus.memory entry.1 = entry.2) ∧
    (caseMachine run.bus test).stepAccesses V = test.cycles.map CycleRecord.access := by
  intro test bus
  let start := caseMachine run.bus test
  have hbus : bus = (start.stepMachine V).bus := rfl
  have hpasses : casePasses (start.stepMachine V) test = true := by
    by_contra hfails
    have hverdict : ¬verdict V run.test = true := hfails
    rw [(checkCase_eq V run).2, if_neg hverdict] at h
    exact h rfl
  obtain ⟨⟨-, hram⟩, hlog⟩ := by simpa only [casePasses, Bool.and_eq_true] using hpasses
  obtain ⟨hmemory, hempty⟩ := caseMachine_bus run.bus test
  have hfollows := step_follows V start
  have hrecords : (start.stepAccesses V).map CycleRecord.ofAccess = test.cycles := by
    rw [← logMatches_iff.mp hlog, hfollows.log, hempty, List.nil_append]
  refine ⟨fun m => ?_, fun entry hentry => ?_, ?_⟩
  · rw [hbus, hfollows.memory, hrecords, storeAll_apply, hmemory, storeAll_apply]
  · have hentries := List.all_eq_true.mp hram entry hentry
    exact beq_iff_eq.mp hentries
  · rw [← hrecords, CycleRecord.map_access_ofAccess]

/-- `STA $05`, in a case that lists no memory after the step. -/
theorem pass_pins_memory_sta :
    let test : TestCase := {
      initial := { pc := 0x0200, a := 7, ram := [(0x0200, 0x85), (0x0201, 0x05)] }
      final := { pc := 0x0202, a := 7 }
      cycles := [⟨0x0200, 0x85, false⟩, ⟨0x0201, 0x05, false⟩, ⟨0x0005, 7, true⟩] }
    (checkCase Nmos6502 { test }).bus.memory 0x0005 = 7 ∧
      (checkCase Nmos6502 { test }).bus.memory 0x0201 = 0x05 ∧
      (checkCase Nmos6502 { test }).bus.memory 0x0400 = 0 ∧
      (caseMachine {} test).stepAccesses Nmos6502 =
        [.read 0x0200 0x85, .read 0x0201 0x05, .write 0x0005 7] := by
  intro test
  obtain ⟨hmemory, -, haccesses⟩ := pass_pins_memory Nmos6502 { test } (by decide +kernel)
  exact ⟨(hmemory _).trans (by decide), (hmemory _).trans (by decide),
    (hmemory _).trans (by decide), haccesses⟩

end Mos6502.Harness
