import Mos6502.Harness.Conformance
import Mos6502.OperandText
import Mos6502.Tracing

/-!
# The report of a failing case

A failing case is reported by the registers and the number of cycles that it got and wanted,
and by the cycles that differ. Memory is not shown, and need not be: a report that shows no
difference is that of a case whose own cycles contradict the memory that it lists.
-/

namespace Mos6502.Harness

open Effects Json Parsing

/-! ### The texts -/

/-- The registers and the number of cycles, in one line. -/
def summaryText (pc : U16) (a x y s p : U8) (cycles : ℕ) : String :=
  "PC:" ++ (hexWord pc ++ (" A:" ++ (hexByte a ++ (" X:" ++ (hexByte x ++ (" Y:" ++ (hexByte y ++
    (" S:" ++ (hexByte s ++ (" P:" ++ (hexByte p ++ ("  cycles:" ++ toString cycles))))))))))))

def CycleRecord.description (record : CycleRecord) : String :=
  (if record.isWrite then "write" else "read ") ++ " $" ++ hexWord record.addr ++ "=" ++
    hexByte record.value

/-- One line for each cycle that differs, among the cycles that there are on both sides. -/
def cycleLines : ℕ → List CycleRecord → List CycleRecord → List String
  | k, got :: gots, want :: wants =>
    (if got.addr != want.addr || got.value != want.value || got.isWrite != want.isWrite then
      ["    cycle " ++ toString k ++ ": got " ++ got.description ++ ", want " ++ want.description]
    else []) ++ cycleLines (k + 1) gots wants
  | _, _, _ => []

def gotText (m : Machine TestBus NullHooks) : String :=
  summaryText m.cpu.regs.pc m.cpu.regs.a m.cpu.regs.x m.cpu.regs.y m.cpu.regs.s
    (m.cpu.regs.pack true &&& kStatusMask) m.bus.log.length

def wantText (test : TestCase) : String :=
  summaryText test.final.pc test.final.a test.final.x test.final.y test.final.s
    (test.final.p &&& kStatusMask) test.cycles.length

/-- The lines of the description, each without its line break. -/
def mismatchLines (test : TestCase) (m : Machine TestBus NullHooks) : List String :=
  ["    got  " ++ gotText m, "    want " ++ wantText test] ++ cycleLines 0 m.bus.log test.cycles

def describeMismatch (test : TestCase) (m : Machine TestBus NullHooks) : String :=
  String.join ((mismatchLines test m).map (· ++ "\n"))

/-- The format `%s`: a text ends at its first NUL. -/
def cString (text : List Char) : String := String.ofList (text.takeWhile (·.toNat != 0))

def failText (test : TestCase) (m : Machine TestBus NullHooks) : String :=
  "  FAIL " ++ cString test.name ++ "\n" ++ describeMismatch test m

/-- The format `%5d`. -/
def paddedNumber (n : Int32) : String := String.ofList ((toString n.toInt).toList.leftpad 5 ' ')

/-- The path without its directories. -/
def baseName (path : List Char) : List Char := (path.reverse.takeWhile (· != '/')).reverse

/-- The last line for a file. -/
def FileResult.line (result : FileResult) (path : List Char) : String :=
  padded (String.ofList (baseName path)) ++ " " ++ paddedNumber result.passed ++ " passed " ++
    paddedNumber result.failed ++ " failed" ++ (if result.failed = 0 then "" else "   <<<") ++ "\n"

example : ({ passed := 9998, failed := 2 } : FileResult).line "v1/a9.json".toList =
    "a9.json       9998 passed     2 failed   <<<\n" := by decide +kernel

/-! ### Running a file with its reports -/

/-- The objects that live while a file is read, with what is printed. -/
structure ReportRun where
  run : FileRun := {}
  reported : ℕ := 0
  printed : List String := []

/-- What is done with each case once it is parsed. -/
def checkAndReport (V : Variant) (maxReports : ℤ) (r : ReportRun) : ReportRun :=
  let m := ((caseMachine r.run.bus r.run.test).step V).2
  let run := checkCase V r.run
  if casePasses m r.run.test then { r with run }
  else if r.reported < maxReports then
    { run, reported := r.reported + 1, printed := r.printed ++ [failText r.run.test m] }
  else { r with run }

def runCasesReporting (V : Variant) (maxReports : ℤ) : StateT ReportRun Cursor Unit :=
  array do
    parseInto (fun r : ReportRun => r.run.test)
      (fun test r => { r with run := { r.run with test } }) parseCase
    modify (checkAndReport V maxReports)

/-- The traversal of the text of a file, with what is printed on the way. -/
def runFileReporting (V : Variant) (maxReports : ℤ) (path text : List Char) :
    Except Stop (FileResult × List String) :=
  match (runCasesReporting V maxReports).run {} text.length text with
  | .ok ((_, r), _) => .ok (r.run.result, r.printed ++ [r.run.result.line path])
  | .error e => .error e

/-! ### Reading the texts -/

/-- Texts that begin with parts of the same length agree part by part. -/
theorem append_inj_of_length {a b c d : String} (hlength : a.length = b.length)
    (h : a ++ c = b ++ d) : a = b ∧ c = d := by
  have hlist := congrArg String.toList h
  rw [String.toList_append, String.toList_append] at hlist
  obtain ⟨hfront, hback⟩ := List.append_inj hlist hlength
  exact ⟨String.toList_inj.mp hfront, String.toList_inj.mp hback⟩

theorem hexByte_inj {b b' : U8} (h : hexByte b = hexByte b') : b = b' := by
  rw [← readDigits_hexByte b, h, readDigits_hexByte]

theorem hexWord_inj {w w' : U16} (h : hexWord w = hexWord w') : w = w' := by
  rw [← readDigits_hexWord w, h, readDigits_hexWord]

theorem toString_inj {n n' : ℕ} (h : toString n = toString n') : n = n' := by
  have hdigits (k : ℕ) : Nat.ofDigitChars 10 (toString k).toList 0 = k := by
    rw [Nat.toString_eq_repr, Nat.repr_eq_ofList_toDigits, String.toList_ofList,
      Nat.ofDigitChars_ten_toDigits]
  rw [← hdigits n, h, hdigits]

/-- A byte behind its label. -/
theorem byteField_inj {label rest rest' : String} {b b' : U8}
    (h : label ++ (hexByte b ++ rest) = label ++ (hexByte b' ++ rest')) :
    b = b' ∧ rest = rest' := by
  obtain ⟨-, htail⟩ := append_inj_of_length rfl h
  have hlength : (hexByte b).length = (hexByte b').length :=
    (length_hexByte b).trans (length_hexByte b').symm
  obtain ⟨hbyte, hrest⟩ := append_inj_of_length hlength htail
  exact ⟨hexByte_inj hbyte, hrest⟩

theorem summaryText_inj {pc pc' : U16} {a a' x x' y y' s s' p p' : U8} {n n' : ℕ}
    (h : summaryText pc a x y s p n = summaryText pc' a' x' y' s' p' n') :
    pc = pc' ∧ a = a' ∧ x = x' ∧ y = y' ∧ s = s' ∧ p = p' ∧ n = n' := by
  have hlength : (hexWord pc).length = (hexWord pc').length :=
    (length_hexWord pc).trans (length_hexWord pc').symm
  obtain ⟨-, h⟩ := append_inj_of_length rfl h
  obtain ⟨hpc, h⟩ := append_inj_of_length hlength h
  obtain ⟨ha, h⟩ := byteField_inj h
  obtain ⟨hx, h⟩ := byteField_inj h
  obtain ⟨hy, h⟩ := byteField_inj h
  obtain ⟨hs, h⟩ := byteField_inj h
  obtain ⟨hp, h⟩ := byteField_inj h
  obtain ⟨-, hn⟩ := append_inj_of_length rfl h
  exact ⟨hexWord_inj hpc, ha, hx, hy, hs, hp, toString_inj hn⟩

theorem differs_iff (got want : CycleRecord) :
    (got.addr != want.addr || got.value != want.value || got.isWrite != want.isWrite) = true ↔
      got ≠ want := by
  obtain ⟨addr, value, isWrite⟩ := got
  obtain ⟨addr', value', isWrite'⟩ := want
  simp only [Bool.or_eq_true, bne_iff_ne, ne_eq, CycleRecord.mk.injEq]
  tauto

/-- No line is printed exactly when the cycles that there are on both sides agree. -/
theorem cycleLines_eq_nil_iff (k : ℕ) {got want : List CycleRecord}
    (hlength : got.length = want.length) : cycleLines k got want = [] ↔ got = want := by
  induction got generalizing k want with
  | nil =>
    obtain rfl : want = [] := List.length_eq_zero_iff.mp hlength.symm
    exact ⟨fun _ => rfl, fun _ => rfl⟩
  | cons record got ih =>
    obtain ⟨record', want, rfl⟩ := List.exists_cons_of_length_eq_add_one hlength.symm
    rw [cycleLines, List.append_eq_nil_iff, ih (k + 1) (Nat.succ_inj.mp hlength), List.cons.injEq]
    refine and_congr_left fun _ => ?_
    by_cases h : record = record'
    · rw [if_neg (by rw [differs_iff]; exact not_not_intro h)]
      exact ⟨fun _ => h, fun _ => rfl⟩
    · rw [if_pos ((differs_iff _ _).mpr h)]
      exact ⟨nofun, fun heq => absurd heq h⟩

/-- A report that shows no difference. -/
def ShowsNothing (test : TestCase) (m : Machine TestBus NullHooks) : Prop :=
  ∃ text, mismatchLines test m = ["    got  " ++ text, "    want " ++ text]

theorem showsNothing_iff (test : TestCase) (m : Machine TestBus NullHooks) :
    ShowsNothing test m ↔
      registersMatch m.cpu.regs test.final = true ∧ m.bus.log = test.cycles := by
  have hlines : ShowsNothing test m ↔
      gotText m = wantText test ∧ cycleLines 0 m.bus.log test.cycles = [] := by
    constructor
    · rintro ⟨text, htext⟩
      obtain ⟨hgot, hrest⟩ := List.cons.inj htext
      obtain ⟨hwant, hcycles⟩ := List.cons.inj hrest
      exact ⟨((append_inj_of_length rfl hgot).2).trans (append_inj_of_length rfl hwant).2.symm,
        hcycles⟩
    · rintro ⟨htext, hcycles⟩
      refine ⟨gotText m, ?_⟩
      rw [mismatchLines, hcycles, ← htext]
      rfl
  rw [hlines]
  constructor
  · rintro ⟨htext, hcycles⟩
    obtain ⟨hpc, ha, hx, hy, hs, hp, hlength⟩ := summaryText_inj htext
    refine ⟨?_, (cycleLines_eq_nil_iff 0 hlength).mp hcycles⟩
    simp only [registersMatch, hpc, ha, hx, hy, hs, hp, beq_self_eq_true, Bool.and_self]
  · rintro ⟨hregs, hlog⟩
    simp only [registersMatch, Bool.and_eq_true, beq_iff_eq] at hregs
    obtain ⟨⟨⟨⟨⟨hpc, ha⟩, hx⟩, hy⟩, hs⟩, hp⟩ := hregs
    refine ⟨?_, (cycleLines_eq_nil_iff 0 (by rw [hlog])).mpr hlog⟩
    rw [gotText, wantText, hpc, ha, hx, hy, hs, hp, hlog]

/-- The memory that a case lists is that which its own cycles leave. -/
def TestCase.Consistent (test : TestCase) : Prop :=
  ∀ entry ∈ test.final.ram,
    storeAll test.start.mem (CycleRecord.stores test.cycles) entry.1 = entry.2

/-- **What a report leaves out.** The report of a failing case shows no difference exactly when
its registers and its cycles are right and the case contradicts itself: its own cycles do not
leave the memory that it lists. -/
theorem report_shows_nothing_iff (V : Variant) (bus : TestBus) (test : TestCase)
    (hfails : ¬test.Describes V) :
    ShowsNothing test ((caseMachine bus test).step V).2 ↔
      (test.start.step V).regs = test.final.registers ∧
        test.cycles.map CycleRecord.access = test.modelCycles V ∧ ¬test.Consistent := by
  let m := (caseMachine bus test).stepMachine V
  have harch : m.arch = test.start.step V := stepMachine_caseMachine V bus test
  have hregs : m.cpu.regs = (test.start.step V).regs := congrArg Arch.regs harch
  have hlog : m.bus.log = test.cycles ↔
      test.cycles.map CycleRecord.access = test.modelCycles V := by
    rw [stepMachine_log, log_eq_iff]
  -- the memory after the step is that which the log leaves
  have hmemory : (test.start.step V).mem =
      storeAll test.start.mem (CycleRecord.stores m.bus.log) := by
    have hfollows := step_follows V (caseMachine bus test)
    rw [hfollows.log, (caseMachine_bus bus test).2, List.nil_append, ← harch]
    exact hfollows.memory.trans (by rw [(caseMachine_bus bus test).1]; rfl)
  change ShowsNothing test m ↔ _
  rw [showsNothing_iff, registersMatch_iff, hregs, hlog]
  refine and_congr_right fun hmatch => ⟨fun hcycles => ⟨hcycles, fun hconsistent => ?_⟩, And.left⟩
  refine hfails ⟨hmatch, fun entry hentry => ?_, hcycles⟩
  rw [hmemory, hlog.mpr hcycles]
  exact hconsistent entry hentry

/-- A `NOP` that is said to have changed a byte. -/
theorem report_shows_nothing_nop :
    let test : TestCase := {
      initial := { pc := 512, ram := [(512, 0xEA)] }
      final := { pc := 513, ram := [(768, 1)] }
      cycles := [⟨512, 0xEA, false⟩, ⟨513, 0, false⟩] }
    ShowsNothing test ((caseMachine {} test).step Nmos6502).2 := by
  intro test
  have hfails : ¬test.Describes Nmos6502 := by decide +kernel
  refine (report_shows_nothing_iff Nmos6502 {} test hfails).mpr ⟨?_, ?_, fun h => ?_⟩
  · decide +kernel
  · decide +kernel
  · exact absurd (h (768, 1) (List.mem_singleton.mpr rfl)) (by decide +kernel)

/-! ### The output for a file -/

/-- The report of a case on its own. -/
def TestCase.report (V : Variant) (test : TestCase) : String :=
  failText test ((caseMachine {} test).step V).2

/-- Nothing of the bus before the case shows in its report. -/
theorem failText_eq (V : Variant) (bus : TestBus) (test : TestCase) :
    failText test ((caseMachine bus test).step V).2 = test.report V := by
  have hregs : ((caseMachine bus test).stepMachine V).cpu.regs =
      ((caseMachine {} test).stepMachine V).cpu.regs :=
    congrArg Arch.regs ((stepMachine_caseMachine V bus test).trans
      (stepMachine_caseMachine V {} test).symm)
  have hlog : ((caseMachine bus test).stepMachine V).bus.log =
      ((caseMachine {} test).stepMachine V).bus.log := by
    rw [stepMachine_log, stepMachine_log]
  change failText test ((caseMachine bus test).stepMachine V) =
    failText test ((caseMachine {} test).stepMachine V)
  simp only [failText, describeMismatch, mismatchLines, gotText, hregs, hlog]

/-- Check one case, with its report. -/
def ReportRun.check (V : Variant) (maxReports : ℤ) (r : ReportRun) (test : TestCase) : ReportRun :=
  checkAndReport V maxReports { r with run := { r.run with test } }

/-- **One case.** It is counted, and it is reported if it fails while there are reports left. -/
theorem ReportRun.check_eq (V : Variant) (maxReports : ℤ) (r : ReportRun) (test : TestCase) :
    (r.check V maxReports test).run = checkCase V { r.run with test } ∧
      (r.check V maxReports test).reported =
        r.reported + (if ¬test.Describes V ∧ r.reported < maxReports then 1 else 0) ∧
      (r.check V maxReports test).printed =
        r.printed ++
          if ¬test.Describes V ∧ r.reported < maxReports then [test.report V] else [] := by
  have hpasses := casePasses_iff V r.run.bus test
  rw [← failText_eq V r.run.bus test]
  simp only [ReportRun.check, checkAndReport, ← hpasses]
  cases casePasses ((caseMachine r.run.bus test).step V).2 test <;>
    by_cases hleft : (r.reported : ℤ) < maxReports <;> simp [hleft]

/-- **All cases.** The reports are those of the first failing cases. -/
theorem foldl_check (V : Variant) (maxReports : ℤ) (tests : List TestCase) (r : ReportRun) :
    (tests.foldl (ReportRun.check V maxReports) r).run =
        tests.foldl (fun run test => checkCase V { run with test }) r.run ∧
      (tests.foldl (ReportRun.check V maxReports) r).printed = r.printed ++
        ((tests.filter fun test => ¬test.Describes V).take
          (maxReports - r.reported).toNat).map (TestCase.report V) := by
  induction tests generalizing r with
  | nil => simp
  | cons test tests ih =>
    obtain ⟨hrun, hreported, hprinted⟩ := r.check_eq V maxReports test
    obtain ⟨hrun', hprinted'⟩ := ih (r.check V maxReports test)
    rw [List.foldl_cons, List.foldl_cons, hrun', hprinted', hrun, hreported, hprinted]
    refine ⟨rfl, ?_⟩
    by_cases hdescribes : test.Describes V
    · rw [if_neg (by tauto), if_neg (by tauto), List.filter_cons_of_neg (by simpa using hdescribes)]
      simp only [Nat.add_zero, List.append_nil]
    · rw [List.filter_cons_of_pos (by simpa using hdescribes)]
      by_cases hleft : (r.reported : ℤ) < maxReports
      · have hcount : (maxReports - r.reported).toNat =
            (maxReports - (r.reported + 1 : ℕ)).toNat + 1 := by omega
        rw [if_pos ⟨hdescribes, hleft⟩, if_pos ⟨hdescribes, hleft⟩, hcount, List.take_succ_cons,
          List.map_cons, List.append_assoc, List.singleton_append]
      · have hcount : (maxReports - r.reported).toNat = 0 := by omega
        rw [if_neg (by tauto), if_neg (by tauto), Nat.add_zero, hcount, List.append_nil,
          List.take_zero, List.take_zero]

/-- The cases of a text are checked as they are without reports. -/
theorem runCasesReporting_run (V : Variant) (maxReports : ℤ) (r : ReportRun) :
    (runCasesReporting V maxReports).run r =
      arrayOf readCase >>= fun cases => pure ((), cases.foldl
        (fun r members => r.check V maxReports (r.run.test.update members)) r) := by
  refine array_run _ _ (fun r => ?_) r
  simp [parseInto_run parseCase_run, ReportRun.check]

/-- The cases that are reported on are those that are visited. -/
theorem foldl_check_next (V : Variant) (maxReports : ℤ)
    (document : List (List Char × List CaseMember)) :
    let visits := document.foldl Visits.next {}
    let r := (visits.seen.map Prod.snd).foldl (ReportRun.check V maxReports) {}
    (document.map Prod.snd).foldl
        (fun r members => r.check V maxReports (r.run.test.update members)) {} = r ∧
      r.run.test = visits.test := by
  induction document using List.reverseRecOn with
  | nil => exact ⟨rfl, rfl⟩
  | append_singleton document entry ih =>
    obtain ⟨hr, htest⟩ := ih
    simp only [List.map_append, List.foldl_append, List.map_cons, List.map_nil, List.foldl_cons,
      List.foldl_nil, Visits.next]
    rw [hr, htest, (ReportRun.check_eq V maxReports _ _).1]
    exact ⟨rfl, rfl⟩

/-- What is printed for a list of cases. -/
def reportCases (V : Variant) (maxReports : ℤ) (path : List Char) (tests : List TestCase) :
    List String :=
  ((tests.filter fun test => ¬test.Describes V).take maxReports.toNat).map (TestCase.report V) ++
    [(countCases V tests).line path]

/-- **The output for a file.** Whatever the text, the runner prints the reports of the first
failing cases, as many as are asked for, each as if its case were alone, and then counts the
cases that describe the programmer's model and those that do not. -/
theorem runFileReporting_eq (V : Variant) (maxReports : ℤ) (path text : List Char) :
    runFileReporting V maxReports path text =
      match casesOf text with
      | .ok cases => .ok (countCases V (cases.map Prod.snd),
          reportCases V maxReports path (cases.map Prod.snd))
      | .error e => .error e := by
  rw [runFileReporting, casesOf, runCasesReporting_run, visitCases_run, arrayOf_readCase,
    bind_map_left, Scanner.bind_apply, Scanner.bind_apply]
  cases readDocument text.length text with
  | error e => rfl
  | ok document =>
    let tests := (document.1.foldl Visits.next {}).seen.map Prod.snd
    have hr := (foldl_check_next V maxReports document.1).1
    obtain ⟨hrun, hprinted⟩ := foldl_check V maxReports tests {}
    have hresult : (tests.foldl (ReportRun.check V maxReports) {}).run.result =
        countCases V tests := by
      rw [hrun, countCases_eq]
      exact foldl_checkCase_start V tests
    have hleft : maxReports - (({} : ReportRun).reported : ℤ) = maxReports := Int.sub_zero _
    refine congrArg Except.ok ?_
    rw [hr, hresult, hprinted, hleft]
    rfl

end Mos6502.Harness
