import Mos6502.Effects.Watch
import Mos6502.Harness.Json
import Mos6502.LinearDisassembly
import Mos6502.ProgramRuns

/-!
# The functional test runner

A test image signals completion by trapping: it branches to itself. The runner steps the
processor and takes the first instruction that leaves the program counter where it was for
the trap. It looks at a single step, so the main results say what is special about that
step: which instructions can bring it about, and that the processor really never gets away.
-/

namespace Mos6502

open Effects

namespace RunKlaus

/-! ### The command line -/

def digitValue (c : Char) : ℕ :=
  if c.isDigit then c.toNat - '0'.toNat
  else if 'a' ≤ c && c ≤ 'f' then c.toNat - 'a'.toNat + 10
  else if 'A' ≤ c && c ≤ 'F' then c.toNat - 'A'.toNat + 10
  else 16

/-- The base that a number announces in base zero, and its digits. -/
def splitBase : List Char → ℕ × List Char
  | '0' :: x :: d :: text =>
    if (x = 'x' || x = 'X') && digitValue d < 16 then (16, d :: text)
    else (8, '0' :: x :: d :: text)
  | '0' :: text => (8, '0' :: text)
  | text => (10, text)

/-- `std::strtoul` in base zero. A value that does not fit is replaced by the largest one. -/
def strtoul (text : List Char) : U64 :=
  let (sign, unsigned) := Json.splitSign (text.dropWhile Json.isspace)
  let (base, digits) := splitBase unsigned
  let numeral := digits.takeWhile (digitValue · < base)
  let value := numeral.foldl (fun n c => n * base + digitValue c) 0
  if 2 ^ 64 ≤ value then -1 else BitVec.ofInt 64 (sign * value)

example : strtoul "0x3469".toList = 0x3469 ∧ strtoul "010".toList = 8 ∧
    strtoul "-1".toList = -1 := by decide

/-! ### The run of an image -/

/-- How a run ends, with what is reported about it. -/
inductive Ending
  | passed (pc : U16) (cycles : U64)
  | trapped (pc : U16) (regs : Registers)
  | jammed (pc : U16)
  | noTrap (pc : U16)
  deriving DecidableEq, Repr

/-- The loop of the runner: at most `limit` more instructions. -/
def runLoop (successPc : U16) : ℕ → Machine FlatBus NullHooks → Ending
  | 0, m => .noTrap m.cpu.regs.pc
  | limit + 1, m =>
    let pc := m.cpu.regs.pc
    let m := (m.step Nmos6502).2
    if m.cpu.regs.pc = pc then
      if pc = successPc then .passed pc m.cpu.cycles else .trapped pc m.cpu.regs
    else if m.cpu.jammed then .jammed pc
    else runLoop successPc limit m

/-- The processor at the start of the loop. Of a file, as much as fits into memory is read. -/
def testMachine (image : List U8) (startPc : U16) : Machine FlatBus NullHooks :=
  let m := (Machine.fresh {} (({} : FlatBus).load 0x0000 (image.take 65536))).reset
  { m with cpu := { m.cpu with regs := { m.cpu.regs with pc := startPc } } }

@[irreducible] def kInstructions : ℕ := 500000000

/-- What the program prints and returns. -/
structure Outcome where
  out : String := ""
  err : String := ""
  status : ℕ
  deriving DecidableEq, Repr

def Ending.report (successPc : U16) : Ending → Outcome
  | .passed pc cycles =>
    { out := "PASS - trapped at success address $" ++ hexWord pc ++ " after " ++
        toString cycles.toNat ++ " cycles\n"
      status := 0 }
  | .trapped pc r =>
    { out := "FAIL - trapped at $" ++ hexWord pc ++ " (expected $" ++ hexWord successPc ++ ")\n" ++
        "       A:" ++ hexByte r.a ++ " X:" ++ hexByte r.x ++ " Y:" ++ hexByte r.y ++ " P:" ++
        hexByte (r.pack false) ++ " SP:" ++ hexByte r.s ++ "\n"
      status := 1 }
  | .jammed pc => { out := "FAIL - jammed at $" ++ hexWord pc ++ "\n", status := 1 }
  | .noTrap pc => { out := "FAIL - no trap reached; last PC $" ++ hexWord pc ++ "\n", status := 1 }

/-- The address that an argument gives, if it is there. -/
def addressArgument (arg : Option String) (default : U16) : U16 :=
  arg.elim default fun arg => (strtoul arg.toList).setWidth 16

/-- The program. A file that opens is given by the bytes that can be read from it. -/
def main (fopen : String → Option (List U8)) (argv : List String) : Outcome :=
  match argv with
  | _ :: path :: args =>
    let startPc := addressArgument args[0]? 0x0400
    let successPc := addressArgument args[1]? 0x3469
    match fopen path with
    | none => { err := "cannot open " ++ path ++ "\n", status := 2 }
    | some image =>
      let report := (runLoop successPc kInstructions (testMachine image startPc)).report successPc
      { report with
        out := "loaded " ++ toString (image.take 65536).length ++ " bytes from " ++ path ++ "\n" ++
          report.out }
  | _ =>
    { err := "usage: " ++ argv.headD "" ++ " <image.bin> [start_pc] [success_pc]\n", status := 2 }

end RunKlaus

/-! ### Instructions that leave the program counter where it was -/

theorem Instr.consumed_le (i : Instr) : i.consumed ≤ 2 := by
  have hmode (mode : OperandMode) : mode.toMode.operandBytes ≤ 2 := by cases mode <;> decide
  cases i with
  | ReadInstr op mode | WriteInstr op mode | RmwInstr op mode => exact hmode mode
  | UnstableStoreInstr op mode => exact hmode mode.toOperandMode
  | SpecialInstr op mode => cases op <;> simp [consumed]
  | _ => simp [consumed]

namespace Arch

variable {V : Variant} {a b : Arch} {n : ℕ}

/-- The instruction at the program counter leads back to itself. -/
def Rests (V : Variant) (a : Arch) : Prop := (a.step V).regs.pc = a.regs.pc

instance : Decidable (a.Rests V) := inferInstanceAs (Decidable (_ = _))

/-- Past the opcode and at most two operand bytes is never back at the opcode. -/
private theorem past_ne (pc : U16) {k : ℕ} (hk : k ≤ 2) : pc + 1 + BitVec.ofNat 16 k ≠ pc := by
  intro h
  have hnat := congrArg BitVec.toNat h
  have := pc.isLt
  simp only [BitVec.toNat_add, BitVec.toNat_ofNat, BitVec.ofNat_eq_ofNat] at hnat
  omega

/-- Only a taken branch and the special instructions other than JAM lead back to themselves. -/
theorem Rests.transfers (h : a.Rests V) :
    (∃ cond mode, a.next = .BranchInstr cond mode ∧ cond.test a.regs = true) ∨
      ∃ op mode, a.next = .SpecialInstr op mode ∧ op ≠ .JAM := by
  by_cases hfalls : a.next.fallsThrough (a.advance 1).regs = true
  · refine absurd h ?_
    rw [Rests, step, Instr.effect_pc V a.next (a.advance 1) hfalls]
    exact past_ne a.regs.pc a.next.consumed_le
  · cases hnext : a.next with
    | BranchInstr cond mode =>
      have htest : cond.test (a.advance 1).regs = cond.test a.regs := by cases cond <;> rfl
      rw [hnext, Instr.fallsThrough, htest] at hfalls
      exact .inl ⟨cond, mode, rfl, by simpa using hfalls⟩
    | SpecialInstr op mode =>
      refine .inr ⟨op, mode, rfl, ?_⟩
      rintro rfl
      rw [Rests, step, hnext] at h
      exact past_ne a.regs.pc (Nat.zero_le 2) ((BitVec.add_zero _).trans h)
    | _ => rw [hnext] at hfalls; exact absurd rfl hfalls

theorem Rests.not_jams (h : a.Rests V) : a.next.jams = false := by
  rcases h.transfers with ⟨cond, mode, hnext, _⟩ | ⟨op, mode, hnext, hjam⟩
  · rw [hnext]
    rfl
  · rw [hnext]
    cases op <;> first | rfl | exact absurd rfl hjam

end Arch

/-! ### What the runner reports -/

namespace RunKlaus

variable {image : List U8} {startPc successPc : U16} {limit k : ℕ}
  {m : Machine FlatBus NullHooks}

/-- The state after `k` instructions of an image. -/
def state (image : List U8) (startPc : U16) (k : ℕ) : Arch :=
  (Arch.step Nmos6502)^[k] (testMachine image startPc).arch

theorem state_succ (image : List U8) (startPc : U16) (k : ℕ) :
    state image startPc (k + 1) = (state image startPc k).step Nmos6502 :=
  Function.iterate_succ_apply' _ _ _

/-- The instruction number `k` is one at which the runner stops. -/
def Stops (image : List U8) (startPc : U16) (k : ℕ) : Prop :=
  (state image startPc k).Rests Nmos6502 ∨ (state image startPc k).next.jams = true

/-- What the runner has to say about one step. -/
def observe (successPc : U16) (m m' : Machine FlatBus NullHooks) : Option Ending :=
  if m'.cpu.regs.pc = m.cpu.regs.pc then
    some (if m.cpu.regs.pc = successPc then .passed m.cpu.regs.pc m'.cpu.cycles
      else .trapped m.cpu.regs.pc m'.cpu.regs)
  else if m'.cpu.jammed then some (.jammed m.cpu.regs.pc)
  else none

/-- The loop is a watched run. -/
theorem runLoop_eq (successPc : U16) (limit : ℕ) (m : Machine FlatBus NullHooks) :
    runLoop successPc limit m =
      (watch (Machine.stepMachine Nmos6502) (observe successPc) limit m).getD
        (.noTrap ((Machine.stepMachine Nmos6502)^[limit] m).cpu.regs.pc) := by
  induction limit generalizing m with
  | zero => rfl
  | succ limit ih =>
    by_cases hpc : (Machine.stepMachine Nmos6502 m).cpu.regs.pc = m.cpu.regs.pc
    · simp [runLoop, watch, observe, Machine.step, hpc]
    · cases hjammed : (Machine.stepMachine Nmos6502 m).cpu.jammed with
      | true => simp [runLoop, watch, observe, Machine.step, hpc, hjammed]
      | false =>
        simp only [runLoop, watch, observe, Machine.step, hpc, hjammed, if_false,
          Bool.false_eq_true]
        exact ih _

theorem testMachine_calm (image : List U8) (startPc : U16) : (testMachine image startPc).Calm := by
  obtain ⟨hjammed, hnmi, hirq, hpins⟩ :=
    Machine.Calm.of_reset (m := Machine.fresh {} (({} : FlatBus).load 0 (image.take 65536))) rfl rfl
  exact ⟨hjammed, hnmi, hirq, hpins⟩

theorem testMachine_cycles (image : List U8) (startPc : U16) :
    (testMachine image startPc).cpu.cycles = 7 := by
  let start := Machine.fresh {} (({} : FlatBus).load 0x0000 (image.take 65536))
  have hreset := start.reset_clock.2
  rw [Machine.resetAccesses_eq] at hreset
  exact hreset.trans (by simp [resetReads, start, Machine.fresh])

/-- What there is to say about the step of an undisturbed processor. -/
theorem observe_eq (successPc : U16) (h : m.Calm) :
    observe successPc m (m.stepMachine Nmos6502) =
      if m.arch.Rests Nmos6502 then
        some (if m.arch.regs.pc = successPc then
          .passed m.arch.regs.pc (m.stepMachine Nmos6502).cpu.cycles
        else .trapped m.arch.regs.pc (m.arch.step Nmos6502).regs)
      else if m.arch.next.jams then some (.jammed m.arch.regs.pc)
      else none := by
  have hregs : (m.stepMachine Nmos6502).cpu.regs = (m.arch.step Nmos6502).regs :=
    congrArg Arch.regs h.stepMachine_arch
  rw [observe, hregs, h.step_jammed]
  rfl

/-- As long as there is nothing to say, the processor runs as the programmer's model, and no
instruction is one to stop at. -/
theorem of_silent (hsilent : ∀ j < k, observe successPc
      ((Machine.stepMachine Nmos6502)^[j] (testMachine image startPc))
      ((Machine.stepMachine Nmos6502)^[j + 1] (testMachine image startPc)) = none) :
    (testMachine image startPc).arch.Unjammed Nmos6502 k ∧ ∀ j < k, ¬ Stops image startPc j := by
  have hcalm := testMachine_calm image startPc
  have hrun : (testMachine image startPc).arch.Unjammed Nmos6502 k := by
    refine hcalm.unjammed fun j hj => ?_
    have hnone := hsilent j hj
    rw [observe] at hnone
    split_ifs at hnone with hpc hjammed
    simpa using hjammed
  refine ⟨hrun, fun j hj => ?_⟩
  obtain ⟨hj', harch', _⟩ := hcalm.iterate (hrun.mono (Nat.le_of_lt hj))
  have hnone := hsilent j hj
  rw [Function.iterate_succ_apply', observe_eq successPc hj', harch'] at hnone
  split_ifs at hnone with hrests hjams
  rintro (hr | hj'')
  · exact hrests hr
  · exact hjams hj''

/-- **How a run ends**: at the first instruction that leads back to itself or jams. -/
theorem runLoop_ends (image : List U8) (startPc successPc : U16) (limit : ℕ) :
    (∃ k < limit, (∀ j < k, ¬ Stops image startPc j) ∧
      (((state image startPc k).Rests Nmos6502 ∧
          runLoop successPc limit (testMachine image startPc) =
            if (state image startPc k).regs.pc = successPc then
              .passed (state image startPc k).regs.pc (7 + BitVec.ofNat 64
                (spent (Arch.step Nmos6502) (Arch.cost Nmos6502) (k + 1) (state image startPc 0)))
            else .trapped (state image startPc k).regs.pc (state image startPc (k + 1)).regs) ∨
        ((state image startPc k).next.jams = true ∧
          runLoop successPc limit (testMachine image startPc) =
            .jammed (state image startPc k).regs.pc))) ∨
    ((∀ k < limit, ¬ Stops image startPc k) ∧
      runLoop successPc limit (testMachine image startPc) =
        .noTrap (state image startPc limit).regs.pc) := by
  have hcalm := testMachine_calm image startPc
  rw [runLoop_eq]
  cases hwatch : watch (Machine.stepMachine Nmos6502) (observe successPc) limit
      (testMachine image startPc) with
  | none =>
    obtain ⟨hrun, hnone⟩ := of_silent (watch_eq_none.mp hwatch)
    obtain ⟨_, harch, _⟩ := hcalm.iterate hrun
    refine .inr ⟨hnone, ?_⟩
    rw [state, ← harch]
    rfl
  | some ending =>
    obtain ⟨k, hk, hfirst⟩ := watch_eq_some.mp hwatch
    obtain ⟨hrun, hnone⟩ := of_silent hfirst.silent
    obtain ⟨hcalm', harch, _⟩ := hcalm.iterate hrun
    have hstate : ((Machine.stepMachine Nmos6502)^[k] (testMachine image startPc)).arch =
        state image startPc k := harch
    have hcycles := Machine.iterate_cycles Nmos6502 (testMachine image startPc) (k + 1)
    have hreported := hfirst.reported
    rw [(hcalm.iterate_succ hrun).2, testMachine_cycles] at hcycles
    rw [Function.iterate_succ_apply'] at hcycles hreported
    rw [observe_eq successPc hcalm', hstate, hcycles, ← state_succ] at hreported
    refine .inl ⟨k, hk, hnone, ?_⟩
    by_cases hrests : (state image startPc k).Rests Nmos6502
    · rw [if_pos hrests] at hreported
      exact .inl ⟨hrests, (Option.some.inj hreported).symm⟩
    · rw [if_neg hrests] at hreported
      split_ifs at hreported with hjams
      exact .inr ⟨hjams, (Option.some.inj hreported).symm⟩

/-- The runner passes an image at its instruction number `k`: the first one that leads back to
itself or jams leads back to the success address. -/
structure PassesAt (image : List U8) (startPc successPc : U16) (k : ℕ) : Prop where
  within : k < kInstructions
  first : ∀ j < k, ¬ Stops image startPc j
  rests : (state image startPc k).Rests Nmos6502
  success : (state image startPc k).regs.pc = successPc

/-- The cycles since the reset, once the instruction number `k` is executed. -/
def cyclesAfter (image : List U8) (startPc : U16) (k : ℕ) : ℕ :=
  7 + spent (Arch.step Nmos6502) (Arch.cost Nmos6502) (k + 1) (state image startPc 0)

theorem runLoop_of_passesAt (h : PassesAt image startPc successPc k) :
    runLoop successPc kInstructions (testMachine image startPc) =
      .passed successPc (BitVec.ofNat 64 (cyclesAfter image startPc k)) := by
  have hcycles : BitVec.ofNat 64 (cyclesAfter image startPc k) = 7 + BitVec.ofNat 64
      (spent (Arch.step Nmos6502) (Arch.cost Nmos6502) (k + 1) (state image startPc 0)) :=
    BitVec.ofNat_add ..
  rcases runLoop_ends image startPc successPc kInstructions with
    ⟨j, _, hfirst, hj⟩ | ⟨hnone, _⟩
  · have hstops : Stops image startPc j := hj.imp And.left And.left
    obtain rfl : j = k := by
      rcases Nat.lt_trichotomy j k with hlt | heq | hgt
      · exact absurd hstops (h.first j hlt)
      · exact heq
      · exact absurd (.inl h.rests) (hfirst k hgt)
    rcases hj with ⟨_, hending⟩ | ⟨hjams, _⟩
    · rw [hending, if_pos h.success, h.success, hcycles]
    · rw [h.rests.not_jams] at hjams
      cases hjams
  · exact absurd (.inl h.rests) (hnone k h.within)

theorem passesAt_of_status
    (h : ((runLoop successPc kInstructions (testMachine image startPc)).report successPc).status =
      0) : ∃ k, PassesAt image startPc successPc k := by
  rcases runLoop_ends image startPc successPc kInstructions with
    ⟨k, hk, hfirst, ⟨hrests, hending⟩ | ⟨_, hending⟩⟩ | ⟨_, hending⟩
  · rw [hending] at h
    split_ifs at h with hpc
    · exact ⟨k, hk, hfirst, hrests, hpc⟩
    · cases h
  · rw [hending] at h
    cases h
  · rw [hending] at h
    cases h

private theorem report_passed (pc : U16) (cycles : U64) :
    ((Ending.passed pc cycles).report successPc).out =
      "PASS - trapped at success address $" ++ hexWord pc ++ " after " ++
        toString cycles.toNat ++ " cycles\n" := rfl

/-- **The verdict of the runner.** It returns zero exactly when its file opens and the image
passes, and what it prints then are the cycles since the reset. -/
theorem main_passes_iff (fopen : String → Option (List U8)) (program path : String)
    (args : List String) :
    let startPc := addressArgument args[0]? 0x0400
    let successPc := addressArgument args[1]? 0x3469
    let outcome := main fopen (program :: path :: args)
    (outcome.status = 0 ↔ ∃ image, fopen path = some image ∧
      ∃ k, PassesAt image startPc successPc k) ∧
    ∀ image k, fopen path = some image → PassesAt image startPc successPc k →
      outcome.out = "loaded " ++ toString (image.take 65536).length ++ " bytes from " ++ path ++
        "\n" ++ ("PASS - trapped at success address $" ++ hexWord successPc ++ " after " ++
          toString (cyclesAfter image startPc k) ++ " cycles\n") := by
  intro startPc successPc outcome
  have houtcome (image : List U8) (himage : fopen path = some image) :
      outcome.status = ((runLoop successPc kInstructions
          (testMachine image startPc)).report successPc).status ∧
        outcome.out = "loaded " ++ toString (image.take 65536).length ++ " bytes from " ++ path ++
          "\n" ++ ((runLoop successPc kInstructions
            (testMachine image startPc)).report successPc).out := by
    simp only [outcome, main, himage]
    exact ⟨rfl, rfl⟩
  refine ⟨⟨fun hstatus => ?_, ?_⟩, fun image k himage hpasses => ?_⟩
  · cases himage : fopen path with
    | none => simp [outcome, main, himage] at hstatus
    | some image =>
      rw [(houtcome image himage).1] at hstatus
      exact ⟨image, rfl, passesAt_of_status hstatus⟩
  · rintro ⟨image, himage, k, hpasses⟩
    rw [(houtcome image himage).1, runLoop_of_passesAt hpasses]
    rfl
  · -- Eleven cycles an instruction do not wrap the counter.
    have hwrap : cyclesAfter image startPc k < 2 ^ 64 := by
      have := Arch.spent_le Nmos6502 (state image startPc 0) (k + 1)
      have := hpasses.within
      rw [kInstructions] at this
      rw [cyclesAfter]
      omega
    have hcount : (BitVec.ofNat 64 (cyclesAfter image startPc k)).toNat =
        cyclesAfter image startPc k := (BitVec.toNat_ofNat ..).trans (Nat.mod_eq_of_lt hwrap)
    have hout := (houtcome image himage).2
    rw [runLoop_of_passesAt hpasses, report_passed, hcount] at hout
    exact hout

/-- A return that lands on itself is reported as a trap, although the next one goes on. -/
example :
    let image := [0x9A, 0x60] ++ List.replicate 254 0x00 ++ [0x00, 0x00, 0x00, 0x34, 0x12]
    runLoop 0x0001 2 (testMachine image 0x0000) = .passed 0x0001 15 ∧
      ((Machine.stepMachine Nmos6502)^[3] (testMachine image 0x0000)).cpu.regs.pc = 0x1235 := by
  decide +kernel

end RunKlaus

end Mos6502
