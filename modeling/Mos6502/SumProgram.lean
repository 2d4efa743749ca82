import Mathlib.Algebra.BigOperators.Intervals
import Mos6502.MachineCode

/-!
# The end-to-end program

The last of the tests adds the numbers from a count down to one in a loop, and checks the
sum and the cycles of the whole run for a count of ten. Here the count is any byte.
-/

namespace Mos6502

open Effects

namespace TestProgram

/-- The rest of the loop that writes the code of a test, from `addr` on. -/
def writeCode (bus : FlatBus) (addr : U16) : List U8 → FlatBus
  | [] => bus
  | byte :: code => writeCode (bus.poke addr byte) (addr + 1) code

/-- A processor sitting at `org` with the given code, already reset. -/
def testMachine (code : List U8) (org : U16) : Machine FlatBus NullHooks :=
  let m := (Machine.fresh {} (({} : FlatBus).setVector kResetVector org)).reset
  { m with bus := (writeCode m.bus org code).resetCycles }

/-- Step until the processor is jammed. There is no result when it is not within `fuel` steps. -/
def runUntilJammed : ℕ → Machine FlatBus NullHooks → Option (Machine FlatBus NullHooks)
  | 0, m => if m.cpu.jammed then some m else none
  | fuel + 1, m => if m.cpu.jammed then some m else runUntilJammed fuel (m.stepMachine Nmos6502)

/-- The program, with its count. -/
def sumProgram (n : U8) : List U8 :=
  [0xA9, 0x00,        -- $0400  LDA #$00      total = 0
   0xA2, n,           -- $0402  LDX #n
   0x18,              -- $0404  CLC           loop:
   0x86, 0x10,        -- $0405  STX $10
   0x65, 0x10,        -- $0407  ADC $10       total += n
   0xCA,              -- $0409  DEX
   0xD0, 0xF8,        -- $040A  BNE loop
   0x85, 0x11,        -- $040C  STA $11
   0x02]              -- $040E  JAM           stop

theorem writeCode_eq (bus : FlatBus) (addr : U16) (code : List U8) :
    writeCode bus addr code = bus.load addr code := by
  suffices h : ∀ k, writeCode bus (addr + BitVec.ofNat 16 k) code =
      { bus with memory := FlatBus.loadFrom addr k code bus.memory } by
    have h0 := h 0
    rw [BitVec.add_zero] at h0
    exact h0
  intro k
  induction code generalizing bus k with
  | nil => rfl
  | cons byte code ih =>
    have hnext : addr + BitVec.ofNat 16 k + 1 = addr + BitVec.ofNat 16 (k + 1) := by
      rw [BitVec.ofNat_add, BitVec.add_assoc]
      rfl
    have haddr : addr + BitVec.ofNat 16 k = BitVec.ofNat 16 (addr.toNat + k) := by
      rw [BitVec.ofNat_add, BitVec.ofNat_toNat, BitVec.setWidth_eq]
    rw [writeCode, hnext, ih, FlatBus.loadFrom, haddr]
    rfl

theorem runUntilJammed_eq {k : ℕ} {m : Machine FlatBus NullHooks}
    (hfree : ∀ j < k, ((Machine.stepMachine Nmos6502)^[j] m).cpu.jammed = false)
    (hjammed : ((Machine.stepMachine Nmos6502)^[k] m).cpu.jammed = true) {fuel : ℕ}
    (hfuel : k ≤ fuel) :
    runUntilJammed fuel m = some ((Machine.stepMachine Nmos6502)^[k] m) := by
  induction k generalizing m fuel with
  | zero =>
    rw [Function.iterate_zero_apply] at hjammed ⊢
    cases fuel <;> simp only [runUntilJammed, hjammed, if_true]
  | succ k ih =>
    have hm : m.cpu.jammed = false := hfree 0 (Nat.succ_pos k)
    cases fuel with
    | zero => omega
    | succ fuel =>
      simp only [runUntilJammed, hm, Bool.false_eq_true, if_false, Function.iterate_succ_apply]
      exact ih (fun j hj => hfree (j + 1) (by omega)) hjammed (by omega)

/-! ### The states of the program -/

/-- The program goes on at its byte `k`, with the sum and the count that it has reached. -/
structure At (n : U8) (k : ℕ) (total x : U8) (a : Arch) : Prop
    extends Located 0x0400 (sumProgram n) k a where
  total : a.regs.a = total
  x : a.regs.x = x
  d : a.regs.d = false

variable {n total x : U8} {k : ℕ} {a : Arch}

theorem length_sumProgram (n : U8) : (sumProgram n).length = 15 := rfl

theorem At.next (h : At n k total x a) (hk : k < 15) : a.next = instr (sumProgram n)[k] :=
  h.toLocated.next hk

theorem At.lo (h : At n k total x a) (hk : k + 1 < 15) :
    (a.advance 1).lo = (sumProgram n)[k + 1] := h.toLocated.lo hk

/-- A store into page zero does not reach the program. -/
theorem At.store_code (h : At n k total x a) (zp value : U8) :
    Loaded 0x0400 (sumProgram n) (Function.update a.mem (zp.setWidth 16) value) := by
  refine h.code.update value fun k hk heq => ?_
  have hzp := zp.isLt
  have hnat := congrArg BitVec.toNat heq
  rw [length_sumProgram] at hk
  simp only [BitVec.toNat_add, BitVec.toNat_ofNat, BitVec.toNat_setWidth, BitVec.ofNat_eq_ofNat]
    at hnat
  omega

/-! ### The instructions -/

theorem lda : Code Nmos6502 (At n 0 total x) 1 2 (At n 2 0x00 x) :=
  Code.instr (.ReadInstr .LDA .Immediate) rfl fun _ h =>
    ⟨h.next (by decide), rfl, ⟨h.code, h.pc_past⟩, h.lo (by decide), h.x, h.d⟩

theorem ldx : Code Nmos6502 (At n 2 total x) 1 2 (At n 4 total n) :=
  Code.instr (.ReadInstr .LDX .Immediate) rfl fun _ h =>
    ⟨h.next (by decide), rfl, ⟨h.code, h.pc_past⟩, h.total, h.lo (by decide), h.d⟩

theorem clc : Code Nmos6502 (At n 4 total x) 1 2
    fun a => At n 5 total x a ∧ a.regs.c = false :=
  Code.instr (.ImpliedInstr .CLC .Implied) rfl fun _ h =>
    ⟨h.next (by decide), rfl, ⟨⟨h.code, h.pc_next⟩, h.total, h.x, h.d⟩, rfl⟩

theorem stx : Code Nmos6502 (fun a => At n 5 total x a ∧ a.regs.c = false) 1 3
    fun a => At n 7 total x a ∧ a.regs.c = false ∧ a.mem 0x0010 = x := by
  refine Code.instr (.WriteInstr .STX .ZeroPage) rfl fun a ⟨h, hc⟩ => ?_
  have haddr : OperandMode.ZeroPage.address (a.advance 1) = 0x0010 :=
    congrArg (BitVec.setWidth 16) (h.lo (by decide))
  refine ⟨h.next (by decide), rfl, ⟨⟨?_, h.pc_past⟩, h.total, h.x, h.d⟩, hc, ?_⟩
  · change Loaded _ _ (Function.update a.mem (OperandMode.ZeroPage.address (a.advance 1)) _)
    rw [haddr]
    exact h.store_code 0x10 _
  · change Function.update a.mem (OperandMode.ZeroPage.address (a.advance 1)) a.regs.x 0x0010 = x
    rw [haddr, Function.update_self, h.x]

theorem adc : Code Nmos6502
    (fun a => At n 7 total x a ∧ a.regs.c = false ∧ a.mem 0x0010 = x) 1 3
    (At n 9 (total + x) x) := by
  refine Code.instr (.ReadInstr .ADC .ZeroPage) rfl fun a ⟨h, hc, hmem⟩ => ?_
  have haddr : OperandMode.ZeroPage.address (a.advance 1) = 0x0010 :=
    congrArg (BitVec.setWidth 16) (h.lo (by decide))
  let before := (OperandMode.ZeroPage.consume (a.advance 1)).regs
  have heffect : (Instr.ReadInstr .ADC .ZeroPage).effect Nmos6502 (a.advance 1) =
      ⟨addWithCarry Nmos6502 x before, a.mem⟩ := by
    change (⟨addWithCarry Nmos6502 (a.mem (OperandMode.ZeroPage.address (a.advance 1))) before,
      a.mem⟩ : Arch) = _
    rw [haddr, hmem]
  have hsum : (addWithCarry Nmos6502 x before).a = total + x := by
    rw [addWithCarry_of_clear (r := before) h.d hc, ← h.total]
    rfl
  obtain ⟨_, _, _, _, _, hkeeps⟩ := addWithCarry_keeps Nmos6502 x before
  refine ⟨h.next (by decide), rfl, ?_⟩
  rw [heffect]
  refine ⟨⟨h.code, ?_⟩, hsum, ?_, ?_⟩
  · rw [hkeeps]
    exact h.pc_past
  · rw [hkeeps]
    exact h.x
  · rw [hkeeps]
    exact h.d

theorem dex : Code Nmos6502 (At n 9 total x) 1 2
    fun a => At n 10 total (x - 1) a ∧ a.regs.z = (x - 1 == 0) := by
  refine Code.instr (.ImpliedInstr .DEX .Implied) rfl fun a h => ?_
  refine ⟨h.next (by decide), rfl, ⟨⟨h.code, h.pc_next⟩, h.total, ?_, h.d⟩, ?_⟩
  · exact congrArg (· - 1) h.x
  · exact congrArg (fun x : U8 => x - 1 == 0) h.x

theorem bne_taken : Code Nmos6502 (fun a => At n 10 total x a ∧ a.regs.z = false) 1 3
    (At n 4 total x) := by
  refine Code.instr (.BranchInstr .BNE .Relative) rfl fun a ⟨h, hz⟩ => ?_
  have htest : BranchOp.BNE.test (a.advance 1).regs = true := congrArg not hz
  have htarget : branchTarget (a.advance 1) = 0x0404 := by
    have hoffset : (a.advance 1).lo = 0xF8 := h.lo (by decide)
    rw [branchTarget, h.pc_past, hoffset]
    rfl
  have hpenalty : (Instr.BranchInstr .BNE .Relative).penalty (a.advance 1) = 1 := by
    rw [Instr.penalty, if_pos htest, h.pc_past, htarget]
    rfl
  have heffect : (Instr.BranchInstr .BNE .Relative).effect Nmos6502 (a.advance 1) =
      (a.advance 1).jump 0x0404 := by
    rw [Instr.effect, if_pos htest, htarget]
  rw [hpenalty, heffect]
  exact ⟨h.next (by decide), rfl, ⟨h.code, rfl⟩, h.total, h.x, h.d⟩

theorem bne_untaken : Code Nmos6502 (fun a => At n 10 total x a ∧ a.regs.z = true) 1 2
    (At n 12 total x) := by
  refine Code.instr (.BranchInstr .BNE .Relative) rfl fun a ⟨h, hz⟩ => ?_
  have htest : ¬BranchOp.BNE.test (a.advance 1).regs = true := by
    rw [Bool.not_eq_true]
    exact congrArg not hz
  have hpenalty : (Instr.BranchInstr .BNE .Relative).penalty (a.advance 1) = 0 := by
    rw [Instr.penalty, if_neg htest]
  have heffect : (Instr.BranchInstr .BNE .Relative).effect Nmos6502 (a.advance 1) =
      (a.advance 1).advance 1 := by
    rw [Instr.effect, if_neg htest]
  rw [hpenalty, heffect]
  exact ⟨h.next (by decide), rfl, ⟨h.code, h.pc_past⟩, h.total, h.x, h.d⟩

theorem sta : Code Nmos6502 (At n 12 total x) 1 3
    fun a => At n 14 total x a ∧ a.mem 0x0011 = total := by
  refine Code.instr (.WriteInstr .STA .ZeroPage) rfl fun a h => ?_
  have haddr : OperandMode.ZeroPage.address (a.advance 1) = 0x0011 :=
    congrArg (BitVec.setWidth 16) (h.lo (by decide))
  refine ⟨h.next (by decide), rfl, ⟨⟨?_, h.pc_past⟩, h.total, h.x, h.d⟩, ?_⟩
  · change Loaded _ _ (Function.update a.mem (OperandMode.ZeroPage.address (a.advance 1)) _)
    rw [haddr]
    exact h.store_code 0x11 _
  · change Function.update a.mem (OperandMode.ZeroPage.address (a.advance 1)) a.regs.a 0x0011 =
      total
    rw [haddr, Function.update_self, h.total]

/-! ### The loop -/

/-- The rounds of the loop: a count of zero stands for 256. -/
def rounds (n : U8) : ℕ := if n = 0 then 256 else n.toNat

theorem rounds_bounds (n : U8) : 1 ≤ rounds n ∧ rounds n ≤ 256 := by
  have hn := n.isLt
  rw [rounds]
  split
  case isTrue => omega
  case isFalse h =>
    have hne : n.toNat ≠ 0 := fun h0 => h (BitVec.eq_of_toNat_eq h0)
    omega

theorem ofNat_rounds (n : U8) : BitVec.ofNat 8 (rounds n) = n := by
  rw [rounds]
  split
  case isTrue h => rw [h]; rfl
  case isFalse h => rw [BitVec.ofNat_toNat, BitVec.setWidth_eq]

/-- The numbers that the first `i` rounds add up. -/
def partialSum (n : U8) (i : ℕ) : ℕ := ∑ j ∈ Finset.range i, (rounds n - j)

/-- The invariant of the loop: `i` rounds are over. -/
def AtRound (n : U8) (i : ℕ) : Arch → Prop :=
  At n 4 (BitVec.ofNat 8 (partialSum n i)) (BitVec.ofNat 8 (rounds n - i))

/-- One round, up to its branch. -/
theorem round (n : U8) {i : ℕ} (hi : i < rounds n) :
    Code Nmos6502 (AtRound n i) 4 10 fun a =>
      At n 10 (BitVec.ofNat 8 (partialSum n (i + 1))) (BitVec.ofNat 8 (rounds n - (i + 1))) a ∧
        a.regs.z = decide (i + 1 = rounds n) := by
  obtain ⟨_, hrounds⟩ := rounds_bounds n
  have htotal : BitVec.ofNat 8 (partialSum n i) + BitVec.ofNat 8 (rounds n - i) =
      BitVec.ofNat 8 (partialSum n (i + 1)) := by
    rw [partialSum, partialSum, Finset.sum_range_succ, BitVec.ofNat_add]
  have hx : BitVec.ofNat 8 (rounds n - i) - 1 = BitVec.ofNat 8 (rounds n - (i + 1)) := by
    have hcount : rounds n - i = rounds n - (i + 1) + 1 := by omega
    rw [hcount, BitVec.ofNat_add]
    exact BitVec.add_sub_cancel _ _
  have hz : (BitVec.ofNat 8 (rounds n - (i + 1)) == 0) = decide (i + 1 = rounds n) := by
    rw [Bool.eq_iff_iff, beq_iff_eq, decide_eq_true_iff, ← BitVec.toNat_inj, BitVec.toNat_ofNat]
    change (rounds n - (i + 1)) % 256 = 0 ↔ _
    omega
  refine (((clc.seq stx).seq adc).seq dex).weaken (fun _ h => h) fun a ⟨h, hzero⟩ => ?_
  rw [htotal, hx] at h
  rw [hx, hz] at hzero
  exact ⟨h, hzero⟩

theorem round_again (n : U8) {i : ℕ} (hi : i + 1 < rounds n) :
    Code Nmos6502 (AtRound n i) 5 13 (AtRound n (i + 1)) :=
  ((round n (by omega)).weaken (fun _ h => h) fun _ ⟨h, hz⟩ =>
    ⟨h, hz.trans (decide_eq_false (by omega))⟩).seq bne_taken

theorem round_last (n : U8) :
    Code Nmos6502 (AtRound n (rounds n - 1)) 5 12
      (At n 12 (BitVec.ofNat 8 (partialSum n (rounds n))) 0) := by
  obtain ⟨hpos, _⟩ := rounds_bounds n
  have hlast : rounds n - 1 + 1 = rounds n := by omega
  have h := (round n (i := rounds n - 1) (by omega)).seq (bne_untaken.weaken
    (fun _ ⟨h, hz⟩ => ⟨h, hz.trans (decide_eq_true hlast)⟩) fun _ h => h)
  rw [hlast, Nat.sub_self] at h
  exact h

/-- The whole program, up to its JAM. -/
theorem body (n : U8) :
    Code Nmos6502 (At n 0 total x) (2 + (rounds n - 1) * 5 + 5 + 1)
      (4 + (rounds n - 1) * 13 + 12 + 3) fun a =>
        At n 14 (BitVec.ofNat 8 (partialSum n (rounds n))) 0 a ∧
          a.mem 0x0011 = BitVec.ofNat 8 (partialSum n (rounds n)) := by
  have hstart : Code Nmos6502 (At n 0 total x) 2 4 (AtRound n 0) :=
    (lda.seq ldx).weaken (fun _ h => h) fun a h => by
      rw [AtRound, Nat.sub_zero, ofNat_rounds]
      exact h
  have hloop : Code Nmos6502 (AtRound n 0) ((rounds n - 1) * 5) ((rounds n - 1) * 13)
      (AtRound n (rounds n - 1)) :=
    Effects.Triple.loop fun i hi => round_again n (by omega)
  exact ((hstart.seq hloop).seq (round_last n)).seq sta

theorem partialSum_rounds (n : U8) :
    partialSum n (rounds n) = ∑ k ∈ Finset.range (rounds n + 1), k := by
  rw [Finset.sum_range_succ', Nat.add_zero, partialSum, ← Finset.sum_range_reflect]
  refine Finset.sum_congr rfl fun j hj => ?_
  rw [Finset.mem_range] at hj
  omega

/-! ### The run -/

theorem testMachine_calm (code : List U8) (org : U16) : (testMachine code org).Calm := by
  obtain ⟨hjammed, hnmi, hirq, hpins⟩ := Machine.Calm.of_reset
    (m := Machine.fresh {} (({} : FlatBus).setVector kResetVector org)) rfl rfl
  exact ⟨hjammed, hnmi, hirq, hpins⟩

/-- The program is loaded and the processor at its start. -/
theorem testMachine_at (n : U8) :
    At n 0 0 0 (testMachine (sumProgram n) 0x0400).arch := by
  let start := Machine.fresh {} (({} : FlatBus).setVector kResetVector 0x0400)
  have hreset : start.reset.arch = resetEffect start.arch := start.reset_arch
  have hregs : (testMachine (sumProgram n) 0x0400).arch.regs = (resetEffect start.arch).regs := by
    rw [← hreset]
    rfl
  refine ⟨⟨?_, ?_⟩, ?_, ?_, ?_⟩
  · change Loaded _ _ (writeCode start.reset.bus 0x0400 (sumProgram n)).memory
    rw [writeCode_eq]
    exact loaded_load _ _ _ (by rw [length_sumProgram]; omega)
  · rw [hregs]
    decide
  all_goals rw [hregs]; rfl

/-- **The sum program.** For every count it stops, with the sum of the numbers up to the count
in the accumulator and in memory, and after the cycles that the test adds up for ten. -/
theorem sum_of_count (n : U8) : ∃ m,
    (∀ fuel, 4 + 5 * rounds n ≤ fuel →
      runUntilJammed fuel (testMachine (sumProgram n) 0x0400) = some m) ∧
    m.cpu.regs.a = BitVec.ofNat 8 (∑ k ∈ Finset.range (rounds n + 1), k) ∧
    m.bus.memory 0x0011 = m.cpu.regs.a ∧ m.cpu.regs.x = 0 ∧
    m.bus.cycles =
      BitVec.ofNat 64 (4 + rounds n * (2 + 3 + 3 + 2) + ((rounds n - 1) * 3 + 2) + 3 + 11) := by
  obtain ⟨hpos, _⟩ := rounds_bounds n
  let start := testMachine (sumProgram n) 0x0400
  let steps := 2 + (rounds n - 1) * 5 + 5 + 1
  have hcalm : start.Calm := testMachine_calm _ _
  obtain ⟨hcalm', ⟨hat, hmem⟩, hspent⟩ := hcalm.of_code (body n) (testMachine_at n)
  have hnext : ((Machine.stepMachine Nmos6502)^[steps] start).arch.next =
      .SpecialInstr .JAM .Implied := hat.next (by decide)
  have harch : ((Machine.stepMachine Nmos6502)^[steps + 1] start).arch =
      ((Machine.stepMachine Nmos6502)^[steps] start).arch.advance 1 := by
    rw [Function.iterate_succ_apply', hcalm'.stepMachine_arch, Arch.step, hnext]
    rfl
  have hjammed : ((Machine.stepMachine Nmos6502)^[steps + 1] start).cpu.jammed = true := by
    rw [Function.iterate_succ_apply', hcalm'.step_jammed, hnext]
    rfl
  have hcost : ((Machine.stepMachine Nmos6502)^[steps] start).stepCycles Nmos6502 = 11 := by
    rw [hcalm'.stepCycles, Arch.cost, hnext, Instr.length_accesses]
    rfl
  have hregs := congrArg Arch.regs harch
  have hrun : start.arch.Unjammed Nmos6502 steps := (body n start.arch (testMachine_at n)).1
  have hfree (j : ℕ) (hj : j < steps + 1) :
      ((Machine.stepMachine Nmos6502)^[j] start).cpu.jammed = false :=
    (hcalm.iterate (hrun.mono (by omega))).1.jammed
  refine ⟨(Machine.stepMachine Nmos6502)^[steps + 1] start, fun fuel hfuel => ?_, ?_, ?_, ?_, ?_⟩
  · exact runUntilJammed_eq hfree hjammed (by omega)
  · rw [← partialSum_rounds]
    exact (congrArg Registers.a hregs).trans hat.total
  · refine (congrFun (congrArg Arch.mem harch) 0x0011).trans (hmem.trans ?_)
    rw [← hat.total]
    exact (congrArg Registers.a hregs).symm
  · exact (congrArg Registers.x hregs).trans hat.x
  · have hzero : start.bus.cycles = 0#64 := rfl
    rw [Machine.iterate_clock, hzero, BitVec.zero_add, spent_succ, hcost, hspent]
    congr 1
    omega

end TestProgram

end Mos6502
