import Mos6502.MachineCode

/-!
# The workload of the benchmark

The benchmark times two hundred million instructions of a loop that never ends, and divides
the cycles that they took by the time. The loop is followed here for any number of
instructions: it stays inside its own code, writes two bytes of page zero and nothing else,
and takes twenty-three cycles a round.
-/

namespace Mos6502

open Effects

namespace Benchmark

def program : List U8 :=
  [0xA9, 0x00,        -- LDA #$00
   0xA2, 0x00,        -- LDX #$00
   0xA0, 0x00,        -- LDY #$00
   0x18,              -- loop: CLC
   0x69, 0x01,        --   ADC #$01
   0x85, 0x10,        --   STA $10
   0xE6, 0x11,        --   INC $11
   0xBD, 0x00, 0x02,  --   LDA $0200,X
   0xE8,              --   INX
   0xC8,              --   INY
   0x4C, 0x06, 0x04]  --   JMP loop

def kInstructions : ℕ := 200000000

def bus : FlatBus := (({} : FlatBus).load 0x0400 program).setVector kResetVector 0x0400

def cpu : Machine FlatBus NullHooks := (Machine.fresh {} bus).reset

/-- The processor after a number of instructions of the timed loop. -/
def after (instructions : ℕ) : Machine FlatBus NullHooks :=
  (Machine.stepMachine Nmos6502)^[instructions] cpu

/-! ### The memory of the workload -/

theorem bus_memory {addr : U16} (hvector : addr ≠ kResetVector)
    (hvector' : addr ≠ kResetVector + 1) :
    bus.memory addr = (({} : FlatBus).load 0x0400 program).memory addr := by
  change Function.update (Function.update _ kResetVector _) (kResetVector + 1) _ addr = _
  rw [Function.update_of_ne hvector', Function.update_of_ne hvector]

theorem loaded_program : Loaded 0x0400 program bus.memory := by
  intro k hk
  have hlength : program.length = 21 := rfl
  have hbelow (vector : U16) (hvector : 0xFFFC ≤ vector.toNat) :
      0x0400 + BitVec.ofNat 16 k ≠ vector := by
    rintro rfl
    simp only [BitVec.toNat_add, BitVec.toNat_ofNat, BitVec.ofNat_eq_ofNat] at hvector
    omega
  rw [bus_memory (hbelow _ (by decide)) (hbelow _ (by decide))]
  exact loaded_load {} 0x0400 program (by decide) k hk

/-- The memory below the program is empty. -/
theorem bus_low {addr : U16} (haddr : addr.toNat < 0x0300) : bus.memory addr = 0 := by
  have hother (other : U16) (hother : 0x0300 ≤ other.toNat) : addr ≠ other := by
    rintro rfl
    omega
  rw [bus_memory (hother _ (by decide)) (hother _ (by decide)), load_outside]
  intro k hk heq
  have hlength : program.length = 21 := rfl
  refine hother _ ?_ heq.symm
  simp only [BitVec.toNat_add, BitVec.toNat_ofNat, BitVec.ofNat_eq_ofNat]
  omega

/-- The addresses of the table that the workload reads. -/
theorem toNat_table (x : U8) : (0x0200 + x.setWidth 16 : U16).toNat = 0x0200 + x.toNat := by
  have hx := x.isLt
  simp only [BitVec.toNat_add, BitVec.toNat_setWidth, BitVec.toNat_ofNat, BitVec.ofNat_eq_ofNat]
  omega

/-! ### The states of the workload -/

/-- The workload goes on at its byte `k`. Only two bytes of memory are not as loaded. -/
structure At (k : ℕ) (acc x y out count : U8) (a : Arch) : Prop where
  pc : a.regs.pc = 0x0400 + BitVec.ofNat 16 k
  acc : a.regs.a = acc
  x : a.regs.x = x
  y : a.regs.y = y
  d : a.regs.d = false
  out : a.mem 0x0010 = out
  count : a.mem 0x0011 = count
  elsewhere : ∀ addr, addr ≠ 0x0010 → addr ≠ 0x0011 → a.mem addr = bus.memory addr

variable {k : ℕ} {acc x y out count : U8} {a : Arch}

theorem At.located (h : At k acc x y out count a) : Located 0x0400 program k a := by
  refine ⟨fun j hj => ?_, h.pc⟩
  have hlength : program.length = 21 := rfl
  have habove (zp : U16) (hzp : zp.toNat < 0x0400) : 0x0400 + BitVec.ofNat 16 j ≠ zp := by
    rintro rfl
    simp only [BitVec.toNat_add, BitVec.toNat_ofNat, BitVec.ofNat_eq_ofNat] at hzp
    omega
  rw [h.elsewhere _ (habove _ (by decide)) (habove _ (by decide))]
  exact loaded_program j hj

theorem At.next (h : At k acc x y out count a) (hk : k < 21) : a.next = instr program[k] :=
  h.located.next hk

theorem At.lo (h : At k acc x y out count a) (hk : k + 1 < 21) :
    (a.advance 1).lo = program[k + 1] := h.located.lo hk

theorem At.hi (h : At k acc x y out count a) (hk : k + 2 < 21) :
    (a.advance 1).hi = program[k + 2] := h.located.hi hk

/-! ### The instructions -/

theorem lda : Code Nmos6502 (At 0 acc x y out count) 1 2 (At 2 0x00 x y out count) :=
  Code.instr (.ReadInstr .LDA .Immediate) rfl fun _ h =>
    ⟨h.next (by decide), rfl, h.located.pc_past, h.lo (by decide), h.x, h.y, h.d, h.out, h.count,
      h.elsewhere⟩

theorem ldx : Code Nmos6502 (At 2 acc x y out count) 1 2 (At 4 acc 0x00 y out count) :=
  Code.instr (.ReadInstr .LDX .Immediate) rfl fun _ h =>
    ⟨h.next (by decide), rfl, h.located.pc_past, h.acc, h.lo (by decide), h.y, h.d, h.out, h.count,
      h.elsewhere⟩

theorem ldy : Code Nmos6502 (At 4 acc x y out count) 1 2 (At 6 acc x 0x00 out count) :=
  Code.instr (.ReadInstr .LDY .Immediate) rfl fun _ h =>
    ⟨h.next (by decide), rfl, h.located.pc_past, h.acc, h.x, h.lo (by decide), h.d, h.out, h.count,
      h.elsewhere⟩

theorem clc : Code Nmos6502 (At 6 acc x y out count) 1 2
    fun a => At 7 acc x y out count a ∧ a.regs.c = false :=
  Code.instr (.ImpliedInstr .CLC .Implied) rfl fun _ h =>
    ⟨h.next (by decide), rfl,
      ⟨h.located.pc_next, h.acc, h.x, h.y, h.d, h.out, h.count, h.elsewhere⟩, rfl⟩

theorem adc : Code Nmos6502 (fun a => At 7 acc x y out count a ∧ a.regs.c = false) 1 2
    (At 9 (acc + 1) x y out count) := by
  refine Code.instr (.ReadInstr .ADC .Immediate) rfl fun a ⟨h, hc⟩ => ?_
  let before := (OperandMode.Immediate.consume (a.advance 1)).regs
  have heffect : (Instr.ReadInstr .ADC .Immediate).effect Nmos6502 (a.advance 1) =
      ⟨addWithCarry Nmos6502 0x01 before, a.mem⟩ := by
    have hvalue : (a.advance 1).lo = 0x01 := h.lo (by decide)
    rw [← hvalue]
    rfl
  have hsum : (addWithCarry Nmos6502 0x01 before).a = acc + 1 := by
    rw [addWithCarry_of_clear (r := before) h.d hc, ← h.acc]
    rfl
  obtain ⟨_, _, _, _, _, hkeeps⟩ := addWithCarry_keeps Nmos6502 0x01 before
  refine ⟨h.next (by decide), rfl, ?_⟩
  rw [heffect]
  refine ⟨?_, hsum, ?_, ?_, ?_, h.out, h.count, h.elsewhere⟩
  · rw [hkeeps]
    exact h.located.pc_past
  · rw [hkeeps]
    exact h.x
  · rw [hkeeps]
    exact h.y
  · rw [hkeeps]
    exact h.d

theorem sta : Code Nmos6502 (At 9 acc x y out count) 1 3 (At 11 acc x y acc count) := by
  refine Code.instr (.WriteInstr .STA .ZeroPage) rfl fun a h => ?_
  have haddr : OperandMode.ZeroPage.address (a.advance 1) = 0x0010 :=
    congrArg (BitVec.setWidth 16) (h.lo (by decide))
  have hmem : ((Instr.WriteInstr .STA .ZeroPage).effect Nmos6502 (a.advance 1)).mem =
      Function.update a.mem 0x0010 acc := by
    rw [← haddr, ← h.acc]
    rfl
  refine ⟨h.next (by decide), rfl, h.located.pc_past, h.acc, h.x, h.y, h.d, ?_, ?_, ?_⟩
  · rw [hmem, Function.update_self]
  · rw [hmem, Function.update_of_ne (by decide), h.count]
  · intro addr hout hcount
    rw [hmem, Function.update_of_ne hout, h.elsewhere addr hout hcount]

theorem inc : Code Nmos6502 (At 11 acc x y out count) 1 5 (At 13 acc x y out (count + 1)) := by
  refine Code.instr (.RmwInstr .INC .ZeroPage) rfl fun a h => ?_
  have haddr : OperandMode.ZeroPage.address (a.advance 1) = 0x0011 :=
    congrArg (BitVec.setWidth 16) (h.lo (by decide))
  have hmem : ((Instr.RmwInstr .INC .ZeroPage).effect Nmos6502 (a.advance 1)).mem =
      Function.update a.mem 0x0011 (count + 1) := by
    rw [← h.count, ← haddr]
    rfl
  refine ⟨h.next (by decide), rfl, h.located.pc_past, h.acc, h.x, h.y, h.d, ?_, ?_, ?_⟩
  · rw [hmem, Function.update_of_ne (by decide), h.out]
  · rw [hmem, Function.update_self]
  · intro addr hout hcount
    rw [hmem, Function.update_of_ne hcount, h.elsewhere addr hout hcount]

/-- The table lies in one page, so that no index costs a further cycle. -/
theorem lda_table : Code Nmos6502 (At 13 acc x y out count) 1 4 (At 16 0x00 x y out count) := by
  refine Code.instr (.ReadInstr .LDA .AbsoluteX) rfl fun a h => ?_
  have hbase : OperandMode.AbsoluteX.base (a.advance 1) = 0x0200 := by
    rw [OperandMode.base, h.lo (by decide), h.hi (by decide)]
    rfl
  have haddr : OperandMode.AbsoluteX.address (a.advance 1) = 0x0200 + x.setWidth 16 := by
    rw [OperandMode.address, hbase, ← h.x]
    rfl
  have hx := x.isLt
  have hpage : page (0x0200 + x.setWidth 16) = page 0x0200 := by
    apply BitVec.eq_of_toNat_eq
    simp only [page, BitVec.toNat_ushiftRight, BitVec.toNat_setWidth, toNat_table,
      Nat.shiftRight_eq_div_pow]
    change (0x0200 + x.toNat) / 2 ^ 8 % 2 ^ 8 = 2
    omega
  have hpenalty : (Instr.ReadInstr .LDA .AbsoluteX).penalty (a.advance 1) = 0 := by
    rw [Instr.penalty, OperandMode.penalty, hbase, haddr, hpage]
    exact if_neg fun h => h.2 rfl
  have hother (zp : U16) (hzp : zp.toNat < 0x0200) : 0x0200 + x.setWidth 16 ≠ zp := by
    rintro rfl
    rw [toNat_table] at hzp
    omega
  have hvalue : a.mem (OperandMode.AbsoluteX.address (a.advance 1)) = 0 := by
    rw [haddr, h.elsewhere _ (hother _ (by decide)) (hother _ (by decide))]
    exact bus_low (by rw [toNat_table]; omega)
  have hpc : (a.advance 1).regs.pc + 2 = 0x0400 + BitVec.ofNat 16 16 := by
    rw [h.located.pc_next]
    rfl
  rw [hpenalty]
  exact ⟨h.next (by decide), rfl, hpc, hvalue, h.x, h.y, h.d, h.out, h.count, h.elsewhere⟩

theorem inx : Code Nmos6502 (At 16 acc x y out count) 1 2 (At 17 acc (x + 1) y out count) :=
  Code.instr (.ImpliedInstr .INX .Implied) rfl fun _ h =>
    ⟨h.next (by decide), rfl, h.located.pc_next, h.acc, congrArg (· + 1) h.x, h.y, h.d, h.out,
      h.count, h.elsewhere⟩

theorem iny : Code Nmos6502 (At 17 acc x y out count) 1 2 (At 18 acc x (y + 1) out count) :=
  Code.instr (.ImpliedInstr .INY .Implied) rfl fun _ h =>
    ⟨h.next (by decide), rfl, h.located.pc_next, h.acc, h.x, congrArg (· + 1) h.y, h.d, h.out,
      h.count, h.elsewhere⟩

theorem jmp : Code Nmos6502 (At 18 acc x y out count) 1 3 (At 6 acc x y out count) := by
  refine Code.instr (.SpecialInstr .JMP_ABS .Absolute) rfl fun a h => ?_
  have htarget : word (a.advance 1).lo (a.advance 1).hi = 0x0400 + BitVec.ofNat 16 6 := by
    rw [h.lo (by decide), h.hi (by decide)]
    rfl
  exact ⟨h.next (by decide), rfl, htarget, h.acc, h.x, h.y, h.d, h.out, h.count, h.elsewhere⟩

/-! ### The loop -/

/-- The invariant of the loop: `i` rounds are over. -/
def AtRound (i : ℕ) : Arch → Prop :=
  At 6 0x00 (BitVec.ofNat 8 i) (BitVec.ofNat 8 i) (if i = 0 then 0x00 else 0x01)
    (BitVec.ofNat 8 i)

theorem round (i : ℕ) : Code Nmos6502 (AtRound i) 8 23 (AtRound (i + 1)) := by
  refine ((((((((clc.seq adc).seq sta).seq inc).seq lda_table).seq inx).seq iny).seq jmp).weaken
    (fun _ h => h) fun a h => ?_)
  have hi : BitVec.ofNat 8 i + 1 = BitVec.ofNat 8 (i + 1) := by
    rw [BitVec.ofNat_add]
    rfl
  rw [hi] at h
  exact h

theorem setup : Code Nmos6502 (At 0 0 0 0 0 0) 3 6 (AtRound 0) :=
  (lda.seq ldx).seq ldy

theorem rounds (i : ℕ) : Code Nmos6502 (At 0 0 0 0 0 0) (3 + i * 8) (6 + i * 23) (AtRound i) :=
  setup.seq (Triple.loop fun i _ => round i)

/-! ### The run -/

theorem cpu_calm : cpu.Calm := Machine.Calm.of_reset (m := Machine.fresh {} bus) rfl rfl

theorem cpu_at : At 0 0 0 0 0 0 cpu.arch := by
  have harch : cpu.arch = resetEffect (Machine.fresh {} bus).arch := Machine.reset_arch _
  have hvector : word (bus.memory kResetVector) (bus.memory (kResetVector + 1)) = 0x0400 := by
    decide
  have hout : bus.memory 0x0010 = 0 := bus_low (by decide)
  have hcount : bus.memory 0x0011 = 0 := bus_low (by decide)
  rw [harch]
  exact ⟨hvector, rfl, rfl, rfl, rfl, hout, hcount, fun _ _ _ => rfl⟩

theorem cpu_cycles : cpu.cpu.cycles = 7 := by
  have hreset := (Machine.fresh {} bus).reset_clock.2
  rw [Machine.resetAccesses_eq] at hreset
  exact hreset.trans (by simp [resetReads, Machine.fresh])

/-- The cycles of the first `r` instructions of a round. -/
def partialRound (r : Fin 8) : ℕ := [0, 2, 4, 7, 12, 16, 18, 20][r]

theorem partial_round (i : ℕ) (r : Fin 8) :
    Code Nmos6502 (AtRound i) r (partialRound r) fun _ => True := by
  have hall {n c : ℕ} {Q : Arch → Prop} (h : Code Nmos6502 (AtRound i) n c Q) :
      Code Nmos6502 (AtRound i) n c fun _ => True := h.weaken (fun _ h => h) fun _ _ => trivial
  match r with
  | 0 => exact Triple.skip fun _ _ => trivial
  | 1 => exact hall clc
  | 2 => exact hall (clc.seq adc)
  | 3 => exact hall ((clc.seq adc).seq sta)
  | 4 => exact hall (((clc.seq adc).seq sta).seq inc)
  | 5 => exact hall ((((clc.seq adc).seq sta).seq inc).seq lda_table)
  | 6 => exact hall (((((clc.seq adc).seq sta).seq inc).seq lda_table).seq inx)
  | 7 => exact hall ((((((clc.seq adc).seq sta).seq inc).seq lda_table).seq inx).seq iny)

/-- The cycles of the reset come on top of those of the code. -/
theorem cycles_of_code {n c : ℕ} {Q : Arch → Prop} (h : Code Nmos6502 (At 0 0 0 0 0 0) n c Q) :
    (after n).cpu.jammed = false ∧ (after n).cpu.cycles = BitVec.ofNat 64 (7 + c) := by
  obtain ⟨hcalm, _, hspent⟩ := cpu_calm.of_code h cpu_at
  have hseven : cpu.cpu.cycles = BitVec.ofNat 64 7 := cpu_cycles
  refine ⟨hcalm.jammed, ?_⟩
  rw [after, Machine.iterate_cycles, hspent, hseven, ← BitVec.ofNat_add]

theorem setup_cycles (r : Fin 3) :
    (after r).cpu.jammed = false ∧ (after r).cpu.cycles = BitVec.ofNat 64 (7 + 2 * r) := by
  match r with
  | 0 => exact cycles_of_code (Triple.skip fun _ h => h)
  | 1 => exact cycles_of_code lda
  | 2 => exact cycles_of_code (lda.seq ldx)

theorem after_cycles (i : ℕ) (r : Fin 8) :
    (after (3 + i * 8 + r)).cpu.jammed = false ∧
      (after (3 + i * 8 + r)).cpu.cycles =
        BitVec.ofNat 64 (7 + (6 + i * 23 + partialRound r)) :=
  cycles_of_code ((rounds i).seq (partial_round i r))

/-- **The workload.** It runs for ever. After `i` rounds both indices and the byte at $11 have
counted them, modulo 256, and the two bytes of page zero are all that has changed in memory.
The cycles after any number of instructions are known, in the set-up before the loop and in the
loop, and with them those that the benchmark divides by the time. -/
theorem workload_exact :
    (∀ r : Fin 3, (after r).cpu.jammed = false ∧
      (after r).cpu.cycles = BitVec.ofNat 64 (7 + 2 * r)) ∧
    (∀ i, (after (3 + i * 8)).cpu.regs.pc = 0x0406 ∧
      (after (3 + i * 8)).cpu.regs.x = BitVec.ofNat 8 i ∧
      (after (3 + i * 8)).cpu.regs.y = BitVec.ofNat 8 i ∧
      (after (3 + i * 8)).bus.memory =
        Function.update (Function.update bus.memory 0x0010 (if i = 0 then 0 else 1)) 0x0011
          (BitVec.ofNat 8 i)) ∧
    (∀ i (r : Fin 8), (after (3 + i * 8 + r)).cpu.jammed = false ∧
      (after (3 + i * 8 + r)).cpu.cycles = BitVec.ofNat 64 (13 + i * 23 + partialRound r)) ∧
    (after kInstructions).cpu.cycles = 575000006 := by
  refine ⟨setup_cycles, fun i => ?_, fun i r => ?_, ?_⟩
  · obtain ⟨_, hat, _⟩ := cpu_calm.of_code (rounds i) cpu_at
    refine ⟨hat.pc, hat.x, hat.y, funext fun addr => ?_⟩
    by_cases hcount : addr = 0x0011
    · rw [hcount, Function.update_self]
      exact hat.count
    · by_cases hout : addr = 0x0010
      · rw [hout, Function.update_of_ne (by decide), Function.update_self]
        exact hat.out
      · rw [Function.update_of_ne hcount, Function.update_of_ne hout]
        exact hat.elsewhere addr hout hcount
  · obtain ⟨hjammed, hcycles⟩ := after_cycles i r
    refine ⟨hjammed, hcycles.trans ?_⟩
    congr 1
    omega
  · have hcount : kInstructions = 3 + 24999999 * 8 + (5 : Fin 8) := rfl
    have hcycles : 7 + (6 + 24999999 * 23 + partialRound 5) = 575000006 := rfl
    rw [hcount, (after_cycles 24999999 5).2, hcycles]
    rfl

end Benchmark

end Mos6502
