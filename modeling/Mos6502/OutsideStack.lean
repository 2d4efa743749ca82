import Mos6502.Stack

/-!
# Programs that leave page one to the stack

An instruction whose own bytes and operands lie outside page one touches that page only
by pushes and pulls. What it does to the registers and to the rest of memory is then the
same in every state that agrees with its own outside page one, if it pulls the same bytes.
-/

namespace Mos6502

/-- Equal registers, and memory that agrees outside page one. -/
structure Arch.AgreesOutside (a b : Arch) : Prop where
  regs : a.regs = b.regs
  mem : ∀ addr, page addr ≠ 1 → a.mem addr = b.mem addr

theorem page_setWidth (zp : U8) : page (zp.setWidth 16) ≠ 1 := by
  intro h
  have hpage := congrArg BitVec.toNat h
  have hlt := zp.isLt
  simp only [toNat_page, BitVec.toNat_setWidth] at hpage
  have hone : (1 : U8).toNat = 1 := rfl
  omega

namespace Arch.AgreesOutside

variable {a b : Arch} (h : a.AgreesOutside b)
include h

theorem update_regs (f : Registers → Registers) :
    AgreesOutside { a with regs := f a.regs } { b with regs := f b.regs } :=
  ⟨congrArg f h.regs, h.mem⟩

theorem store (addr : U16) (value : U8) :
    (a.store addr value).AgreesOutside (b.store addr value) := by
  refine ⟨h.regs, fun addr' hpage => ?_⟩
  by_cases heq : addr' = addr
  · subst heq
    simp [Arch.store]
  · simp only [Arch.store, Function.update_of_ne heq]
    exact h.mem addr' hpage

theorem push (value : U8) : (a.push value).AgreesOutside (b.push value) := by
  have hstore := (h.store (stackAddr a.regs.s) value).update_regs fun r => { r with s := r.s - 1 }
  refine ⟨hstore.regs, fun addr hpage => (hstore.mem addr hpage).trans ?_⟩
  rw [h.regs]
  rfl

theorem advance (k : ℕ) : (a.advance k).AgreesOutside (b.advance k) :=
  h.update_regs fun r => { r with pc := r.pc + BitVec.ofNat 16 k }

theorem jump (target : U16) : (a.jump target).AgreesOutside (b.jump target) :=
  h.update_regs fun r => { r with pc := target }

theorem drop (k : ℕ) : (a.drop k).AgreesOutside (b.drop k) :=
  h.update_regs fun r => { r with s := r.s + BitVec.ofNat 8 k }

theorem lo (hpage : page a.regs.pc ≠ 1) : a.lo = b.lo := by
  rw [Arch.lo, h.mem _ hpage, h.regs]
  rfl

theorem hi (hpage : page (a.regs.pc + 1) ≠ 1) : a.hi = b.hi := by
  rw [Arch.hi, h.mem _ hpage, h.regs]
  rfl

theorem zeroPageWord (zp : U8) : a.zeroPageWord zp = b.zeroPageWord zp := by
  rw [Arch.zeroPageWord, h.mem _ (page_setWidth zp), h.mem _ (page_setWidth (zp + 1))]
  rfl

/-- A mode resolves to the same address when its operand bytes lie outside page one. -/
theorem address (mode : OperandMode)
    (hbytes : ∀ k < mode.toMode.operandBytes, page (a.regs.pc + BitVec.ofNat 16 k) ≠ 1) :
    mode.base a = mode.base b ∧ mode.address a = mode.address b := by
  have hlo (hk : 0 < mode.toMode.operandBytes) : a.lo = b.lo :=
    h.lo (by simpa using hbytes 0 hk)
  have hhi (hk : 1 < mode.toMode.operandBytes) : a.hi = b.hi := h.hi (hbytes 1 hk)
  cases mode with
  | Immediate => simp [OperandMode.base, OperandMode.address, h.regs]
  | Absolute | AbsoluteX | AbsoluteY =>
    simp [OperandMode.base, OperandMode.address, h.regs, hlo (by decide), hhi (by decide)]
  | _ =>
    simp [OperandMode.base, OperandMode.address, h.regs, hlo (by decide), h.zeroPageWord]

end Arch.AgreesOutside

namespace Instr

/-- The addresses at which an instruction reads or writes its operand. Its own bytes,
the pointers in page zero and the bytes of the stack are not among them. -/
def operandAddresses (V : Variant) (i : Instr) (a : Arch) : List U16 :=
  match i with
  | .ReadInstr _ mode | .WriteInstr _ mode | .RmwInstr _ mode => [mode.address a]
  | .UnstableStoreInstr op mode => [(unstableStore op mode a).1]
  | .SpecialInstr .JMP_IND _ => [word a.lo a.hi, jmpIndHigh V (word a.lo a.hi)]
  | _ => []

/-- The operand bytes of an instruction and its operand lie outside page one, in the
state after the opcode fetch. -/
structure StaysOutside (V : Variant) (i : Instr) (a : Arch) : Prop where
  bytes : ∀ k < i.consumed, page (a.regs.pc + BitVec.ofNat 16 k) ≠ 1
  operands : ∀ addr ∈ i.operandAddresses V a, page addr ≠ 1

/-- An instruction that stays outside page one stores into it only by pushing. -/
theorem effect_page_one {V : Variant} {i : Instr} {a : Arch} (h : i.StaysOutside V a)
    (hpushed : i.pushed a = []) {addr : U16} (hpage : page addr = 1) :
    (i.effect V a).mem addr = a.mem addr := by
  have hupdate (addr' : U16) (value : U8) (hmem : addr' ∈ i.operandAddresses V a) :
      Function.update a.mem addr' value addr = a.mem addr := by
    refine Function.update_of_ne ?_ _ _
    rintro rfl
    exact h.operands addr hmem hpage
  cases i with
  | WriteInstr op mode | RmwInstr op mode | UnstableStoreInstr op mode =>
    exact hupdate _ _ List.mem_cons_self
  | ImpliedInstr op mode | SpecialInstr op mode =>
    cases op <;> first | rfl | cases hpushed
  | BranchInstr cond mode =>
    simp only [effect]
    split <;> rfl
  | ReadInstr op mode | AccumInstr op mode => rfl

theorem operandAddresses_agrees {V : Variant} {i : Instr} {a b : Arch} (h : a.AgreesOutside b)
    (hbytes : ∀ k < i.consumed, page (a.regs.pc + BitVec.ofNat 16 k) ≠ 1) :
    i.operandAddresses V a = i.operandAddresses V b := by
  cases i with
  | ReadInstr op mode | WriteInstr op mode | RmwInstr op mode =>
    simp only [operandAddresses, (h.address mode hbytes).2]
  | UnstableStoreInstr op mode =>
    obtain ⟨hbase, haddr⟩ := h.address mode.toOperandMode hbytes
    simp only [operandAddresses, unstableStore, hbase, haddr, OperandMode.consume, Arch.advance,
      h.regs]
  | SpecialInstr op mode =>
    cases op with
    | JMP_IND =>
      simp only [operandAddresses, h.lo (by simpa using hbytes 0 Nat.zero_lt_two),
        h.hi (hbytes 1 Nat.one_lt_two)]
    | _ => rfl
  | _ => rfl

theorem StaysOutside.of_agrees {V : Variant} {i : Instr} {a b : Arch} (hout : i.StaysOutside V a)
    (h : a.AgreesOutside b) : i.StaysOutside V b where
  bytes := h.regs ▸ hout.bytes
  operands := operandAddresses_agrees h hout.bytes ▸ hout.operands

/-- The case of the jumps, calls and returns. -/
private theorem special_effect_agrees {V : Variant} {op : SpecialOp} {mode : Mode} {a b : Arch}
    (h : a.AgreesOutside b) (hout : (SpecialInstr op mode).StaysOutside V a)
    (hbreak : (SpecialInstr op mode).isBreak = false)
    (hpulled : ∀ k, 1 ≤ k → k ≤ (SpecialInstr op mode).pulls →
      a.mem (a.pulled k) = b.mem (b.pulled k)) :
    ((SpecialInstr op mode).effect V a).AgreesOutside ((SpecialInstr op mode).effect V b) := by
  have hlo (hk : 0 < (SpecialInstr op mode).consumed) : a.lo = b.lo :=
    h.lo (by simpa using hout.bytes 0 hk)
  have hhi (hk : 1 < (SpecialInstr op mode).consumed) : a.hi = b.hi := h.hi (hout.bytes 1 hk)
  obtain ⟨r, mem⟩ := a
  obtain ⟨r', mem'⟩ := b
  obtain rfl : r = r' := h.regs
  have hbyte (k : ℕ) (hone : 1 ≤ k) (hk : k ≤ (SpecialInstr op mode).pulls) :
      mem (Arch.pulled ⟨r, mem⟩ k) = mem' (Arch.pulled ⟨r, mem'⟩ k) := hpulled k hone hk
  cases op with
  | BRK => cases hbreak
  | JSR =>
    have hpushed := ((h.advance 1).push (page (r.pc + 1))).push (offset (r.pc + 1))
    have htarget : (jsrPushed ⟨r, mem⟩).lo = (jsrPushed ⟨r, mem'⟩).lo :=
      hpushed.lo (hout.bytes 1 Nat.one_lt_two)
    simp only [effect, SpecialOp.effect, hlo Nat.zero_lt_two, htarget]
    exact hpushed.jump _
  | RTS =>
    simp only [effect, SpecialOp.effect, hbyte 1 le_rfl (Nat.le_succ 1),
      hbyte 2 (Nat.le_succ 1) le_rfl]
    exact (h.drop 2).jump _
  | RTI =>
    simp only [effect, SpecialOp.effect, hbyte 1 le_rfl (show 1 ≤ 3 by decide),
      hbyte 2 (Nat.le_succ 1) (show 2 ≤ 3 by decide), hbyte 3 (by decide) le_rfl]
    exact ((h.drop 3).update_regs fun r => r.unpack _).jump _
  | JMP_ABS =>
    simp only [effect, SpecialOp.effect, hlo Nat.zero_lt_two, hhi Nat.one_lt_two]
    exact h.jump _
  | JMP_IND =>
    have hptr : word (Arch.lo ⟨r, mem⟩) (Arch.hi ⟨r, mem⟩) =
        word (Arch.lo ⟨r, mem'⟩) (Arch.hi ⟨r, mem'⟩) := by
      rw [hlo Nat.zero_lt_two, hhi Nat.one_lt_two]
    have hout := hout.operands
    simp only [operandAddresses, effect, SpecialOp.effect, hptr] at hout ⊢
    generalize word (Arch.lo ⟨r, mem'⟩) (Arch.hi ⟨r, mem'⟩) = ptr at hout ⊢
    have hlow : mem ptr = mem' ptr := h.mem _ (hout _ List.mem_cons_self)
    have hhigh : mem (jmpIndHigh V ptr) = mem' (jmpIndHigh V ptr) :=
      h.mem _ (hout _ (List.mem_cons_of_mem _ List.mem_cons_self))
    rw [hlow, hhigh]
    exact h.jump _
  | JAM => exact h

/-- **Congruence.** An instruction that stays outside page one, other than a BRK, has the
same effect outside the stack on states that agree there, if it pulls the same bytes. -/
theorem effect_agrees {V : Variant} {i : Instr} {a b : Arch} (h : a.AgreesOutside b)
    (hout : i.StaysOutside V a) (hbreak : i.isBreak = false)
    (hpulled : ∀ k, 1 ≤ k → k ≤ i.pulls → a.mem (a.pulled k) = b.mem (b.pulled k)) :
    (i.effect V a).AgreesOutside (i.effect V b) := by
  have hlo (hk : 0 < i.consumed) : a.lo = b.lo := h.lo (by simpa using hout.bytes 0 hk)
  obtain ⟨r, mem⟩ := a
  obtain ⟨r', mem'⟩ := b
  obtain rfl : r = r' := h.regs
  have hbyte (k : ℕ) (hone : 1 ≤ k) (hk : k ≤ i.pulls) :
      mem (Arch.pulled ⟨r, mem⟩ k) = mem' (Arch.pulled ⟨r, mem'⟩ k) := hpulled k hone hk
  cases i with
  | ReadInstr op mode =>
    obtain ⟨_, haddr⟩ := h.address mode hout.bytes
    have hvalue : mem (mode.address ⟨r, mem⟩) = mem' (mode.address ⟨r, mem⟩) :=
      h.mem _ (hout.operands _ List.mem_cons_self)
    simp only [effect, ← haddr, ← hvalue]
    exact (h.advance _).update_regs (op.apply V (mem (mode.address ⟨r, mem⟩)))
  | WriteInstr op mode =>
    obtain ⟨_, haddr⟩ := h.address mode hout.bytes
    simp only [effect, ← haddr]
    exact (h.advance _).store _ _
  | RmwInstr op mode =>
    obtain ⟨_, haddr⟩ := h.address mode hout.bytes
    have hvalue : mem (mode.address ⟨r, mem⟩) = mem' (mode.address ⟨r, mem⟩) :=
      h.mem _ (hout.operands _ List.mem_cons_self)
    simp only [effect, ← haddr, ← hvalue]
    exact ⟨rfl, ((h.advance mode.toMode.operandBytes).store _ _).mem⟩
  | UnstableStoreInstr op mode =>
    obtain ⟨hbase, haddr⟩ := h.address mode.toOperandMode hout.bytes
    have hstore : unstableStore op mode ⟨r, mem⟩ = unstableStore op mode ⟨r, mem'⟩ := by
      simp only [unstableStore, hbase, haddr]
      rfl
    simp only [effect, ← hstore]
    exact (h.store _ _).update_regs fun _ => (unstableStore op mode ⟨r, mem⟩).2.2
  | AccumInstr op mode =>
    exact h.update_regs fun r => { (op.apply V r.a r).2 with a := (op.apply V r.a r).1 }
  | BranchInstr cond mode =>
    simp only [effect, branchTarget, hlo (Nat.zero_lt_one)]
    split
    · exact h.jump _
    · exact h.advance 1
  | ImpliedInstr op mode =>
    cases op with
    | PHA | PHP => exact h.push _
    | PLA =>
      simp only [effect, ImpliedOp.effect, hbyte 1 le_rfl le_rfl]
      generalize mem' (Arch.pulled ⟨r, mem'⟩ 1) = value
      exact (h.drop 1).update_regs fun q => { q with a := value }.setZN value
    | PLP =>
      simp only [effect, ImpliedOp.effect, hbyte 1 le_rfl le_rfl]
      exact (h.drop 1).update_regs fun r => r.unpack _
    | _ => exact h.update_regs (ImpliedOp.update _)
  | SpecialInstr op mode => exact special_effect_agrees h hout hbreak hpulled

end Instr

end Mos6502
