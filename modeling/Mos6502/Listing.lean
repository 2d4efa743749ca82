import Mathlib.Data.List.Pairwise
import Mathlib.Data.List.TakeWhile
import Mos6502.LinearDisassembly
import Mos6502.OperandText

/-!
# Listings

The address that the disassembler puts after an instruction is where the next line of a
listing starts. Several opcodes have one text, but then they are one instruction, so a
listing says all that the processor will do with the bytes; and no two documented opcodes
have one text, so it gives back documented code byte by byte.
-/

namespace Mos6502

/-! ### Texts -/

/-- How the operand of a mode is written: the target of a branch like any other address. -/
def Mode.written : Mode → Mode
  | .Relative => .Absolute
  | mode => mode

/-- The mode that the text of an operand shows. -/
def Operand.shown : Operand → Mode
  | .implied => .Implied
  | .accumulator => .Accumulator
  | .immediate _ => .Immediate
  | .zeroPage _ => .ZeroPage
  | .zeroPageX _ => .ZeroPageX
  | .zeroPageY _ => .ZeroPageY
  | .absolute _ => .Absolute
  | .absoluteX _ => .AbsoluteX
  | .absoluteY _ => .AbsoluteY
  | .indirect _ => .Indirect
  | .indirectX _ => .IndirectX
  | .indirectY _ => .IndirectY

theorem Operand.shown_ofMode (mode : Mode) (pc : U16) (lo hi : U8) :
    (Operand.ofMode mode pc lo hi).shown = mode.written := by
  cases mode <;> rfl

/-- Two rows of the table that are written alike: with one mnemonic they are one instruction,
and not both documented. -/
def Row.Distinct (r r' : Row) : Prop :=
  (r.mnemonic = r'.mnemonic ↔ r.instr = r'.instr) ∧
    (r.documented = true → r'.documented = true → r.instr ≠ r'.instr)
  deriving Decidable

theorem pairwise_distinct (mode : Mode) :
    (instructionTable.filter fun r => r.instr.mode.written = mode).Pairwise Row.Distinct := by
  cases mode <;> decide +kernel

instance : Std.Symm Row.Distinct where
  symm _ _ h := ⟨⟨fun hm => (h.1.mp hm.symm).symm, fun hi => (h.1.mpr hi.symm).symm⟩,
    fun hr hr' heq => h.2 hr' hr heq.symm⟩

theorem row_distinct {op op' : U8} (hne : row op ≠ row op')
    (hmode : (instr op).mode.written = (instr op').mode.written) :
    (row op).Distinct (row op') := by
  have hmem (op : U8) : row op ∈ instructionTable := List.get_mem _ _
  refine (pairwise_distinct (instr op).mode.written).forall ?_ ?_ hne
  · exact List.mem_filter.mpr ⟨hmem op, by simp [instr]⟩
  · exact List.mem_filter.mpr ⟨hmem op', decide_eq_true hmode.symm⟩

/-- **Mnemonics.** Where the operands are written alike, the mnemonic is the instruction. -/
theorem mnemonic_eq_iff {op op' : U8} (hmode : (instr op).mode.written = (instr op').mode.written) :
    (row op).mnemonic = (row op').mnemonic ↔ instr op = instr op' := by
  by_cases hrow : row op = row op'
  · rw [instr, instr, hrow]
    exact ⟨fun _ => rfl, fun _ => rfl⟩
  · exact (row_distinct hrow hmode).1

/-- **Documented opcodes.** No two of them are one instruction. -/
theorem eq_of_documented {op op' : U8} (h : (row op).documented = true)
    (h' : (row op').documented = true) (heq : instr op = instr op') : op = op' := by
  by_contra hne
  have hrow : row op ≠ row op' := fun hrow => hne (by rw [← code_row op, hrow, code_row])
  exact (row_distinct hrow (by rw [heq])).2 h h' heq

/-! ### One line -/

/-- Both memories hold the same instruction at an address, with the same operand bytes. -/
structure SameInstruction (mem mem' : Memory) (pc : U16) : Prop where
  instruction : instr (mem pc) = instr (mem' pc)
  operands : ∀ k, 1 ≤ k → k < instructionLength (mem pc) →
    mem (pc + BitVec.ofNat 16 k) = mem' (pc + BitVec.ofNat 16 k)

section line

variable {mem mem' : Memory} {pc : U16}

/-- The mnemonic is what stands before the blank. -/
theorem takeWhile_disassembleMemory (mem : Memory) (pc : U16) :
    (disassembleMemory mem pc).1.toList.takeWhile (· != ' ') = (row (mem pc)).mnemonic.toList := by
  have hmnemonic := mnemonic_ne_blank (mem pc)
  rw [disassembleMemory_text]
  simp only
  split
  · exact List.takeWhile_eq_self_iff.mpr hmnemonic
  · rw [String.toList_append, String.toList_append, List.append_assoc,
      List.takeWhile_append_of_pos hmnemonic]
    exact List.append_nil _

/-- The operands of a mode show its operand bytes. -/
theorem Operand.ofMode_inj {mode : Mode} {lo hi lo' hi' : U8}
    (h : Operand.ofMode mode pc lo hi = Operand.ofMode mode pc lo' hi') :
    (1 ≤ mode.operandBytes → lo = lo') ∧ (2 ≤ mode.operandBytes → hi = hi') := by
  have hword (heq : word lo hi = word lo' hi') : lo = lo' ∧ hi = hi' :=
    ⟨by rw [← offset_word lo hi, heq, offset_word], by rw [← page_word lo hi, heq, page_word]⟩
  cases mode with
  | Implied | Accumulator => simp [Mode.operandBytes]
  | Immediate | ZeroPage | ZeroPageX | ZeroPageY | IndirectX | IndirectY =>
    injection h with hlo
    exact ⟨fun _ => hlo, by simp [Mode.operandBytes]⟩
  | Absolute | AbsoluteX | AbsoluteY | Indirect =>
    injection h with heq
    exact ⟨fun _ => (hword heq).1, fun _ => (hword heq).2⟩
  | Relative =>
    injection h with heq
    have hsigned : lo.signExtend 16 = lo'.signExtend 16 := (BitVec.add_right_inj _).mp heq
    have hlo := congrArg BitVec.toInt hsigned
    rw [BitVec.toInt_signExtend_of_le (by decide), BitVec.toInt_signExtend_of_le (by decide)] at hlo
    exact ⟨fun _ => BitVec.eq_of_toInt_eq hlo, by simp [Mode.operandBytes]⟩

theorem operandText_congr {mode : Mode} {lo hi lo' hi' : U8}
    (hlo : 1 ≤ mode.operandBytes → lo = lo') (hhi : 2 ≤ mode.operandBytes → hi = hi') :
    operandText mode pc lo hi = operandText mode pc lo' hi' := by
  cases mode with
  | Implied | Accumulator => rfl
  | Immediate | ZeroPage | ZeroPageX | ZeroPageY | IndirectX | IndirectY | Relative =>
    rw [hlo le_rfl]
    rfl
  | Absolute | AbsoluteX | AbsoluteY | Indirect =>
    rw [hlo (by decide), hhi le_rfl]

/-- **A line of a listing.** It says which instruction the bytes are, and what its operand
bytes are, but not which of the opcodes of the instruction is there. -/
theorem disassembleMemory_eq_iff :
    (disassembleMemory mem pc).1 = (disassembleMemory mem' pc).1 ↔ SameInstruction mem mem' pc := by
  constructor
  · intro htext
    have hread := congrArg readText htext
    rw [readText_disassembleMemory, readText_disassembleMemory, Option.some_inj] at hread
    have hmode := congrArg Operand.shown hread
    rw [Operand.shown_ofMode, Operand.shown_ofMode] at hmode
    have hmnemonic := congrArg (fun text : String => text.toList.takeWhile (· != ' ')) htext
    simp only [takeWhile_disassembleMemory] at hmnemonic
    have hinstr := (mnemonic_eq_iff hmode).mp (String.toList_inj.mp hmnemonic)
    rw [← hinstr] at hread
    obtain ⟨hlo, hhi⟩ := Operand.ofMode_inj hread
    refine ⟨hinstr, fun k hone hk => ?_⟩
    have hbytes : (instr (mem pc)).mode.operandBytes ≤ 2 := by
      cases (instr (mem pc)).mode <;> decide
    change k < 1 + (instr (mem pc)).mode.operandBytes at hk
    obtain rfl | rfl : k = 1 ∨ k = 2 := by omega
    · exact hlo (by omega)
    · exact hhi (by omega)
  · rintro ⟨hinstr, hoperands⟩
    have hmnemonic := (mnemonic_eq_iff (congrArg (fun i => i.mode.written) hinstr)).mpr hinstr
    have hoperand : operandText (instr (mem pc)).mode pc (mem (pc + 1)) (mem (pc + 2)) =
        operandText (instr (mem' pc)).mode pc (mem' (pc + 1)) (mem' (pc + 2)) := by
      have hone (h : 1 ≤ (instr (mem pc)).mode.operandBytes) : mem (pc + 1) = mem' (pc + 1) :=
        hoperands 1 le_rfl (by change 1 < 1 + (instr (mem pc)).mode.operandBytes; omega)
      have htwo (h : 2 ≤ (instr (mem pc)).mode.operandBytes) : mem (pc + 2) = mem' (pc + 2) :=
        hoperands 2 (by decide) (by change 2 < 1 + (instr (mem pc)).mode.operandBytes; omega)
      rw [← hinstr]
      exact operandText_congr hone htwo
    rw [disassembleMemory_text, disassembleMemory_text, hoperand, hmnemonic]

end line

/-! ### Listings -/

/-- The addresses of the next `n` instructions from `pc` on. -/
def listed (mem : Memory) : ℕ → U16 → List U16
  | 0, _ => []
  | n + 1, pc => pc :: listed mem n (disassembleMemory mem pc).2

/-- The text of the next `n` instructions from `pc` on. -/
def listing (mem : Memory) (n : ℕ) (pc : U16) : List String :=
  (listed mem n pc).map fun addr => (disassembleMemory mem addr).1

/-- The number of bytes that the next `n` instructions take up. -/
def listedBytes (mem : Memory) (n : ℕ) (pc : U16) : ℕ :=
  ((listed mem n pc).map fun addr => instructionLength (mem addr)).sum

section listings

variable {mem mem' : Memory}

theorem SameInstruction.next {pc : U16} (h : SameInstruction mem mem' pc) :
    (disassembleMemory mem pc).2 = (disassembleMemory mem' pc).2 := by
  rw [disassembleMemory_next, disassembleMemory_next, instructionLength, instructionLength]
  exact congrArg (fun i => pc + BitVec.ofNat 16 (1 + i.mode.operandBytes)) h.instruction

/-- Two memories have one listing exactly when they hold the same instructions with the same
operand bytes all along it. -/
theorem listing_eq_lines (mem mem' : Memory) (n : ℕ) (pc : U16) :
    listing mem n pc = listing mem' n pc ↔
      ∀ addr ∈ listed mem n pc, SameInstruction mem mem' addr := by
  induction n generalizing pc with
  | zero => simp [listing, listed]
  | succ n ih =>
    simp only [listing, listed, List.map_cons, List.cons.injEq, List.forall_mem_cons,
      disassembleMemory_eq_iff]
    refine and_congr_right fun hline => ?_
    rw [← hline.next]
    exact ih _

/-- A memory with the same bytes has the same instruction there, and conversely if both
opcodes are documented. -/
theorem sameInstruction_iff {pc : U16} (h : (row (mem pc)).documented = true)
    (h' : (row (mem' pc)).documented = true) :
    SameInstruction mem mem' pc ↔ ∀ k < instructionLength (mem pc),
      mem (pc + BitVec.ofNat 16 k) = mem' (pc + BitVec.ofNat 16 k) := by
  have hzero : pc + BitVec.ofNat 16 0 = pc := BitVec.add_zero pc
  constructor
  · rintro ⟨hinstr, hoperands⟩ k hk
    rcases Nat.eq_zero_or_pos k with rfl | hpos
    · rw [hzero]
      exact eq_of_documented h h' hinstr
    · exact hoperands k hpos hk
  · intro hbytes
    have hopcode := hbytes 0 (Nat.lt_of_lt_of_le Nat.zero_lt_one (Nat.le_add_right 1 _))
    rw [hzero] at hopcode
    exact ⟨congrArg instr hopcode, fun k _ hk => hbytes k hk⟩

/-- Where both memories hold documented opcodes, they have one listing exactly when they hold
the same bytes all along it. -/
theorem listing_eq_bytes (mem mem' : Memory) (n : ℕ) (pc : U16)
    (h : ∀ addr ∈ listed mem n pc, (row (mem addr)).documented = true)
    (h' : ∀ addr ∈ listed mem' n pc, (row (mem' addr)).documented = true) :
    listing mem n pc = listing mem' n pc ↔
      ∀ k < listedBytes mem n pc, mem (pc + BitVec.ofNat 16 k) = mem' (pc + BitVec.ofNat 16 k) := by
  rw [listing_eq_lines]
  induction n generalizing pc with
  | zero => simp [listedBytes, listed]
  | succ n ih =>
    simp only [listed, List.forall_mem_cons] at h h'
    simp only [listed, List.forall_mem_cons, listedBytes, List.map_cons, List.sum_cons]
    have hfirst := sameInstruction_iff h.1 h'.1
    have hafter (j : ℕ) : pc + BitVec.ofNat 16 (instructionLength (mem pc) + j) =
        (disassembleMemory mem pc).2 + BitVec.ofNat 16 j := by
      rw [disassembleMemory_next, BitVec.ofNat_add, BitVec.add_assoc]
    constructor
    · rintro ⟨hsame, hrest⟩ k hk
      have htail := (ih _ h.2 (hsame.next ▸ h'.2)).mp hrest
      rcases Nat.lt_or_ge k (instructionLength (mem pc)) with hlt | hge
      · exact hfirst.mp hsame k hlt
      · obtain ⟨j, rfl⟩ := Nat.exists_eq_add_of_le hge
        rw [hafter]
        exact htail j (Nat.lt_of_add_lt_add_left hk)
    · intro hbytes
      have hsame := hfirst.mpr fun k hk => hbytes k (Nat.lt_add_right _ hk)
      refine ⟨hsame, (ih _ h.2 (hsame.next ▸ h'.2)).mpr fun j hj => ?_⟩
      rw [← hafter]
      exact hbytes _ (Nat.add_lt_add_left hj _)

/-- **Listings.** The listing of the `n` instructions from an address on, whatever its length
and wherever it wraps around, says as much as the instructions and their operand bytes; and
among documented opcodes, as much as the bytes. -/
theorem listing_eq_iff (mem mem' : Memory) (n : ℕ) (pc : U16) :
    (listing mem n pc = listing mem' n pc ↔
      ∀ addr ∈ listed mem n pc, SameInstruction mem mem' addr) ∧
    ((∀ addr ∈ listed mem n pc, (row (mem addr)).documented = true) →
      (∀ addr ∈ listed mem' n pc, (row (mem' addr)).documented = true) →
      (listing mem n pc = listing mem' n pc ↔ ∀ k < listedBytes mem n pc,
        mem (pc + BitVec.ofNat 16 k) = mem' (pc + BitVec.ofNat 16 k))) :=
  ⟨listing_eq_lines mem mem' n pc, listing_eq_bytes mem mem' n pc⟩

example : listing (fun addr => if addr = 0xFFFF then 0xA9 else 0x60) 2 0xFFFF =
    ["LDA #$60", "RTS"] := by decide +kernel

end listings

end Mos6502
