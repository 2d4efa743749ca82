import Mos6502.Effects.Triples
import Mos6502.ImageLoading
import Mos6502.MultiByteArithmetic
import Mos6502.ProgramRuns

/-!
# Reasoning about machine code

Triples over the programmer's model: how long the code of a program takes and what it
leaves behind, with one rule for an instruction of the table. A triple about the model is
one about every undisturbed processor on plain memory (`Machine.Calm.of_code`).
-/

namespace Mos6502

open Effects

/-- A triple about machine code: in `n` instructions and `c` cycles, with no JAM among them. -/
def Code (V : Variant) (P : Arch → Prop) (n c : ℕ) (Q : Arch → Prop) : Prop :=
  Triple (Arch.step V) (Arch.cost V) (fun a => a.next.jams = false) P n c Q

/-- **An instruction.** -/
theorem Code.instr {V : Variant} {P Q : Arch → Prop} {c : ℕ} (i : Instr) (hjams : i.jams = false)
    (h : ∀ a, P a → a.next = i ∧ i.baseCycles V + i.penalty (a.advance 1) = c ∧
      Q (i.effect V (a.advance 1))) : Code V P 1 c Q := by
  refine Triple.one fun a ha => ?_
  obtain ⟨hnext, hcycles, hQ⟩ := h a ha
  rw [Arch.cost, Arch.step, hnext, Instr.length_accesses]
  exact ⟨hjams, hcycles, hQ⟩

/-- **Code on a machine.** -/
theorem Machine.Calm.of_code {β : Type} [PlainMemory β] [SilentBus β] {V : Variant}
    {m : Machine β NullHooks} {P Q : Arch → Prop} {n c : ℕ} (hcalm : m.Calm)
    (hcode : Code V P n c Q) (hP : P m.arch) :
    ((Machine.stepMachine V)^[n] m).Calm ∧ Q ((Machine.stepMachine V)^[n] m).arch ∧
      spent (Machine.stepMachine V) (Machine.stepCycles V) n m = c := by
  obtain ⟨hfair, hcost, hQ⟩ := hcode m.arch hP
  obtain ⟨hcalm', harch, hspent⟩ := hcalm.iterate hfair
  exact ⟨hcalm', harch ▸ hQ, hspent.trans hcost⟩

/-- A binary addition with the carry clear. -/
theorem addWithCarry_of_clear {V : Variant} {value : U8} {r : Registers} (hd : r.d = false)
    (hc : r.c = false) : (addWithCarry V value r).a = r.a + value := by
  have hbalance := addWithCarry_binary (r := r) V value hd
  have hresult := (addWithCarry V value r).a.isLt
  apply BitVec.eq_of_toNat_eq
  simp only [hc, Bool.toNat_false, Nat.add_zero] at hbalance
  rw [BitVec.toNat_add]
  omega

/-! ### Programs in memory -/

/-- The bytes of a program lie in memory from an address on. -/
def Loaded (org : U16) (code : List U8) (mem : Memory) : Prop :=
  ∀ k (hk : k < code.length), mem (org + BitVec.ofNat 16 k) = code[k]

/-- A store elsewhere leaves a program as it is. -/
theorem Loaded.update {org : U16} {code : List U8} {mem : Memory} (h : Loaded org code mem)
    {addr : U16} (value : U8) (haddr : ∀ k < code.length, org + BitVec.ofNat 16 k ≠ addr) :
    Loaded org code (Function.update mem addr value) := by
  intro k hk
  rw [Function.update_of_ne (haddr k hk)]
  exact h k hk

/-- A program is loaded at `org`, and the processor is about to go on at its byte `k`. -/
structure Located (org : U16) (code : List U8) (k : ℕ) (a : Arch) : Prop where
  code : Loaded org code a.mem
  pc : a.regs.pc = org + BitVec.ofNat 16 k

namespace Located

variable {org : U16} {code : List U8} {k : ℕ} {a : Arch}

theorem next (h : Located org code k a) (hk : k < code.length) : a.next = instr code[k] := by
  rw [Arch.next, h.pc, h.code k hk]

/-- After the opcode fetch. -/
theorem pc_next (h : Located org code k a) :
    (a.advance 1).regs.pc = org + BitVec.ofNat 16 (k + 1) := by
  rw [BitVec.ofNat_add, ← BitVec.add_assoc, ← h.pc]
  rfl

/-- After an operand byte. -/
theorem pc_past (h : Located org code k a) :
    (a.advance 1).regs.pc + 1 = org + BitVec.ofNat 16 (k + 2) := by
  rw [h.pc_next, BitVec.ofNat_add, BitVec.ofNat_add k 2, BitVec.add_assoc, BitVec.add_assoc]
  rfl

/-- The operand byte. -/
theorem lo (h : Located org code k a) (hk : k + 1 < code.length) :
    (a.advance 1).lo = code[k + 1] := by
  rw [Arch.lo, h.pc_next]
  exact h.code (k + 1) hk

/-- The second operand byte. -/
theorem hi (h : Located org code k a) (hk : k + 2 < code.length) :
    (a.advance 1).hi = code[k + 2] := by
  rw [Arch.hi, h.pc_past]
  exact h.code (k + 2) hk

end Located

section loading

variable (b : FlatBus) (org : U16) (code : List U8)

theorem imageStores_addr (k : ℕ) :
    BitVec.ofNat 16 (org.toNat + k) = org + BitVec.ofNat 16 k := by
  rw [BitVec.ofNat_add, BitVec.ofNat_toNat, BitVec.setWidth_eq]

/-- A program that fits into memory is there once it is loaded. -/
theorem loaded_load (hfits : code.length ≤ 65536) : Loaded org code (b.load org code).memory := by
  intro k hk
  have hlength := FlatBus.length_imageStores org 0 code
  have hstore : lastStore (FlatBus.imageStores org 0 code) (org + BitVec.ofNat 16 k) =
      some code[k] := by
    rw [lastStore_eq_some (i := k) (by omega)]
    · rw [FlatBus.getElem_imageStores org code _ hk]
    · rw [FlatBus.getElem_imageStores org code _ hk, imageStores_addr]
    · intro j hj hkj heq
      rw [FlatBus.getElem_imageStores org code hj (by omega), FlatBus.ofNat_eq_iff] at heq
      simp only [BitVec.toNat_add, BitVec.toNat_ofNat] at heq
      omega
  have hmemory : (b.load org code).memory = storeAll b.memory (FlatBus.imageStores org 0 code) :=
    FlatBus.loadFrom_eq org 0 code b.memory
  rw [hmemory, storeAll_apply, hstore]
  rfl

/-- Loading a program leaves the rest of memory as it is. -/
theorem load_outside {addr : U16} (haddr : ∀ k < code.length, org + BitVec.ofNat 16 k ≠ addr) :
    (b.load org code).memory addr = b.memory addr := by
  have hmemory : (b.load org code).memory = storeAll b.memory (FlatBus.imageStores org 0 code) :=
    FlatBus.loadFrom_eq org 0 code b.memory
  rw [hmemory, storeAll_of_notMem]
  intro store hstore
  obtain ⟨k, hk, rfl⟩ := List.mem_iff_getElem.mp hstore
  have hlength := FlatBus.length_imageStores org 0 code
  rw [FlatBus.getElem_imageStores org code hk (by omega), imageStores_addr]
  exact haddr k (by omega)

end loading

end Mos6502
