import Mathlib.Data.BitVec
import Mathlib.Tactic.IntervalCases

/-!
# Integers, vectors and pages

The fixed-width integers of the emulator are bit vectors of the same width, so
every cast of the source is a `setWidth` and every wrap is the bit vector's own.
-/

namespace Mos6502

abbrev U8 := BitVec 8
abbrev U16 := BitVec 16
abbrev U32 := BitVec 32
abbrev U64 := BitVec 64

/-- How an instruction touches the effective address. It selects the cycle
profile of the indexed addressing modes. -/
inductive Access
  | Read
  | Write
  | ReadModifyWrite
  deriving DecidableEq, Repr

def kNmiVector : U16 := 0xFFFA
def kResetVector : U16 := 0xFFFC
def kIrqVector : U16 := 0xFFFE

def kStackBase : U16 := 0x0100

/-- True when advancing `base` by an index leaves the 256-byte page of `base`. -/
def crossesPage (base effective : U16) : Bool :=
  (base &&& 0xFF00) != (effective &&& 0xFF00)

/-- The little-endian word `lo | (hi << 8)`. -/
def word (lo hi : U8) : U16 := lo.setWidth 16 ||| (hi.setWidth 16 <<< 8)

/-- The address the stack pointer `s` stands for: `kStackBase | s`. -/
def stackAddr (s : U8) : U16 := kStackBase ||| s.setWidth 16

/-- The high byte of an address: the number of its 256-byte page. -/
def page (addr : U16) : U8 := (addr >>> 8).setWidth 8

/-- The low byte of an address: its offset in its page. -/
def offset (addr : U16) : U8 := addr.setWidth 8

@[simp] theorem toNat_word (lo hi : U8) : (word lo hi).toNat = hi.toNat * 256 + lo.toNat := by
  have hlo := lo.isLt
  have hhi := hi.isLt
  have hshift : hi.toNat <<< 8 % 2 ^ 16 = hi.toNat <<< 8 :=
    Nat.mod_eq_of_lt (by rw [Nat.shiftLeft_eq]; omega)
  simp only [word, BitVec.toNat_or, BitVec.toNat_setWidth, BitVec.toNat_shiftLeft]
  rw [Nat.mod_eq_of_lt (by omega), Nat.mod_eq_of_lt (by omega : hi.toNat < 2 ^ 16), hshift,
    Nat.or_comm, ← Nat.shiftLeft_add_eq_or_of_lt hlo, Nat.shiftLeft_eq]

@[simp] theorem toNat_stackAddr (s : U8) : (stackAddr s).toNat = 256 + s.toNat := by
  have hs := s.isLt
  simp only [stackAddr, kStackBase, BitVec.toNat_or, BitVec.toNat_setWidth]
  rw [Nat.mod_eq_of_lt (by omega)]
  exact (Nat.shiftLeft_add_eq_or_of_lt (a := 1) hs).symm

@[simp] theorem toNat_page (addr : U16) : (page addr).toNat = addr.toNat / 256 := by
  have haddr := addr.isLt
  simp only [page, BitVec.toNat_setWidth, BitVec.toNat_ushiftRight, Nat.shiftRight_eq_div_pow]
  omega

@[simp] theorem toNat_offset (addr : U16) : (offset addr).toNat = addr.toNat % 256 := by
  simp [offset]

/-- Two addresses agree when their pages and their offsets do. -/
theorem eq_of_page_offset {a b : U16} (hpage : page a = page b)
    (hoffset : offset a = offset b) : a = b := by
  have hp := congrArg BitVec.toNat hpage
  have ho := congrArg BitVec.toNat hoffset
  simp only [toNat_page, toNat_offset] at hp ho
  apply BitVec.eq_of_toNat_eq
  omega

@[simp] theorem page_word (lo hi : U8) : page (word lo hi) = hi := by
  apply BitVec.eq_of_toNat_eq
  have := lo.isLt
  simp only [toNat_page, toNat_word]
  omega

@[simp] theorem offset_word (lo hi : U8) : offset (word lo hi) = lo := by
  apply BitVec.eq_of_toNat_eq
  have := lo.isLt
  simp only [toNat_offset, toNat_word]
  omega

/-- Splitting an address into its bytes and joining them gives it back. -/
@[simp] theorem word_offset_page (addr : U16) : word (offset addr) (page addr) = addr :=
  eq_of_page_offset (by simp) (by simp)

@[simp] theorem page_stackAddr (s : U8) : page (stackAddr s) = 1 := by
  apply BitVec.eq_of_toNat_eq
  have := s.isLt
  simp only [toNat_page, toNat_stackAddr]
  show _ = 1
  omega

@[simp] theorem offset_stackAddr (s : U8) : offset (stackAddr s) = s := by
  apply BitVec.eq_of_toNat_eq
  have := s.isLt
  simp only [toNat_offset, toNat_stackAddr]
  omega

theorem stackAddr_inj {s t : U8} : stackAddr s = stackAddr t ↔ s = t :=
  ⟨fun h => by simpa using congrArg offset h, fun h => h ▸ rfl⟩

/-- Masking with `0xFF00` clears the offset of an address. -/
theorem toNat_and_FF00 (addr : U16) : (addr &&& 0xFF00).toNat = addr.toNat / 256 * 256 := by
  have hshift : addr &&& (0xFF00 : U16) = (addr >>> 8) <<< 8 := by
    apply BitVec.eq_of_getLsbD_eq
    intro i hi
    have hmask : (0xFF00 : U16).getLsbD i = decide (8 ≤ i) := by interval_cases i <;> rfl
    rw [BitVec.getLsbD_and, hmask, BitVec.getLsbD_shiftLeft,
      BitVec.getLsbD_ushiftRight]
    by_cases h : 8 ≤ i
    · simp [h, hi, Nat.not_lt.mpr h]
    · simp [h, Nat.lt_of_not_le h]
  have haddr := addr.isLt
  rw [hshift, BitVec.toNat_shiftLeft, BitVec.toNat_ushiftRight,
    Nat.shiftLeft_eq, Nat.shiftRight_eq_div_pow]
  omega

theorem and_FF00 (addr : U16) : addr &&& (0xFF00 : U16) = (page addr).setWidth 16 <<< 8 := by
  apply BitVec.eq_of_toNat_eq
  have := addr.isLt
  rw [toNat_and_FF00, BitVec.toNat_shiftLeft, BitVec.toNat_setWidth, toNat_page,
    Nat.shiftLeft_eq]
  omega

theorem and_00FF (addr : U16) : addr &&& (0x00FF : U16) = (offset addr).setWidth 16 := by
  apply BitVec.eq_of_toNat_eq
  rw [BitVec.toNat_and, BitVec.toNat_setWidth, toNat_offset]
  exact (Nat.and_two_pow_sub_one_eq_mod addr.toNat 8).trans (by omega)

/-- Joining the page of one address to the offset of another by masks. -/
theorem mask_or_mask (base addr : U16) :
    (base &&& 0xFF00) ||| (addr &&& 0x00FF) = word (offset addr) (page base) := by
  rw [and_FF00, and_00FF, BitVec.or_comm, word]

/-- Joining a shifted byte to the offset of an address. -/
theorem shift_or_mask (value : U8) (addr : U16) :
    (value.setWidth 16 <<< 8) ||| (addr &&& 0x00FF) = word (offset addr) value := by
  rw [and_00FF, BitVec.or_comm, word]

/-- The page comparison of the source compares the high bytes. -/
theorem crossesPage_iff (base addr : U16) :
    crossesPage base addr = true ↔ page base ≠ page addr := by
  simp only [crossesPage, bne_iff_ne, ne_eq, not_iff_not, ← BitVec.toNat_inj, toNat_and_FF00,
    toNat_page]
  omega

end Mos6502
