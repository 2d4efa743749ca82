import Mos6502.Operations
import Mos6502.Numerals.CarryChain

/-!
# Numbers of many bytes

A program adds and subtracts long numbers byte by byte, and only the carry flag goes from
one byte to the next. In binary mode V and N of the last byte are those of the whole
number. In decimal mode the bytes stay pairs of decimal digits.
-/

namespace Mos6502

open Numerals

/-- The operation on a freshly loaded accumulator. -/
def onLoaded (op : U8 → Registers → Registers) (r : Registers) (a b : U8) : Registers :=
  op b { r with a }

/-- The operation on two little-endian numbers, byte by byte: the accumulator is loaded
afresh each time, and the carry is carried over. -/
def byteByByte (op : U8 → Registers → Registers) (a b : List U8) (r : Registers) :
    List U8 × Registers :=
  chain (onLoaded op) Registers.a (a.zip b) r

/-- The number of a list of bytes, the least significant byte first. -/
abbrev unsigned (bytes : List U8) : ℕ := number BitVec.toNat 256 bytes

/-- The two's complement number of a list of bytes. -/
abbrev signed (bytes : List U8) : ℤ := signedNumber BitVec.toNat 256 bytes

/-- The number of a byte of two decimal digits. -/
def bcd (x : U8) : ℕ := 10 * (x >>> 4).toNat + (x &&& 0x0F).toNat

/-- Both nibbles of the byte are decimal digits. -/
def IsBcd (x : U8) : Prop := x >>> 4 ≤ 0x09 ∧ x &&& 0x0F ≤ 0x09

instance (x : U8) : Decidable (IsBcd x) := inferInstanceAs (Decidable (_ ∧ _))

/-- The number of a list of bytes of two decimal digits, the least significant first. -/
abbrev decimal (bytes : List U8) : ℕ := number bcd 100 bytes

/-! ### One byte in binary mode -/

section binary

variable (V : Variant) (value : U8) {r : Registers}

/-- The sum of two bytes and a carry, in sixteen bits. -/
private theorem toNat_bin (x y : U8) (c : Bool) :
    (x.setWidth 16 + y.setWidth 16 + (if c then 1 else 0) : U16).toNat =
      x.toNat + y.toNat + c.toNat := by
  have hx := x.isLt
  have hy := y.isLt
  cases c <;> simp <;> omega

/-- The carry is the ninth bit of a sum. -/
private theorem bin_balance {bin : U16} (hbin : bin.toNat < 512) :
    (bin.setWidth 8).toNat + 256 * (decide (bin > 0xFF)).toNat = bin.toNat := by
  have hcarry : bin > 0xFF ↔ 255 < bin.toNat := BitVec.lt_def
  rw [BitVec.toNat_setWidth]
  by_cases h : 255 < bin.toNat
  · simp only [hcarry, h, decide_true, Bool.toNat_true]
    omega
  · simp only [hcarry, h, decide_false, Bool.toNat_false]
    omega

private theorem signBit (x : U8) : ((x &&& 0x80) != 0) = x.msb := by
  have hand : x &&& 0x80 = if x.getLsbD 7 then 0x80 else 0 := BitVec.and_twoPow x 7
  rw [hand, BitVec.msb_eq_getLsbD_last]
  cases x.getLsbD 7 <;> rfl

/-- The sign of a byte. -/
theorem sign_cases (x : U8) :
    (x.msb = false ∧ x.toNat < 128 ∧ x.toInt = x.toNat) ∨
      (x.msb = true ∧ 128 ≤ x.toNat ∧ x.toInt = x.toNat - 256) := by
  have hx := x.isLt
  have hmsb : x.msb = decide (128 ≤ x.toNat) := x.msb_eq_decide
  rw [x.toInt_eq_msb_cond, hmsb]
  by_cases h : 128 ≤ x.toNat
  · exact .inr (by simp [h])
  · exact .inl (by simp [h]; omega)

theorem addWithCarry_binary (hd : r.d = false) :
    (addWithCarry V value r).a.toNat + 256 * (addWithCarry V value r).c.toNat =
      r.a.toNat + value.toNat + r.c.toNat := by
  have hbin := toNat_bin r.a value r.c
  have hc : r.c.toNat ≤ 1 := Bool.toNat_le r.c
  simp only [addWithCarry, hd, Bool.and_false, Bool.false_eq_true, if_false, Registers.setZN]
  rw [bin_balance (by omega), hbin]

theorem addWithCarry_sign (hd : r.d = false) :
    (addWithCarry V value r).n = (addWithCarry V value r).a.msb ∧
      (addWithCarry V value r).v =
        (!(r.a.msb ^^ value.msb) && (r.a.msb ^^ (addWithCarry V value r).a.msb)) := by
  simp only [addWithCarry, hd, Bool.and_false, Bool.false_eq_true, if_false, Registers.setZN,
    signBit]
  simp

/-- V tells that the signed sum does not fit in a byte. -/
theorem addWithCarry_overflow (hd : r.d = false) :
    (addWithCarry V value r).v = true ↔
      ¬(-128 ≤ r.a.toInt + (value.toInt + r.c.toNat) ∧
        r.a.toInt + (value.toInt + r.c.toNat) < 128) := by
  have hbalance := addWithCarry_binary V value hd
  have hc : r.c.toNat ≤ 1 := Bool.toNat_le r.c
  have hc' := Bool.toNat_le (addWithCarry V value r).c
  rw [(addWithCarry_sign V value hd).2]
  rcases sign_cases r.a with ⟨ha, ha', hai⟩ | ⟨ha, ha', hai⟩ <;>
  rcases sign_cases value with ⟨hv, hv', hvi⟩ | ⟨hv, hv', hvi⟩ <;>
  rcases sign_cases (addWithCarry V value r).a with ⟨hs, hs', _⟩ | ⟨hs, hs', _⟩ <;>
  simp [ha, hv, hs, hai, hvi] <;> omega

/-- The sum that the flags of a subtraction come from: with the complement. -/
private theorem toNat_complement (x y : U8) (c : Bool) :
    (x.setWidth 16 + (~~~y).setWidth 16 + (if c then 1 else 0) : U16).toNat + y.toNat +
      (!c).toNat = 256 + x.toNat := by
  have hy := y.isLt
  rw [toNat_bin, BitVec.toNat_not]
  cases c <;> simp <;> omega

/-- The carry of a subtraction, in both modes: there is no borrow. -/
theorem subtractWithBorrow_carry :
    (subtractWithBorrow V value r).c = true ↔ value.toNat + (!r.c).toNat ≤ r.a.toNat := by
  have hbin := toNat_complement r.a value r.c
  have hc : (subtractWithBorrow V value r).c = decide
      ((r.a.setWidth 16 + (~~~value).setWidth 16 + (if r.c then 1 else 0) : U16) > 0xFF) := by
    unfold subtractWithBorrow
    extract_lets
    split <;> rfl
  rw [hc, decide_eq_true_iff, gt_iff_lt, BitVec.lt_def]
  change 255 < _ ↔ _
  omega

theorem subtractWithBorrow_binary (hd : r.d = false) :
    ((subtractWithBorrow V value r).a.toNat : ℤ) - 256 * (!(subtractWithBorrow V value r).c).toNat =
      r.a.toNat - (value.toNat + (!r.c).toNat) := by
  have hbin := toNat_complement r.a value r.c
  have hvalue := value.isLt
  have hb : (!r.c).toNat ≤ 1 := Bool.toNat_le _
  have ha := r.a.isLt
  have hlt : (r.a.setWidth 16 + (~~~value).setWidth 16 + (if r.c then 1 else 0) : U16).toNat <
      512 := by
    omega
  have hbalance := bin_balance hlt
  simp only [subtractWithBorrow, hd, Bool.and_false, Bool.false_eq_true, if_false, Registers.setZN]
  generalize decide (_ > (0xFF : U16)) = c' at hbalance ⊢
  cases c' <;> simp at * <;> omega

theorem subtractWithBorrow_sign (hd : r.d = false) :
    (subtractWithBorrow V value r).n = (subtractWithBorrow V value r).a.msb ∧
      (subtractWithBorrow V value r).v =
        ((r.a.msb ^^ value.msb) && (r.a.msb ^^ (subtractWithBorrow V value r).a.msb)) := by
  simp only [subtractWithBorrow, hd, Bool.and_false, Bool.false_eq_true, if_false, Registers.setZN,
    signBit]
  simp

/-- V tells that the signed difference does not fit in a byte. -/
theorem subtractWithBorrow_overflow (hd : r.d = false) :
    (subtractWithBorrow V value r).v = true ↔
      ¬(-128 ≤ r.a.toInt - (value.toInt + (!r.c).toNat) ∧
        r.a.toInt - (value.toInt + (!r.c).toNat) < 128) := by
  have hbalance := subtractWithBorrow_binary V value hd
  have hb : (!r.c).toNat ≤ 1 := Bool.toNat_le _
  have hb' := Bool.toNat_le (!(subtractWithBorrow V value r).c)
  rw [(subtractWithBorrow_sign V value hd).2]
  rcases sign_cases r.a with ⟨ha, ha', hai⟩ | ⟨ha, ha', hai⟩ <;>
  rcases sign_cases value with ⟨hv, hv', hvi⟩ | ⟨hv, hv', hvi⟩ <;>
  rcases sign_cases (subtractWithBorrow V value r).a with ⟨hs, hs', _⟩ | ⟨hs, hs', _⟩ <;>
  simp only [ha, hv, hs, hai, hvi] <;> simp <;> omega

end binary

/-! ### One byte in decimal mode -/

section decimal

variable (V : Variant) (value : U8) {r : Registers}

private theorem nibbles (x : U8) :
    (x &&& 0x0F).toNat = x.toNat % 16 ∧ (x >>> 4).toNat = x.toNat / 16 := by
  constructor
  · exact (BitVec.toNat_and x 0x0F).trans (Nat.and_two_pow_sub_one_eq_mod x.toNat 4)
  · rw [BitVec.toNat_ushiftRight, Nat.shiftRight_eq_div_pow]

private theorem bcd_eq (x : U8) : bcd x = 10 * (x.toNat / 16) + x.toNat % 16 := by
  rw [bcd, (nibbles x).1, (nibbles x).2]

private theorem isBcd_iff (x : U8) : IsBcd x ↔ x.toNat / 16 ≤ 9 ∧ x.toNat % 16 ≤ 9 := by
  rw [IsBcd, BitVec.le_def, BitVec.le_def, (nibbles x).1, (nibbles x).2]
  rfl

private theorem join_nibbles (hi lo : ℕ) : hi <<< 4 ||| lo % 16 = hi * 16 + lo % 16 := by
  rw [← Nat.shiftLeft_add_eq_or_of_lt (show lo % 16 < 2 ^ 4 by omega), Nat.shiftLeft_eq]

/-- The byte of the two nibbles of a sum. -/
private theorem toNat_join (hi lo : U16) :
    (((hi <<< 4) ||| (lo &&& 0x0F)).setWidth 8).toNat = hi.toNat % 16 * 16 + lo.toNat % 16 := by
  have hlow : (lo &&& 0x0F).toNat = lo.toNat % 16 := Nat.and_two_pow_sub_one_eq_mod lo.toNat 4
  have hhigh : (hi <<< 4).toNat = (hi.toNat % 4096) <<< 4 := by
    rw [BitVec.toNat_shiftLeft, Nat.shiftLeft_eq, Nat.shiftLeft_eq]
    omega
  rw [BitVec.toNat_setWidth, BitVec.toNat_or, hlow, hhigh, join_nibbles]
  omega

/-- A correction that does not wrap. -/
private theorem toNat_corrected {p : Prop} [Decidable p] {x k : U16} {n : ℕ} (hk : k.toNat = n)
    (h : x.toNat + n < 2 ^ 16) :
    (if p then x + k else x).toNat = x.toNat + if p then n else 0 := by
  split
  · rw [BitVec.toNat_add, hk, Nat.mod_eq_of_lt h]
  · rfl

/-- The corrections of a decimal sum, in natural numbers. -/
theorem addWithCarry_nibbles (hV : V.decimalMode = true) (hd : r.d = true) :
    let lo₀ := r.a.toNat % 16 + value.toNat % 16 + r.c.toNat
    let hi := r.a.toNat / 16 + value.toNat / 16 + if 9 < lo₀ then 1 else 0
    (addWithCarry V value r).a.toNat =
        (if 9 < hi then hi + 6 else hi) % 16 * 16 + (if 9 < lo₀ then lo₀ + 6 else lo₀) % 16 ∧
      (addWithCarry V value r).c = decide (15 < if 9 < hi then hi + 6 else hi) := by
  intro lo₀ hi
  obtain ⟨hal, hah⟩ := nibbles r.a
  obtain ⟨hvl, hvh⟩ := nibbles value
  have ha := r.a.isLt
  have hv := value.isLt
  have hc : r.c.toNat ≤ 1 := Bool.toNat_le r.c
  have hnine (x : U16) : x > 0x09 ↔ 9 < x.toNat := BitVec.lt_def
  have hfifteen (x : U16) : x > 0x0F ↔ 15 < x.toNat := BitVec.lt_def
  have hlo : ((r.a &&& 0x0F).setWidth 16 + (value &&& 0x0F).setWidth 16 +
      (if r.c then 1 else 0) : U16).toNat = lo₀ := by
    rw [toNat_bin, hal, hvl]
  have hhi : ((r.a >>> 4).setWidth 16 + (value >>> 4).setWidth 16 : U16).toNat =
      r.a.toNat / 16 + value.toNat / 16 := by
    rw [BitVec.toNat_add, BitVec.toNat_setWidth, BitVec.toNat_setWidth, hah, hvh]
    omega
  simp only [addWithCarry, hV, hd, Bool.and_self, if_true, toNat_join, hnine, hfifteen, hlo]
  generalize (r.a &&& 0x0F).setWidth 16 + (value &&& 0x0F).setWidth 16 +
    (if r.c then 1 else 0 : U16) = lo₁ at *
  generalize (r.a >>> 4).setWidth 16 + (value >>> 4).setWidth 16 = hi₁ at *
  have hhalf : (if 9 < lo₀ then hi₁ + 1 else hi₁).toNat = hi := by
    rw [toNat_corrected (n := 1) rfl (by omega), hhi]
  have hlow : (if 9 < lo₀ then lo₁ + 0x06 else lo₁).toNat = lo₀ + if 9 < lo₀ then 6 else 0 := by
    rw [toNat_corrected (n := 6) rfl (by omega), hlo]
  generalize (if 9 < lo₀ then hi₁ + 1 else hi₁) = hi₂ at *
  have hhigh : (if 9 < hi then hi₂ + 0x06 else hi₂).toNat = hi + if 9 < hi then 6 else 0 := by
    have hle : hi ≤ 31 := by
      simp only [hi]
      split_ifs <;> omega
    rw [toNat_corrected (n := 6) rfl (by omega), hhalf]
  rw [hhalf, hhigh, hlow]
  constructor <;> split_ifs <;> rfl

/-- A sum of two decimal digits and a carry, corrected where it is not a digit. -/
private theorem corrected_digit {s : ℕ} (hs : s < 20) :
    (if 9 < s then s + 6 else s) % 16 ≤ 9 ∧
      (if 9 < s then s + 6 else s) % 16 + 10 * (if 9 < s then 1 else 0) = s ∧
      (decide (15 < if 9 < s then s + 6 else s)).toNat = if 9 < s then 1 else 0 := by
  by_cases h : 9 < s
  · have hcarry : 15 < s + 6 := by omega
    simp only [if_pos h, decide_eq_true hcarry, Bool.toNat_true, and_true]
    omega
  · have hcarry : ¬ 15 < s := by omega
    simp only [if_neg h, decide_eq_false hcarry, Bool.toNat_false, and_true]
    omega

/-- The sum of two bytes of decimal digits is such a byte, and the carry. -/
theorem addWithCarry_decimal (hV : V.decimalMode = true) (hd : r.d = true) (ha : IsBcd r.a)
    (hvalue : IsBcd value) :
    IsBcd (addWithCarry V value r).a ∧
      bcd (addWithCarry V value r).a + 100 * (addWithCarry V value r).c.toNat =
        bcd r.a + bcd value + r.c.toNat := by
  obtain ⟨hresult, hcarry⟩ := addWithCarry_nibbles V value hV hd
  have hc : r.c.toNat ≤ 1 := Bool.toNat_le r.c
  rw [isBcd_iff] at ha hvalue
  rw [isBcd_iff, bcd_eq, bcd_eq, bcd_eq, hresult, hcarry]
  generalize hlo : r.a.toNat % 16 + value.toNat % 16 + r.c.toNat = lo
  obtain ⟨hlow, hhalf, _⟩ := corrected_digit (s := lo) (by omega)
  generalize (if 9 < lo then 1 else 0) = half at *
  generalize hhi : r.a.toNat / 16 + value.toNat / 16 + half = hi
  obtain ⟨hhigh, hfull, hout⟩ := corrected_digit (s := hi) (by omega)
  rw [hout]
  omega

/-! The nibble differences are negative integers in 32 bits where there is a borrow. -/

private theorem signBit_nibble {x : U32} {t : ℤ} (hx : (x.toNat : ℤ) = t % 2 ^ 32) (ht : -16 ≤ t)
    (ht' : t < 16) : ((x &&& 0x10) != 0) = decide (t < 0) := by
  have hand : x &&& 0x10 = if x.toNat.testBit 4 then 0x10 else 0 := BitVec.and_twoPow x 4
  rw [hand, Nat.testBit_eq_decide_div_mod_eq]
  by_cases hneg : t < 0
  · have hbit : x.toNat / 2 ^ 4 % 2 = 1 := by omega
    rw [decide_eq_true hneg, decide_eq_true hbit]
    rfl
  · have hbit : ¬ x.toNat / 2 ^ 4 % 2 = 1 := by omega
    rw [decide_eq_false hneg, decide_eq_false hbit]
    rfl

/-- A difference in 32 bits. -/
private theorem toNat_sub_int {x y : U32} {t u : ℤ} (hx : (x.toNat : ℤ) = t % 2 ^ 32)
    (hy : (y.toNat : ℤ) = u) : ((x - y).toNat : ℤ) = (t - u) % 2 ^ 32 := by
  have hlt := y.isLt
  rw [BitVec.toNat_sub]
  omega

private theorem toNat_corrected_sub {p : Prop} [Decidable p] {x k : U32} {t n : ℤ}
    (hk : (k.toNat : ℤ) = n) (hx : (x.toNat : ℤ) = t % 2 ^ 32) :
    ((if p then x - k else x).toNat : ℤ) = (t - if p then n else 0) % 2 ^ 32 := by
  split
  · exact toNat_sub_int hx hk
  · rw [hx, Int.sub_zero]

private theorem toNat_join_sub (hi lo : U32) :
    ((((hi &&& 0x0F) <<< 4) ||| (lo &&& 0x0F)).setWidth 8).toNat =
      hi.toNat % 16 * 16 + lo.toNat % 16 := by
  have hlow (x : U32) : (x &&& 0x0F).toNat = x.toNat % 16 :=
    Nat.and_two_pow_sub_one_eq_mod x.toNat 4
  have hhigh : ((hi &&& 0x0F) <<< 4).toNat = (hi.toNat % 16) <<< 4 := by
    rw [BitVec.toNat_shiftLeft, hlow, Nat.shiftLeft_eq]
    omega
  rw [BitVec.toNat_setWidth, BitVec.toNat_or, hlow, hhigh, join_nibbles]
  omega

/-- The corrections of a decimal difference, in integers. -/
theorem subtractWithBorrow_nibbles (hV : V.decimalMode = true) (hd : r.d = true) :
    let lo : ℤ := (r.a.toNat % 16 : ℕ) - (value.toNat % 16 : ℕ) - (!r.c).toNat
    let hi : ℤ := (r.a.toNat / 16 : ℕ) - (value.toNat / 16 : ℕ) - if lo < 0 then 1 else 0
    ((subtractWithBorrow V value r).a.toNat : ℤ) =
      (hi - if hi < 0 then 6 else 0) % 16 * 16 + (lo - if lo < 0 then 6 else 0) % 16 := by
  intro lo hi
  obtain ⟨hal, hah⟩ := nibbles r.a
  obtain ⟨hvl, hvh⟩ := nibbles value
  have ha := r.a.isLt
  have hv := value.isLt
  have hb : (!r.c).toNat ≤ 1 := Bool.toNat_le _
  have hwide (x : U8) : (x.setWidth 32).toNat = x.toNat := by
    rw [BitVec.toNat_setWidth]
    omega
  have hborrow : ((1 - (if r.c then 1 else 0 : U16)).setWidth 32).toNat = (!r.c).toNat := by
    cases r.c <;> rfl
  have hlo : (((r.a &&& 0x0F).setWidth 32 - (value &&& 0x0F).setWidth 32 -
      (1 - (if r.c then 1 else 0 : U16)).setWidth 32 : U32).toNat : ℤ) = lo % 2 ^ 32 := by
    refine toNat_sub_int (toNat_sub_int ?_ ?_) (by rw [hborrow])
    · rw [hwide, hal]
      omega
    · rw [hwide, hvl]
  have hhi : (((r.a >>> 4).setWidth 32 - (value >>> 4).setWidth 32 : U32).toNat : ℤ) =
      ((r.a.toNat / 16 : ℕ) - (value.toNat / 16 : ℕ)) % 2 ^ 32 := by
    refine toNat_sub_int ?_ ?_
    · rw [hwide, hah]
      omega
    · rw [hwide, hvh]
  simp only [subtractWithBorrow, hV, hd, Bool.and_self, if_true, toNat_join_sub,
    signBit_nibble hlo (by omega) (by omega), decide_eq_true_eq]
  generalize (r.a &&& 0x0F).setWidth 32 - (value &&& 0x0F).setWidth 32 -
    (1 - (if r.c then 1 else 0 : U16)).setWidth 32 = lo₁ at *
  generalize (r.a >>> 4).setWidth 32 - (value >>> 4).setWidth 32 = hi₁ at *
  have hhalf : ((if lo < 0 then hi₁ - 1 else hi₁).toNat : ℤ) = hi % 2 ^ 32 :=
    toNat_corrected_sub (n := 1) rfl hhi
  have hlow : ((if lo < 0 then lo₁ - 0x06 else lo₁).toNat : ℤ) =
      (lo - if lo < 0 then 6 else 0) % 2 ^ 32 := toNat_corrected_sub (n := 6) rfl hlo
  generalize (if lo < 0 then hi₁ - 1 else hi₁) = hi₂ at *
  have hrange : -16 ≤ hi ∧ hi < 16 := by
    simp only [hi]
    split_ifs <;> omega
  simp only [signBit_nibble hhalf hrange.1 hrange.2, decide_eq_true_eq]
  have hhigh : ((if hi < 0 then hi₂ - 0x06 else hi₂).toNat : ℤ) =
      (hi - if hi < 0 then 6 else 0) % 2 ^ 32 := toNat_corrected_sub (n := 6) rfl hhalf
  omega

/-- A difference of two decimal digits and a borrow, corrected where it is negative. -/
private theorem corrected_difference {t : ℤ} (ht : -10 ≤ t) (ht' : t < 10) :
    ∃ digit borrow : ℤ, (t - if t < 0 then 6 else 0) % 16 = digit ∧
      (if t < 0 then 1 else 0) = borrow ∧ 0 ≤ digit ∧ digit ≤ 9 ∧ digit = t + 10 * borrow := by
  refine ⟨_, _, rfl, rfl, ?_⟩
  split_ifs <;> omega

private theorem nibbles_of_join {x : ℕ} {hi lo : ℤ} (h : (x : ℤ) = hi * 16 + lo) (hlo : 0 ≤ lo)
    (hlo' : lo ≤ 9) : ((x / 16 : ℕ) : ℤ) = hi ∧ ((x % 16 : ℕ) : ℤ) = lo := by
  omega

/-- The difference of two bytes of decimal digits is such a byte, and the borrow. The
carry is that of the binary subtraction. -/
theorem subtractWithBorrow_decimal (hV : V.decimalMode = true) (hd : r.d = true)
    (ha : IsBcd r.a) (hvalue : IsBcd value) :
    IsBcd (subtractWithBorrow V value r).a ∧
      (bcd (subtractWithBorrow V value r).a : ℤ) -
          100 * (!(subtractWithBorrow V value r).c).toNat =
        bcd r.a - (bcd value + (!r.c).toNat) := by
  have hresult := subtractWithBorrow_nibbles V value hV hd
  have hcarry := subtractWithBorrow_carry V value (r := r)
  have hb : (!r.c).toNat ≤ 1 := Bool.toNat_le _
  have hsplit := Nat.div_add_mod r.a.toNat 16
  have hsplit' := Nat.div_add_mod value.toNat 16
  rw [isBcd_iff] at ha hvalue
  rw [isBcd_iff, bcd_eq, bcd_eq, bcd_eq]
  generalize r.a.toNat / 16 = ah at *
  generalize r.a.toNat % 16 = al at *
  generalize value.toNat / 16 = vh at *
  generalize value.toNat % 16 = vl at *
  obtain ⟨lo, half, hlo, hhalf, hlo₀, hlo₉, hlow⟩ :=
    corrected_difference (t := al - vl - (!r.c).toNat) (by omega) (by omega)
  simp only [hlo, hhalf] at hresult
  obtain ⟨hi, full, hhi, hfull, hhi₀, hhi₉, hhigh⟩ :=
    corrected_difference (t := ah - vh - half) (by omega) (by omega)
  rw [hhi] at hresult
  obtain ⟨hquot, hrem⟩ := nibbles_of_join hresult hlo₀ hlo₉
  -- The borrow of the high digit is the borrow of the whole byte.
  have hborrow : ((!(subtractWithBorrow V value r).c).toNat : ℤ) = full := by
    cases hc : (subtractWithBorrow V value r).c with
    | false =>
      have hless : ¬ value.toNat + (!r.c).toNat ≤ r.a.toNat := by simpa [hc] using hcarry
      simp only [Bool.not_false, Bool.toNat_true]
      omega
    | true =>
      have hle := hcarry.mp hc
      simp only [Bool.not_true, Bool.toNat_false]
      omega
  rw [hborrow]
  generalize (subtractWithBorrow V value r).a.toNat / 16 = sh at *
  generalize (subtractWithBorrow V value r).a.toNat % 16 = sl at *
  push_cast
  omega

end decimal

/-! ### Whole numbers -/

section steps

/-- An operation that leaves D alone goes digit by digit as it does on one byte. -/
private theorem digitStep_of_byte {op : U8 → Registers → Registers} {mode : Bool} {ε : ℤ}
    {digit : U8 → ℕ} {base : ℕ} {Valid : U8 → Prop} {carry : Registers → ℕ}
    (hkeeps : ∀ y r, (op y r).d = r.d) (hcarry : ∀ r a, carry { r with a } = carry r)
    (hbyte : ∀ y r, r.d = mode → Valid r.a → Valid y → Valid (op y r).a ∧
      (digit (op y r).a : ℤ) + ε * (base * carry (op y r)) =
        digit r.a + ε * (digit y + carry r)) :
    DigitStep (onLoaded op) Registers.a ε digit base (fun r => r.d = mode) Valid carry where
  inv {r x y} hd _ _ := (hkeeps y { r with a := x }).trans hd
  valid {r x y} hd hx hy := (hbyte y { r with a := x } hd hx hy).1
  balance {r x y} hd hx hy := by
    rw [← hcarry r x]
    exact (hbyte y { r with a := x } hd hx hy).2

variable (V : Variant)

private theorem addWithCarry_d (y : U8) (r : Registers) : (addWithCarry V y r).d = r.d := by
  obtain ⟨_, _, _, _, _, h⟩ := addWithCarry_keeps V y r
  rw [h]

theorem subtractWithBorrow_d (y : U8) (r : Registers) :
    (subtractWithBorrow V y r).d = r.d := by
  obtain ⟨_, _, _, _, _, h⟩ := subtractWithBorrow_keeps V y r
  rw [h]

/-- In binary mode a byte is a digit in base 256. -/
theorem addWithCarry_digitStep :
    DigitStep (onLoaded (addWithCarry V)) Registers.a 1 BitVec.toNat 256
      (fun r => r.d = false) (fun _ => True) (fun r => r.c.toNat) :=
  digitStep_of_byte (addWithCarry_d V) (fun _ _ => rfl) fun y r hd _ _ => by
    have h := addWithCarry_binary V y hd
    exact ⟨trivial, by omega⟩

theorem subtractWithBorrow_digitStep :
    DigitStep (onLoaded (subtractWithBorrow V)) Registers.a (-1) BitVec.toNat 256
      (fun r => r.d = false) (fun _ => True) (fun r => (!r.c).toNat) :=
  digitStep_of_byte (subtractWithBorrow_d V) (fun _ _ => rfl) fun y r hd _ _ => by
    have h := subtractWithBorrow_binary V y hd
    exact ⟨trivial, by omega⟩

variable {V}

/-- In decimal mode a byte of two decimal digits is a digit in base 100. -/
theorem addWithCarry_decimalStep (hV : V.decimalMode = true) :
    DigitStep (onLoaded (addWithCarry V)) Registers.a 1 bcd 100
      (fun r => r.d = true) IsBcd (fun r => r.c.toNat) :=
  digitStep_of_byte (addWithCarry_d V) (fun _ _ => rfl) fun y r hd ha hy => by
    obtain ⟨hvalid, h⟩ := addWithCarry_decimal V y hV hd ha hy
    exact ⟨hvalid, by omega⟩

theorem subtractWithBorrow_decimalStep (hV : V.decimalMode = true) :
    DigitStep (onLoaded (subtractWithBorrow V)) Registers.a (-1) bcd 100
      (fun r => r.d = true) IsBcd (fun r => (!r.c).toNat) :=
  digitStep_of_byte (subtractWithBorrow_d V) (fun _ _ => rfl) fun y r hd ha hy => by
    obtain ⟨hvalid, h⟩ := subtractWithBorrow_decimal V y hV hd ha hy
    exact ⟨hvalid, by omega⟩

end steps

section lists

variable {n : ℕ} {a b : List U8}

theorem zip_facts (ha : a.length = n) (hb : b.length = n) :
    (a.zip b).length = n ∧ (a.zip b).map Prod.fst = a ∧ (a.zip b).map Prod.snd = b :=
  ⟨by simp [ha, hb], List.map_fst_zip (by omega), List.map_snd_zip (by omega)⟩

/-- The last bytes of two numbers, and the bytes below them. -/
theorem exists_last (hn : 1 ≤ n) (ha : a.length = n) (hb : b.length = n) :
    ∃ low : List (U8 × U8), ∃ x y, low.length + 1 = n ∧ a.zip b = low ++ [(x, y)] ∧
      a = low.map Prod.fst ++ [x] ∧ b = low.map Prod.snd ++ [y] := by
  obtain ⟨hlength, hfst, hsnd⟩ := zip_facts ha hb
  rcases List.eq_nil_or_concat (a.zip b) with hnil | ⟨low, ⟨x, y⟩, hconcat⟩
  · rw [hnil, List.length_nil] at hlength
    omega
  · rw [List.concat_eq_append] at hconcat
    rw [hconcat] at hlength hfst hsnd
    refine ⟨low, x, y, by simpa using hlength, hconcat, ?_, ?_⟩
    · simpa using hfst.symm
    · simpa using hsnd.symm

end lists

/-- Half the range of the numbers of `k + 1` bytes. -/
private theorem half_range (k : ℕ) : 256 ^ k * 128 = 2 ^ (8 * (k + 1) - 1) := by
  have hexp : 8 * (k + 1) - 1 = 8 * k + 7 := by omega
  rw [hexp, pow_add, pow_mul]
  rfl

/-- The sign of the last byte is the sign bit of the number. -/
private theorem sign_iff {low : List U8} {top : U8} {n : ℕ} (hn : low.length + 1 = n) :
    top.msb = true ↔ 2 ^ (8 * n - 1) ≤ unsigned (low ++ [top]) := by
  have hlow : unsigned low < 256 ^ low.length := number_lt (by decide) fun x _ => x.isLt
  have hmsb : top.msb = decide (128 ≤ top.toNat) := top.msb_eq_decide
  rw [hmsb, decide_eq_true_iff, ← hn, ← half_range, unsigned, number_concat]
  have hle := le_add_mul_iff (t := top.toNat) (h := 128) (Int.natCast_nonneg _)
    (Int.ofNat_lt.mpr hlow)
  exact_mod_cast hle.symm

section last

variable {op : U8 → Registers → Registers} {ε : ℤ} {carry : Registers → ℕ}
  (hstep : DigitStep (onLoaded op) Registers.a ε BitVec.toNat 256 (fun r => r.d = false)
    (fun _ => True) carry)
  {r : Registers} (hd : r.d = false) {n : ℕ} (hn : 1 ≤ n) {a b : List U8} (ha : a.length = n)
  (hb : b.length = n)
include hstep hd hn ha hb

/-- The overflow of the last bytes is that of the whole numbers. -/
private theorem overflow_iff (hcarry : ∀ r a, carry { r with a } = carry r)
    (hbyte : ∀ y r, r.d = false → ((op y r).v = true ↔
      ¬(-128 ≤ r.a.toInt + ε * (y.toInt + carry r) ∧
        r.a.toInt + ε * (y.toInt + carry r) < 128))) :
    (byteByByte op a b r).2.v = true ↔
      ¬(-2 ^ (8 * n - 1) ≤ signed a + ε * (signed b + carry r) ∧
        signed a + ε * (signed b + carry r) ≤ 2 ^ (8 * n - 1) - 1) := by
  obtain ⟨low, x, y, hlow, hzip, hx, hy⟩ := exists_last hn ha hb
  have hpairs : ∀ p ∈ low, True ∧ True := fun _ _ => ⟨trivial, trivial⟩
  have hbelow := (hstep.of_chain hd hpairs).1
  have hlast := hbyte y { (chain (onLoaded op) Registers.a low r).2 with a := x } hbelow
  have hrange := hstep.mem_range_iff (H := 128) (fun {d} _ => d.isLt) hd hpairs (x := x) (y := y)
    trivial trivial
  have hhalf : ((2 * 128 : ℕ) : ℤ) ^ low.length * (128 : ℕ) = 2 ^ (8 * n - 1) := by
    rw [← hlow]
    exact_mod_cast half_range low.length
  simp only [hhalf, ← hx, ← hy] at hrange
  rw [hcarry, x.toInt_eq_toNat_bmod, y.toInt_eq_toNat_bmod] at hlast
  rw [byteByByte, hzip, chain_concat, Int.le_sub_one_iff, hrange]
  exact hlast

/-- The sign of the last byte is that of the result. -/
private theorem negative_iff (hbyte : ∀ y r, r.d = false → (op y r).n = (op y r).a.msb) :
    (byteByByte op a b r).2.n = true ↔
      2 ^ (8 * n - 1) ≤ unsigned (byteByByte op a b r).1 := by
  obtain ⟨low, x, y, hlow, hzip, _⟩ := exists_last hn ha hb
  have hbelow := (hstep.of_chain hd fun p (_ : p ∈ low) => ⟨trivial, trivial⟩).1
  have hlast := hbyte y { (chain (onLoaded op) Registers.a low r).2 with a := x } hbelow
  rw [byteByByte, hzip, chain_concat]
  refine (iff_of_eq (congrArg (· = true) hlast)).trans (sign_iff ?_)
  rw [length_chain, hlow]

end last

private theorem carry_iff {c : Bool} {total range : ℕ} (h : c.toNat = total / range)
    (hrange : 0 < range) : c = true ↔ range ≤ total := by
  have hpos : 0 < total / range ↔ range ≤ total := by simp [Nat.div_pos_iff, hrange]
  rw [← hpos, ← h]
  cases c <;> simp

theorem borrow_iff (c : Bool) : c = true ↔ (!c).toNat = 0 := by cases c <;> simp

private theorem toNat_borrow (c : Bool) : (!c).toNat = 1 - c.toNat := by cases c <;> rfl

private theorem cast_borrow (c : Bool) : ((!c).toNat : ℤ) = 1 - c.toNat := by cases c <;> rfl

/-- **Binary arithmetic on numbers of many bytes.** C is the carry, and V and N come out of
the last byte as those of the whole number. -/
theorem binary_arithmetic (V : Variant) {r : Registers} (hd : r.d = false) {n : ℕ} (hn : 1 ≤ n)
    {a b : List U8} (ha : a.length = n) (hb : b.length = n) :
    let sum := byteByByte (addWithCarry V) a b r
    let difference := byteByByte (subtractWithBorrow V) a b r
    (sum.1.length = n ∧ unsigned sum.1 = (unsigned a + unsigned b + r.c.toNat) % 256 ^ n ∧
      (sum.2.c = true ↔ 256 ^ n ≤ unsigned a + unsigned b + r.c.toNat) ∧
      (sum.2.v = true ↔ ¬(-2 ^ (8 * n - 1) ≤ signed a + signed b + r.c.toNat ∧
        signed a + signed b + r.c.toNat ≤ 2 ^ (8 * n - 1) - 1)) ∧
      (sum.2.n = true ↔ 2 ^ (8 * n - 1) ≤ unsigned sum.1)) ∧
    (difference.1.length = n ∧
      (unsigned difference.1 : ℤ) = (unsigned a - unsigned b - (1 - r.c.toNat)) % 256 ^ n ∧
      (difference.2.c = true ↔ unsigned b + (1 - r.c.toNat) ≤ unsigned a) ∧
      (difference.2.v = true ↔ ¬(-2 ^ (8 * n - 1) ≤ signed a - signed b - (1 - r.c.toNat) ∧
        signed a - signed b - (1 - r.c.toNat) ≤ 2 ^ (8 * n - 1) - 1)) ∧
      (difference.2.n = true ↔ 2 ^ (8 * n - 1) ≤ unsigned difference.1)) := by
  intro sum difference
  obtain ⟨hlength, hfst, hsnd⟩ := zip_facts ha hb
  have hpairs : ∀ p ∈ a.zip b, True ∧ True := fun _ _ => ⟨trivial, trivial⟩
  constructor
  · have hstep := addWithCarry_digitStep V
    obtain ⟨hvalue, hcarry⟩ := hstep.sum (by decide) (fun {d} _ => d.isLt) hd hpairs
    have hover := overflow_iff hstep hd hn ha hb (fun _ _ => rfl) fun y r hd => by
      rw [one_mul]
      exact addWithCarry_overflow V y hd
    have hnegative := negative_iff hstep hd hn ha hb fun y r hd => (addWithCarry_sign V y hd).1
    rw [hfst, hsnd, hlength] at hvalue hcarry
    rw [one_mul, ← add_assoc] at hover
    exact ⟨(length_chain _ _ _ r).trans hlength, hvalue, carry_iff hcarry (by positivity), hover,
      hnegative⟩
  · have hstep := subtractWithBorrow_digitStep V
    obtain ⟨hvalue, hcarry⟩ := hstep.difference (by decide) (fun {d} _ => d.isLt) hd hpairs
    have hover := overflow_iff hstep hd hn ha hb (fun _ _ => rfl) fun y r hd => by
      rw [neg_one_mul, ← sub_eq_add_neg]
      exact subtractWithBorrow_overflow V y hd
    have hnegative := negative_iff hstep hd hn ha hb fun y r hd =>
      (subtractWithBorrow_sign V y hd).1
    rw [hfst, hsnd, hlength, cast_borrow] at hvalue
    rw [hfst, hsnd, ← borrow_iff, toNat_borrow] at hcarry
    rw [neg_one_mul, ← sub_eq_add_neg, ← sub_sub, cast_borrow] at hover
    exact ⟨(length_chain _ _ _ r).trans hlength, hvalue, hcarry, hover, hnegative⟩

/-- `$1280 + $7F80` leaves the signed range of two bytes, and `$1280 - $1281` borrows. -/
theorem binary_arithmetic_two_bytes :
    let sum := byteByByte (addWithCarry Nmos6502) [0x80, 0x12] [0x80, 0x7F] {}
    let difference := byteByByte (subtractWithBorrow Nmos6502) [0x80, 0x12] [0x81, 0x12]
      { c := true }
    (unsigned sum.1 = 0x9200 ∧ sum.2.c = false ∧ sum.2.v = true) ∧
      (unsigned difference.1 = 0xFFFF ∧ difference.2.c = false ∧ difference.2.v = false) := by
  intro sum difference
  have h := (binary_arithmetic Nmos6502 (r := {}) rfl (n := 2) (by decide)
    (a := [0x80, 0x12]) (b := [0x80, 0x7F]) rfl rfl).1
  have h' := (binary_arithmetic Nmos6502 (r := { c := true }) rfl (n := 2) (by decide)
    (a := [0x80, 0x12]) (b := [0x81, 0x12]) rfl rfl).2
  refine ⟨⟨h.2.1.trans (by decide), ?_, h.2.2.2.1.mpr (by decide)⟩, ?_, ?_, ?_⟩
  · exact Bool.eq_false_iff.mpr (mt h.2.2.1.mp (by decide))
  · exact Int.ofNat_inj.mp (h'.2.1.trans (by decide : _ = ((0xFFFF : ℕ) : ℤ)))
  · exact Bool.eq_false_iff.mpr (mt h'.2.2.1.mp (by decide))
  · exact Bool.eq_false_iff.mpr (mt h'.2.2.2.1.mp (by decide))

/-- **Decimal arithmetic on numbers of many bytes.** On the variants with a decimal mode,
which both chips of the emulator are, bytes of decimal digits stay such bytes. -/
theorem decimal_arithmetic {V : Variant} (hV : V.decimalMode = true) {r : Registers}
    (hd : r.d = true) {n : ℕ} {a b : List U8} (ha : a.length = n) (hb : b.length = n)
    (habcd : ∀ x ∈ a, IsBcd x) (hbbcd : ∀ x ∈ b, IsBcd x) :
    let sum := byteByByte (addWithCarry V) a b r
    let difference := byteByByte (subtractWithBorrow V) a b r
    (sum.1.length = n ∧ (∀ x ∈ sum.1, IsBcd x) ∧
      decimal sum.1 = (decimal a + decimal b + r.c.toNat) % 100 ^ n ∧
      (sum.2.c = true ↔ 100 ^ n ≤ decimal a + decimal b + r.c.toNat)) ∧
    (difference.1.length = n ∧ (∀ x ∈ difference.1, IsBcd x) ∧
      (decimal difference.1 : ℤ) = (decimal a - decimal b - (1 - r.c.toNat)) % 100 ^ n ∧
      (difference.2.c = true ↔ decimal b + (1 - r.c.toNat) ≤ decimal a)) := by
  intro sum difference
  obtain ⟨hlength, hfst, hsnd⟩ := zip_facts ha hb
  have hpairs : ∀ p ∈ a.zip b, IsBcd p.1 ∧ IsBcd p.2 := fun p hp =>
    ⟨habcd _ (List.of_mem_zip hp).1, hbbcd _ (List.of_mem_zip hp).2⟩
  have hdigit {x : U8} (hx : IsBcd x) : bcd x < 100 := by
    rw [isBcd_iff] at hx
    rw [bcd_eq]
    omega
  constructor
  · have hstep := addWithCarry_decimalStep hV
    obtain ⟨hvalue, hcarry⟩ := hstep.sum (by decide) hdigit hd hpairs
    rw [hfst, hsnd, hlength] at hvalue hcarry
    exact ⟨(length_chain _ _ _ r).trans hlength, (hstep.of_chain hd hpairs).2.1, hvalue,
      carry_iff hcarry (by positivity)⟩
  · have hstep := subtractWithBorrow_decimalStep hV
    obtain ⟨hvalue, hcarry⟩ := hstep.difference (by decide) hdigit hd hpairs
    rw [hfst, hsnd, hlength, cast_borrow] at hvalue
    rw [hfst, hsnd, ← borrow_iff, toNat_borrow] at hcarry
    exact ⟨(length_chain _ _ _ r).trans hlength, (hstep.of_chain hd hpairs).2.1, hvalue, hcarry⟩

/-- `1299 + 8701` carries out of four digits, and `1299 - 1300` borrows. -/
theorem decimal_arithmetic_four_digits :
    let sum := byteByByte (addWithCarry Nmos6502) [0x99, 0x12] [0x01, 0x87] { d := true }
    let difference := byteByByte (subtractWithBorrow Nmos6502) [0x99, 0x12] [0x00, 0x13]
      { d := true, c := true }
    (decimal sum.1 = 0 ∧ sum.2.c = true) ∧
      (decimal difference.1 = 9999 ∧ difference.2.c = false) := by
  intro sum difference
  have h := (decimal_arithmetic (V := Nmos6502) rfl (r := { d := true }) rfl (n := 2)
    (a := [0x99, 0x12]) (b := [0x01, 0x87]) rfl rfl (by decide) (by decide)).1
  have h' := (decimal_arithmetic (V := Nmos6502) rfl (r := { d := true, c := true }) rfl (n := 2)
    (a := [0x99, 0x12]) (b := [0x00, 0x13]) rfl rfl (by decide) (by decide)).2
  refine ⟨⟨h.2.2.1.trans (by decide), h.2.2.2.mpr (by decide)⟩, ?_, ?_⟩
  · exact Int.ofNat_inj.mp (h'.2.2.1.trans (by decide : _ = ((9999 : ℕ) : ℤ)))
  · exact Bool.eq_false_iff.mpr (mt h'.2.2.2.mp (by decide))

end Mos6502
