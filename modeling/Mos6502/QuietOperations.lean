import Mos6502.Operations

/-!
# When an undocumented operation changes nothing

The undocumented read operations combine a register with the operand and write the
result back with its flags. For each of them this module says for exactly which
registers and operands that leaves every register and flag as it was.
-/

namespace Mos6502

/-- The Z and N flags are those of `value`. -/
def Registers.ShowsZN (r : Registers) (value : U8) : Prop :=
  r.z = (value == 0) ∧ r.n = ((value &&& 0x80) != 0)

/-- The accumulators that `ARR` maps to themselves, in binary and in decimal mode: the
accumulator, its conjunction with the operand, C, and V. -/
def arrFixed (d : Bool) : List (U8 × U8 × Bool × Bool) :=
  if d then
    [(0x00, 0x00, false, false), (0x0A, 0x08, false, false), (0x0B, 0x0A, false, false),
      (0x0B, 0x0B, false, false), (0x0C, 0x0C, false, false)]
  else
    [(0x00, 0x00, false, false), (0xC0, 0x80, true, true), (0xE0, 0xC0, true, false),
      (0xF0, 0xE0, true, false), (0xF8, 0xF0, true, false), (0xFC, 0xF8, true, false),
      (0xFE, 0xFC, true, false), (0xFF, 0xFE, true, false), (0xFF, 0xFF, true, false)]

/-- The subtractions that change nothing: of zero, with or without the borrow that
completes it, and in decimal mode also of 99 and a borrow from a number of two
decimal digits. -/
def SbcQuiet (value : U8) (r : Registers) : Prop :=
  ((value = 0x00 ∧ r.c = true ∨ value = 0xFF ∧ r.c = false ∧ r.d = false) ∧
    r.ShowsZN r.a ∧ r.v = false) ∨
  (value = 0x99 ∧ r.c = false ∧ r.d = true ∧ r.a &&& 0x0F ≤ 0x09 ∧ r.a ≤ 0x99 ∧
    r.z = false ∧ r.n = decide (0x1A ≤ r.a) ∧ r.v = decide (0x1A ≤ r.a ∧ r.a < 0x80))

/-- When an undocumented read operation changes no register and no flag. -/
def ReadOp.Quiet (op : ReadOp) (value : U8) (r : Registers) : Prop :=
  match op with
  | .NOP_R => True
  | .LAX => r.a = value ∧ r.x = value ∧ r.ShowsZN value
  | .ANC => r.a &&& value = r.a ∧ r.ShowsZN r.a ∧ r.c = r.n
  | .ALR => r.a = 0 ∧ r.ShowsZN 0 ∧ r.c = false
  | .ARR => (r.a, r.a &&& value, r.c, r.v) ∈ arrFixed r.d ∧ r.z = (r.a == 0) ∧ r.n = r.c
  | .SBX =>
    value = (r.a &&& r.x) - r.x ∧ r.ShowsZN r.x ∧ r.c = ((r.a &&& r.x) == r.x)
  | .LAS => r.a = r.s ∧ r.x = r.s ∧ value &&& r.s = r.s ∧ r.ShowsZN r.s
  | .ANE => (r.a ||| 0xEE) &&& r.x &&& value = r.a ∧ r.ShowsZN r.a
  | .LXA => r.x = r.a ∧ (r.a ||| 0xEE) &&& value = r.a ∧ r.ShowsZN r.a
  | .SBC => SbcQuiet value r
  -- The other operations are documented.
  | _ => False

/-- The undocumented opcodes use these read operations. -/
def ReadOp.hasUndocumented : ReadOp → Bool
  | .NOP_R | .LAX | .ANC | .ALR | .ARR | .SBX | .LAS | .ANE | .LXA | .SBC => true
  | _ => false

theorem ReadOp.quiet_pc (op : ReadOp) (value : U8) (r : Registers) (pc : U16) :
    op.Quiet value { r with pc } ↔ op.Quiet value r := by
  cases op <;> exact Iff.rfl

/-! ### Rotation -/

section arr

/-- What `ARR` makes of the conjunction `t` of the accumulator and its operand. -/
private def arrOf (t : U8) (c d : Bool) : Registers :=
  ReadOp.apply Cmos65C02 .ARR 0xFF { a := t, c, d }

private theorem arr_apply (value : U8) (r : Registers) :
    let q := arrOf (r.a &&& value) r.c r.d
    ReadOp.apply Cmos65C02 .ARR value r =
      { r with a := q.a, n := q.n, v := q.v, z := q.z, c := q.c } := by
  have hmask : r.a &&& value &&& 0xFF = r.a &&& value := BitVec.and_allOnes
  rcases r with ⟨a, x, y, s, pc, n, v, d, i, z, c⟩
  cases d <;> simp only [arrOf, ReadOp.apply, Cmos65C02, hmask] <;> rfl

private theorem mem_arrFixed : ∀ (t : U8) (c d : Bool),
    t &&& (arrOf t c d).a = t → (arrOf t c d).c = c →
      ((arrOf t c d).a, t, c, (arrOf t c d).v) ∈ arrFixed d := by
  decide +kernel

private theorem arrOf_of_mem : ∀ d, ∀ e ∈ arrFixed d,
    (arrOf e.2.1 e.2.2.1 d).a = e.1 ∧ (arrOf e.2.1 e.2.2.1 d).v = e.2.2.2 ∧
      (arrOf e.2.1 e.2.2.1 d).c = e.2.2.1 ∧ (arrOf e.2.1 e.2.2.1 d).n = e.2.2.1 ∧
      (arrOf e.2.1 e.2.2.1 d).z = (e.1 == 0) := by
  intro d
  -- Entry by entry: a search over all quadruples would be far too large.
  cases d <;> simp only [arrFixed, Bool.false_eq_true, if_false, if_true, List.forall_mem_cons]
  · refine ⟨?_, ?_, ?_, ?_, ?_, ?_, ?_, ?_, ?_, nofun⟩ <;> decide +kernel
  · refine ⟨?_, ?_, ?_, ?_, ?_, nofun⟩ <;> decide +kernel

private theorem arr_quiet (value : U8) (r : Registers) :
    ReadOp.apply Cmos65C02 .ARR value r = r ↔ ReadOp.Quiet .ARR value r := by
  rw [arr_apply]
  simp only [ReadOp.Quiet, Registers.ext_iff, true_and]
  constructor
  · rintro ⟨ha, hn, hv, hz, hc⟩
    have hsub : r.a &&& value &&& (arrOf (r.a &&& value) r.c r.d).a = r.a &&& value := by
      rw [ha, BitVec.and_comm, ← BitVec.and_assoc, BitVec.and_self]
    have hmem := mem_arrFixed _ _ _ hsub hc
    obtain ⟨_, _, _, hn', hz'⟩ := arrOf_of_mem _ _ hmem
    rw [ha, hv] at hmem
    exact ⟨hmem, by rw [← hz, hz', ha], by rw [← hn, hn']⟩
  · rintro ⟨hmem, hz, hn⟩
    obtain ⟨ha', hv', hc', hn', hz'⟩ := arrOf_of_mem _ _ hmem
    exact ⟨ha', by rw [hn', hn], hv', by rw [hz', hz], hc'⟩

end arr

/-! ### Subtraction -/

section sbc

/-- The registers that a subtraction looks at. -/
private def sbcOf (a value : U8) (c d : Bool) : Registers :=
  subtractWithBorrow Cmos65C02 value { a, c, d }

private theorem sbc_apply (value : U8) (r : Registers) :
    let q := sbcOf r.a value r.c r.d
    ReadOp.apply Cmos65C02 .SBC value r =
      { r with a := q.a, n := q.n, v := q.v, z := q.z, c := q.c } := by
  rcases r with ⟨a, x, y, s, pc, n, v, d, i, z, c⟩
  cases d <;> rfl

/-- When the corrected low digit of a decimal subtraction is that of the minuend. -/
private theorem sbc_low : ∀ (al vl : BitVec 4) (c : Bool),
    let lo₀ : U32 := al.setWidth 32 - vl.setWidth 32 - if c then 0 else 1
    let lo := if (lo₀ &&& 0x10) != 0 then lo₀ - 0x06 else lo₀
    lo.setWidth 4 = al →
      (((lo₀ &&& 0x10) != 0) = false ∧ vl = 0 ∧ c = true) ∨
        (((lo₀ &&& 0x10) != 0) = true ∧ (vl = 10 ∧ c = true ∨ vl = 9 ∧ c = false)) := by
  decide +kernel

/-- The same for the high digit, which the borrow of the low one reaches. -/
private theorem sbc_high : ∀ (ah vh : BitVec 4) (borrow : Bool),
    let hi₀ : U32 := ah.setWidth 32 - vh.setWidth 32
    let hi₁ := if borrow then hi₀ - 1 else hi₀
    let hi := if (hi₁ &&& 0x10) != 0 then hi₁ - 0x06 else hi₁
    hi.setWidth 4 = ah →
      (borrow = false ∧ (vh = 0 ∨ vh = 10)) ∨ (borrow = true ∧ vh = 9) := by
  decide +kernel

private theorem setWidth_low (x : U8) : (x &&& 0x0F).setWidth 32 = (x.setWidth 4).setWidth 32 := by
  revert x
  decide +kernel

private theorem setWidth_high (x : U8) :
    (x >>> 4).setWidth 32 = ((x >>> 4).setWidth 4).setWidth 32 := by
  revert x
  decide +kernel

private theorem digits_inj : ∀ x y : U8, x.setWidth 4 = y.setWidth 4 →
    (x >>> 4).setWidth 4 = (y >>> 4).setWidth 4 → x = y := by
  intro x y hlow hhigh
  have hl := congrArg BitVec.toNat hlow
  have hh := congrArg BitVec.toNat hhigh
  have hx := x.isLt
  have hy := y.isLt
  simp only [BitVec.toNat_setWidth, BitVec.toNat_ushiftRight, Nat.shiftRight_eq_div_pow] at hl hh
  apply BitVec.eq_of_toNat_eq
  omega

private theorem digits_join (hi lo : U32) :
    ((((hi &&& 0x0F) <<< 4) ||| (lo &&& 0x0F)).setWidth 8).setWidth 4 = lo.setWidth 4 ∧
      (((((hi &&& 0x0F) <<< 4) ||| (lo &&& 0x0F)).setWidth 8) >>> 4).setWidth 4 =
        hi.setWidth 4 := by
  constructor <;> apply BitVec.eq_of_getLsbD_eq <;> intro i hi <;> interval_cases i <;> simp

/-- The decimal subtractions that keep the accumulator. -/
private theorem sbc_decimal_cases {a value : U8} {c : Bool} (h : (sbcOf a value c true).a = a) :
    (value = 0x00 ∧ c = true) ∨ (value = 0xA0 ∧ c = true) ∨ (value = 0x9A ∧ c = true) ∨
      (value = 0x99 ∧ c = false) := by
  let lo₀ : U32 := (a.setWidth 4).setWidth 32 - (value.setWidth 4).setWidth 32 - if c then 0 else 1
  let lo := if (lo₀ &&& 0x10) != 0 then lo₀ - 0x06 else lo₀
  let hi₀ : U32 := ((a >>> 4).setWidth 4).setWidth 32 - ((value >>> 4).setWidth 4).setWidth 32
  let hi₁ := if (lo₀ &&& 0x10) != 0 then hi₀ - 1 else hi₀
  let hi := if (hi₁ &&& 0x10) != 0 then hi₁ - 0x06 else hi₁
  have ha : (((hi &&& 0x0F) <<< 4) ||| (lo &&& 0x0F)).setWidth 8 = a := by
    have hcarry : ((1 : U16) - if c then 1 else 0).setWidth 32 = (if c then 0 else 1 : U32) := by
      cases c <;> rfl
    rw [← h]
    simp only [hi, hi₁, hi₀, lo, lo₀, ← setWidth_low a, ← setWidth_low value, ← setWidth_high a,
      ← setWidth_high value, ← hcarry]
    rfl
  obtain ⟨hlow, hhigh⟩ := digits_join hi lo
  rw [ha] at hlow hhigh
  have hvalue (v : U8) (hl : value.setWidth 4 = v.setWidth 4)
      (hh : (value >>> 4).setWidth 4 = (v >>> 4).setWidth 4) : value = v := digits_inj _ _ hl hh
  rcases sbc_low _ _ _ hlow.symm with ⟨hborrow, hvl, hc⟩ | ⟨hborrow, hvl⟩
  · rcases sbc_high _ _ _ hhigh.symm with ⟨_, hvh | hvh⟩ | ⟨hborrow', _⟩
    · exact .inl ⟨hvalue 0x00 hvl hvh, hc⟩
    · exact .inr (.inl ⟨hvalue 0xA0 hvl hvh, hc⟩)
    · rw [hborrow] at hborrow'
      cases hborrow'
  · rcases sbc_high _ _ _ hhigh.symm with ⟨hborrow', _⟩ | ⟨_, hvh⟩
    · rw [hborrow] at hborrow'
      cases hborrow'
    · rcases hvl with ⟨hvl, hc⟩ | ⟨hvl, hc⟩
      · exact .inr (.inr (.inl ⟨hvalue 0x9A hvl hvh, hc⟩))
      · exact .inr (.inr (.inr ⟨hvalue 0x99 hvl hvh, hc⟩))

/-- The binary subtractions that keep the accumulator. -/
private theorem sbc_binary_cases {a value : U8} {c : Bool} (h : (sbcOf a value c false).a = a) :
    (value = 0x00 ∧ c = true) ∨ (value = 0xFF ∧ c = false) := by
  have hsum : (sbcOf a value c false).a = a + (~~~value + if c then 1 else 0) := by
    have hcarry : (if c then 1 else 0 : U16).setWidth 8 = (if c then 1 else 0 : U8) := by
      cases c <;> rfl
    change BitVec.setWidth 8 (a.setWidth 16 + (~~~value).setWidth 16 + if c then 1 else 0) = _
    rw [BitVec.setWidth_add _ _ (by omega), BitVec.setWidth_add _ _ (by omega), hcarry,
      BitVec.setWidth_setWidth_of_le _ (by omega), BitVec.setWidth_setWidth_of_le _ (by omega),
      BitVec.setWidth_eq, BitVec.setWidth_eq, BitVec.add_assoc]
  have hzero : ~~~value + (if c then 1 else 0) = 0 := by
    rw [hsum] at h
    simpa using h
  clear h hsum
  revert value c
  decide +kernel

/-- The flags of these subtractions. -/
private theorem sbc_flags : ∀ a : U8,
    (∀ d, sbcOf a 0x00 true d = { a, c := true, d, z := a == 0, n := (a &&& 0x80) != 0 }) ∧
    sbcOf a 0xFF false false = { a, z := a == 0, n := (a &&& 0x80) != 0 } ∧
    ((sbcOf a 0x99 false true).a = a ↔ a &&& 0x0F ≤ 0x09 ∧ a ≤ 0x99) ∧
    ((sbcOf a 0x99 false true).a = a →
      sbcOf a 0x99 false true =
        { a, d := true, n := decide (0x1A ≤ a), v := decide (0x1A ≤ a ∧ a < 0x80) }) ∧
    ((sbcOf a 0xA0 true true).a = a → (sbcOf a 0xA0 true true).c = false) ∧
    ((sbcOf a 0x9A true true).a = a → (sbcOf a 0x9A true true).c = false) := by
  decide +kernel

private theorem sbc_quiet (value : U8) (r : Registers) :
    ReadOp.apply Cmos65C02 .SBC value r = r ↔ ReadOp.Quiet .SBC value r := by
  obtain ⟨hzero, hones, hdigits, hninety, ha0, h9a⟩ := sbc_flags r.a
  rw [sbc_apply]
  simp only [ReadOp.Quiet, SbcQuiet, Registers.ShowsZN, Registers.ext_iff, true_and]
  constructor
  · rintro ⟨ha, hn, hv, hz, hc⟩
    cases hd : r.d with
    | true =>
      rw [hd] at ha hn hv hz hc
      rcases sbc_decimal_cases ha with ⟨hvalue, hrc⟩ | ⟨hvalue, hrc⟩ | ⟨hvalue, hrc⟩ | ⟨hvalue, hrc⟩
      · rw [hvalue, hrc, hzero true] at hn hv hz
        exact .inl ⟨.inl ⟨hvalue, hrc⟩, ⟨hz.symm, hn.symm⟩, hv.symm⟩
      · rw [hvalue, hrc] at ha hc
        rw [ha0 ha] at hc
        cases hc
      · rw [hvalue, hrc] at ha hc
        rw [h9a ha] at hc
        cases hc
      · rw [hvalue, hrc] at ha hn hv hz
        rw [hninety ha] at hn hv hz
        obtain ⟨hlow, hle⟩ := hdigits.mp ha
        exact .inr ⟨hvalue, hrc, rfl, hlow, hle, hz.symm, hn.symm, hv.symm⟩
    | false =>
      rw [hd] at ha hn hv hz hc
      rcases sbc_binary_cases ha with ⟨hvalue, hrc⟩ | ⟨hvalue, hrc⟩
      · rw [hvalue, hrc, hzero false] at hn hv hz
        exact .inl ⟨.inl ⟨hvalue, hrc⟩, ⟨hz.symm, hn.symm⟩, hv.symm⟩
      · rw [hvalue, hrc, hones] at hn hv hz
        exact .inl ⟨.inr ⟨hvalue, hrc, rfl⟩, ⟨hz.symm, hn.symm⟩, hv.symm⟩
  · rintro (⟨⟨hvalue, hrc⟩ | ⟨hvalue, hrc, hd⟩, ⟨hz, hn⟩, hv⟩ |
      ⟨hvalue, hrc, hd, hlow, hle, hz, hn, hv⟩)
    · rw [hvalue, hrc, hzero r.d]
      exact ⟨rfl, hn.symm, hv.symm, hz.symm, rfl⟩
    · rw [hvalue, hrc, hd, hones]
      exact ⟨rfl, hn.symm, hv.symm, hz.symm, rfl⟩
    · rw [hvalue, hrc, hd, hninety (hdigits.mpr ⟨hlow, hle⟩)]
      exact ⟨rfl, hn.symm, hv.symm, hz.symm, rfl⟩

end sbc

/-! ### The other operations -/

/-- Halving a number that contains its half keeps it only when it is zero. -/
private theorem alr_fixed : ∀ t : U8, t &&& t >>> 1 = t → t = 0 := by decide +kernel

private theorem alr_quiet (value : U8) (r : Registers) :
    ReadOp.apply Cmos65C02 .ALR value r = r ↔ ReadOp.Quiet .ALR value r := by
  simp only [ReadOp.apply, ReadOp.Quiet, Registers.ShowsZN, Registers.setZN, Registers.ext_iff,
    true_and]
  constructor
  · rintro ⟨ha, hn, hz, hc⟩
    have hsub : (r.a &&& value) &&& (r.a &&& value) >>> 1 = r.a &&& value := by
      rw [ha, BitVec.and_comm, ← BitVec.and_assoc, BitVec.and_self]
    have ht := alr_fixed _ hsub
    rw [ht] at ha hn hz hc
    exact ⟨ha.symm, ⟨hz.symm, hn.symm⟩, hc.symm⟩
  · rintro ⟨ha, ⟨hz, hn⟩, hc⟩
    have hzero : (0 : U8) &&& value = 0 := BitVec.zero_and
    rw [ha, hz, hn, hc, hzero]
    exact ⟨rfl, rfl, rfl, rfl⟩

/-- The borrow of `SBX` is clear exactly when the operand is zero. -/
private theorem sbx_carry {x t : U8} (h : t &&& x = t) : decide (t ≥ t - x) = (t == x) := by
  have hle : t.toNat ≤ x.toNat := by
    rw [← h, BitVec.toNat_and]
    exact Nat.and_le_right
  rcases Nat.eq_or_lt_of_le hle with heq | hlt
  · obtain rfl := BitVec.eq_of_toNat_eq heq
    rw [beq_self_eq_true, decide_eq_true_iff]
    bv_omega
  · have hne : (t == x) = false := by
      rw [beq_eq_false_iff_ne]
      rintro rfl
      exact lt_irrefl _ hlt
    rw [hne, decide_eq_false_iff_not]
    bv_omega

private theorem sbx_quiet (value : U8) (r : Registers) :
    ReadOp.apply Cmos65C02 .SBX value r = r ↔ ReadOp.Quiet .SBX value r := by
  have hsub : (r.a &&& r.x) &&& r.x = r.a &&& r.x := by rw [BitVec.and_assoc, BitVec.and_self]
  simp only [ReadOp.apply, ReadOp.Quiet, Registers.ShowsZN, Registers.setZN, Registers.ext_iff,
    true_and]
  have hvalue : (r.a &&& r.x) - value = r.x ↔ value = (r.a &&& r.x) - r.x := by
    constructor <;> intro h <;> bv_omega
  constructor
  · rintro ⟨hx, hn, hz, hc⟩
    rw [hx] at hn hz
    have hv := hvalue.mp hx
    rw [hv, sbx_carry hsub] at hc
    exact ⟨hv, ⟨hz.symm, hn.symm⟩, hc.symm⟩
  · rintro ⟨hv, ⟨hz, hn⟩, hc⟩
    have hx := hvalue.mpr hv
    rw [hx, hz, hn, hc, hv, sbx_carry hsub]
    exact ⟨rfl, rfl, rfl, rfl⟩

/-! ### All of them -/

/-- **Quiet operations.** An undocumented read operation of the CMOS part leaves every
register and flag as it was exactly when it is quiet. -/
theorem ReadOp.apply_eq_self_iff {op : ReadOp} (hop : op.hasUndocumented = true) (value : U8)
    (r : Registers) : op.apply Cmos65C02 value r = r ↔ op.Quiet value r := by
  cases op with
  | ARR => exact arr_quiet value r
  | SBC => exact sbc_quiet value r
  | ALR => exact alr_quiet value r
  | SBX => exact sbx_quiet value r
  | NOP_R => exact iff_of_true rfl trivial
  | LAX | ANC | LAS | ANE | LXA =>
    simp only [ReadOp.apply, ReadOp.Quiet, Registers.ShowsZN, Registers.setZN, Registers.ext_iff,
      true_and]
    grind
  | _ => cases hop

end Mos6502
