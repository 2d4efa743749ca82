import Mos6502.MultiByteArithmetic

/-!
# Comparing numbers of many bytes

CMP on the lowest bytes, then SBC on the higher ones. The carry of a comparison is the
borrow that a subtraction expects, and the flags of a subtraction are those of the binary
difference in both modes, so the flags in the end are those of a binary subtraction.
-/

namespace Mos6502

open Numerals

/-- The comparison of two little-endian numbers: CMP on the lowest bytes, then SBC on each
higher pair, with the accumulator loaded afresh each time. -/
def compareBytes (V : Variant) : List (U8 × U8) → Registers → Registers
  | [], r => r
  | (x, y) :: pairs, r =>
    (chain (onLoaded (ReadOp.SBC.apply V)) Registers.a pairs
      (onLoaded (ReadOp.CMP.apply V) r x y)).2

section flags

variable (V : Variant) (value : U8) {r t : Registers}

/-- The flags of a subtraction come from the accumulator and the carry alone. -/
theorem subtractWithBorrow_flags (ha : r.a = t.a) (hc : r.c = t.c) :
    (subtractWithBorrow V value r).c = (subtractWithBorrow V value t).c ∧
      (subtractWithBorrow V value r).n = (subtractWithBorrow V value t).n ∧
      (subtractWithBorrow V value r).v = (subtractWithBorrow V value t).v := by
  have hflags (s : Registers) :
      let bin : U16 := s.a.setWidth 16 + (~~~value).setWidth 16 + (if s.c then 1 else 0)
      (subtractWithBorrow V value s).c = decide (bin > 0xFF) ∧
        (subtractWithBorrow V value s).n = ((bin.setWidth 8 &&& 0x80 : U8) != 0) ∧
        (subtractWithBorrow V value s).v =
          (((s.a ^^^ value) &&& (s.a ^^^ bin.setWidth 8)) &&& 0x80 != 0) := by
    intro bin
    unfold subtractWithBorrow
    extract_lets
    split <;> exact ⟨rfl, rfl, rfl⟩
  obtain ⟨hcarry, hnegative, hoverflow⟩ := hflags r
  obtain ⟨hcarry', hnegative', hoverflow'⟩ := hflags t
  rw [hcarry, hnegative, hoverflow, hcarry', hnegative', hoverflow', ha, hc]
  exact ⟨rfl, rfl, rfl⟩

/-- N and V differ when the signed difference is negative. -/
theorem subtractWithBorrow_less (hd : r.d = false) :
    (subtractWithBorrow V value r).n ≠ (subtractWithBorrow V value r).v ↔
      r.a.toInt - (value.toInt + (!r.c).toNat) < 0 := by
  have hbalance := subtractWithBorrow_binary V value hd
  have hb : (!r.c).toNat ≤ 1 := Bool.toNat_le _
  have hb' := Bool.toNat_le (!(subtractWithBorrow V value r).c)
  obtain ⟨hn, hv⟩ := subtractWithBorrow_sign V value hd
  rw [hn, hv]
  rcases sign_cases r.a with ⟨ha, ha', hai⟩ | ⟨ha, ha', hai⟩ <;>
  rcases sign_cases value with ⟨hv, hv', hvi⟩ | ⟨hv, hv', hvi⟩ <;>
  rcases sign_cases (subtractWithBorrow V value r).a with ⟨hs, hs', _⟩ | ⟨hs, hs', _⟩ <;>
  simp only [ha, hv, hs, hai, hvi] <;> simp <;> omega

/-- The carry of a comparison is that of a subtraction with nothing borrowed. -/
theorem compare_carry (hc : t.c = true) (ha : t.a = r.a) :
    (compare r.a value r).c = (subtractWithBorrow V value t).c := by
  have hcarry := subtractWithBorrow_carry V value (r := t)
  rw [hc, ha] at hcarry
  have hcompare : (compare r.a value r).c = decide (value ≤ r.a) := rfl
  rw [hcompare, Bool.eq_iff_iff, hcarry, decide_eq_true_iff, BitVec.le_def]
  rfl

end flags

/-- A processor in any mode and one in binary mode that agree on the carry. -/
structure SameCarry (r r' : Registers) : Prop where
  carry : r.c = r'.c
  binary : r'.d = false

theorem SameCarry.subtract (V : Variant) {r r' : Registers} (h : SameCarry r r') (x y : U8) :
    SameCarry (onLoaded (subtractWithBorrow V) r x y) (onLoaded (subtractWithBorrow V) r' x y) where
  carry := (subtractWithBorrow_flags V y (r := { r with a := x }) (t := { r' with a := x }) rfl
    h.carry).1
  binary := (subtractWithBorrow_d V y { r' with a := x }).trans h.binary

/-- **Comparison of numbers of many bytes.** In both arithmetic modes C tells whether the
first number is at least the second, and N and V differ when it is less as a signed one. -/
theorem multi_byte_comparison (V : Variant) (r : Registers) {n : ℕ} (hn : 2 ≤ n) {a b : List U8}
    (ha : a.length = n) (hb : b.length = n) :
    let last := compareBytes V (a.zip b) r
    (last.c = true ↔ unsigned b ≤ unsigned a) ∧ (last.n ≠ last.v ↔ signed a < signed b) := by
  intro last
  obtain ⟨hlength, hfst, hsnd⟩ := zip_facts ha hb
  obtain ⟨low, x, y, hlow, hzip, hx, hy⟩ := exists_last (by omega) ha hb
  obtain ⟨⟨x₀, y₀⟩, mid, rfl⟩ := List.exists_cons_of_length_pos (by omega : 0 < low.length)
  -- the binary subtraction with nothing borrowed that the comparison runs along with
  let binary : Registers := { r with d := false, c := true }
  let step := onLoaded (subtractWithBorrow V)
  have hstep := subtractWithBorrow_digitStep V
  have hd : binary.d = false := rfl
  have hpairs (ps : List (U8 × U8)) : ∀ p ∈ ps, True ∧ True := fun _ _ => ⟨trivial, trivial⟩
  have hfirst : SameCarry (onLoaded (ReadOp.CMP.apply V) r x₀ y₀) (step binary x₀ y₀) :=
    ⟨compare_carry V y₀ (r := { r with a := x₀ }) (t := { binary with a := x₀ }) rfl rfl,
      (subtractWithBorrow_d V y₀ { binary with a := x₀ }).trans hd⟩
  have hmid : SameCarry
      (chain step Registers.a mid (onLoaded (ReadOp.CMP.apply V) r x₀ y₀)).2
      (chain step Registers.a mid (step binary x₀ y₀)).2 :=
    chain_related (R := SameCarry) (fun _ _ x y h => h.subtract V x y) mid hfirst
  let before := (chain step Registers.a ((x₀, y₀) :: mid) binary).2
  have hlast : last =
      step (chain step Registers.a mid (onLoaded (ReadOp.CMP.apply V) r x₀ y₀)).2 x y := by
    simp only [last, hzip, List.cons_append, compareBytes]
    exact congrArg Prod.snd (chain_concat step Registers.a mid x y _)
  have hbinary : (chain step Registers.a (a.zip b) binary).2 = step before x y := by
    rw [hzip, chain_concat]
  obtain ⟨hc, hneg, hover⟩ := subtractWithBorrow_flags V y (r := { (chain step Registers.a mid
    (onLoaded (ReadOp.CMP.apply V) r x₀ y₀)).2 with a := x }) (t := { before with a := x }) rfl
    hmid.carry
  constructor
  · obtain ⟨_, hcarry⟩ := hstep.difference (by decide) (fun {d} _ => d.isLt) hd (hpairs (a.zip b))
    rw [hfst, hsnd, ← borrow_iff, hbinary] at hcarry
    rw [hlast]
    exact (iff_of_eq (congrArg (· = true) hc)).trans hcarry
  · have hless := subtractWithBorrow_less V y (r := { before with a := x }) hmid.binary
    have htotal := hstep.total_neg_iff (H := 128) (fun {d} _ => d.isLt) hd
      (hpairs ((x₀, y₀) :: mid)) (x := x) (y := y) trivial trivial
    rw [← hx, ← hy, ← x.toInt_eq_toNat_bmod, ← y.toInt_eq_toNat_bmod, neg_one_mul, neg_one_mul,
      ← sub_eq_add_neg, ← sub_eq_add_neg] at htotal
    rw [hlast]
    refine Iff.trans ?_ (hless.trans (htotal.symm.trans ?_))
    · exact iff_of_eq (congrArg₂ (· ≠ ·) hneg hover)
    · change signed a - (signed b + 0) < 0 ↔ _
      rw [add_zero, sub_neg]

/-- `$1280` is greater than `$127F`, and less than `$9280` only as an unsigned number. -/
theorem multi_byte_comparison_two_bytes :
    let greater := compareBytes Nmos6502 [(0x80, 0x7F), (0x12, 0x12)] { d := true }
    let less := compareBytes Nmos6502 [(0x80, 0x80), (0x12, 0x92)] {}
    greater.c = true ∧ less.c = false ∧ less.n = less.v := by
  intro greater less
  have h := (multi_byte_comparison Nmos6502 { d := true } (n := 2) le_rfl (a := [0x80, 0x12])
    (b := [0x7F, 0x12]) rfl rfl).1
  obtain ⟨hc, hnv⟩ := multi_byte_comparison Nmos6502 {} (n := 2) le_rfl (a := [0x80, 0x12])
    (b := [0x80, 0x92]) rfl rfl
  refine ⟨h.mpr (by decide), ?_, ?_⟩
  · exact Bool.eq_false_iff.mpr (mt hc.mp (by decide))
  · exact not_not.mp (mt hnv.mp (by decide))

end Mos6502
