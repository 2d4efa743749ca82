import Mos6502.Types

/-!
# The register file and the chip variants

The status flags are kept unpacked and only assembled into a P byte when they
are pushed, so the interesting fact about `pack` and `unpack` is that a push and
a pull together restore all six flags, whatever the B flag of the pushed copy.
-/

namespace Mos6502

@[ext] structure Registers where
  a : U8 := 0x00
  x : U8 := 0x00
  y : U8 := 0x00
  s : U8 := 0x00
  pc : U16 := 0x0000
  n : Bool := false
  v : Bool := false
  d : Bool := false
  i : Bool := true
  z : Bool := false
  c : Bool := false
  deriving DecidableEq, Repr

namespace Registers

/-- The P byte. Bit 5 always reads as one, and bit 4 (B) exists only in the
pushed copy. -/
def pack (r : Registers) (breakFlag : Bool) : U8 :=
  (if r.n then 0x80 else 0) ||| (if r.v then 0x40 else 0) ||| 0x20 |||
    (if breakFlag then 0x10 else 0) ||| (if r.d then 0x08 else 0) |||
    (if r.i then 0x04 else 0) ||| (if r.z then 0x02 else 0) ||| (if r.c then 0x01 else 0)

def unpack (r : Registers) (p : U8) : Registers :=
  { r with
    n := (p &&& 0x80) != 0
    v := (p &&& 0x40) != 0
    d := (p &&& 0x08) != 0
    i := (p &&& 0x04) != 0
    z := (p &&& 0x02) != 0
    c := (p &&& 0x01) != 0 }

/-- The zero and negative flags of a result byte. -/
def setZN (r : Registers) (value : U8) : Registers :=
  { r with z := value == 0, n := (value &&& 0x80) != 0 }

/-- The six flags of `q` on the other registers of `r`. -/
def withFlags (r q : Registers) : Registers :=
  { r with n := q.n, v := q.v, d := q.d, i := q.i, z := q.z, c := q.c }

def flags (r : Registers) : Bool × Bool × Bool × Bool × Bool × Bool :=
  (r.n, r.v, r.d, r.i, r.z, r.c)

@[simp] theorem flags_withFlags (r q : Registers) : (r.withFlags q).flags = q.flags := rfl

/-- Unpacking a pushed P byte restores exactly the flags it was packed from:
the B flag and bit 5 are dropped. -/
@[simp] theorem unpack_pack (r q : Registers) (breakFlag : Bool) :
    r.unpack (q.pack breakFlag) = r.withFlags q := by
  have hbits : ∀ n v b d i z c : Bool,
      let p := Registers.pack { n, v, d, i, z, c } b
      ((p &&& 0x80) != 0) = n ∧ ((p &&& 0x40) != 0) = v ∧ ((p &&& 0x08) != 0) = d ∧
        ((p &&& 0x04) != 0) = i ∧ ((p &&& 0x02) != 0) = z ∧ ((p &&& 0x01) != 0) = c := by
    decide
  obtain ⟨hn, hv, hd, hi, hz, hc⟩ := hbits q.n q.v breakFlag q.d q.i q.z q.c
  simp only [unpack, withFlags, mk.injEq, true_and]
  exact ⟨hn, hv, hd, hi, hz, hc⟩

end Registers

/-- Chip-family differences, fixed at compile time. -/
structure Variant where
  decimalMode : Bool
  jmpIndirectPageBug : Bool
  clearDecimalOnInterrupt : Bool
  illegalOpcodes : Bool
  rmwDummyWriteBack : Bool
  deriving DecidableEq, Repr

/-- The original NMOS part, quirks and all. -/
def Nmos6502 : Variant where
  decimalMode := true
  jmpIndirectPageBug := true
  clearDecimalOnInterrupt := false
  illegalOpcodes := true
  rmwDummyWriteBack := true

/-- The CMOS redesign. -/
def Cmos65C02 : Variant where
  decimalMode := true
  jmpIndirectPageBug := false
  clearDecimalOnInterrupt := true
  illegalOpcodes := false
  rmwDummyWriteBack := false

end Mos6502
