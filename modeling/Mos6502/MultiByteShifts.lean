import Mos6502.MultiByteArithmetic
import Mos6502.Numerals.Sweep
import Mos6502.PlainStep

/-!
# Shifting numbers of many bytes

ROL on every byte from the least significant one up rotates the whole number and the carry
to the left, and ROR from the most significant byte down rotates them back. The bytes can be
shifted where they are in memory or pass through the accumulator: the carry is all that goes
from one byte to the next.
-/

namespace Mos6502

open Numerals

/-- One operation on one byte. -/
def shiftByte (V : Variant) (p : RmwOp × U8) (r : Registers) : U8 × Registers :=
  p.1.apply V p.2 r

/-- The operations on a list of bytes, in order. -/
def shiftBytes (V : Variant) (program : List (RmwOp × U8)) (r : Registers) :
    List U8 × Registers := sweep (shiftByte V) program r

/-- The program that uses one operation for the first item and another one for the rest. -/
def program {α : Type} (first rest : RmwOp) : List α → List (RmwOp × α)
  | [] => []
  | x :: xs => (first, x) :: xs.map fun x => (rest, x)

/-- The operations that only shift. -/
def RmwOp.shifts : RmwOp → Bool
  | .ASL | .LSR | .ROL | .ROR => true
  | _ => false

/-! ### One byte -/

section byte

variable (V : Variant) (value : U8) (r : Registers)

theorem rol_balance :
    (RmwOp.ROL.apply V value r).1.toNat + 256 * (RmwOp.ROL.apply V value r).2.c.toNat =
      2 * value.toNat + r.c.toNat := by
  have hbyte : ∀ (x : U8) (c : Bool), ((x <<< 1) ||| (if c then 1 else 0) : U8).toNat +
      256 * ((x &&& 0x80) != 0).toNat = 2 * x.toNat + c.toNat := by
    decide +kernel
  exact hbyte value r.c

theorem ror_balance :
    2 * (RmwOp.ROR.apply V value r).1.toNat + (RmwOp.ROR.apply V value r).2.c.toNat =
      value.toNat + 256 * r.c.toNat := by
  have hbyte : ∀ (x : U8) (c : Bool), 2 * ((x >>> 1) ||| (if c then 0x80 else 0) : U8).toNat +
      ((x &&& 0x01) != 0).toNat = x.toNat + 256 * c.toNat := by
    decide +kernel
  exact hbyte value r.c

/-- ASL is ROL with the carry clear, and LSR is ROR with the carry clear. -/
theorem asl_eq : RmwOp.ASL.apply V value r = RmwOp.ROL.apply V value { r with c := false } := by
  simp [RmwOp.apply, Rmw.asl, Rmw.rol, Registers.setZN]

theorem lsr_eq : RmwOp.LSR.apply V value r = RmwOp.ROR.apply V value { r with c := false } := by
  simp [RmwOp.apply, Rmw.lsr, Rmw.ror, Registers.setZN]

/-- The byte and the carry of a shift depend on the byte and the carry alone. -/
theorem RmwOp.shifts_congr {op : RmwOp} (hop : op.shifts = true) {r t : Registers}
    (hc : r.c = t.c) :
    (op.apply V value r).1 = (op.apply V value t).1 ∧
      (op.apply V value r).2.c = (op.apply V value t).2.c := by
  cases op with
  | ASL | LSR | ROL | ROR =>
    simp [RmwOp.apply, Rmw.asl, Rmw.lsr, Rmw.rol, Rmw.ror, Registers.setZN, hc]
  | _ => cases hop

end byte

/-! ### Many bytes -/

section bytes

variable {V : Variant}

theorem shiftBytes_cons (op : RmwOp) (value : U8) (ops : List (RmwOp × U8)) (r : Registers) :
    shiftBytes V ((op, value) :: ops) r =
      ((op.apply V value r).1 :: (shiftBytes V ops (op.apply V value r).2).1,
        (shiftBytes V ops (op.apply V value r).2).2) := rfl

theorem shiftBytes_congr (ops : List (RmwOp × U8)) (hops : ∀ p ∈ ops, p.1.shifts = true)
    {r r' : Registers} (hc : r.c = r'.c) :
    (shiftBytes V ops r).1 = (shiftBytes V ops r').1 ∧
      (shiftBytes V ops r).2.c = (shiftBytes V ops r').2.c := by
  induction ops generalizing r r' with
  | nil => exact ⟨rfl, hc⟩
  | cons p ops ih =>
    obtain ⟨hbyte, hcarry⟩ := RmwOp.shifts_congr V p.2 (hops p List.mem_cons_self) hc
    obtain ⟨hbytes, hlast⟩ := ih (fun p hp => hops p (List.mem_cons_of_mem _ hp)) hcarry
    rw [shiftBytes_cons, shiftBytes_cons, hbyte, hbytes]
    exact ⟨rfl, hlast⟩

variable {α γ : Type} {first rest : RmwOp}

@[simp] theorem program_same (op : RmwOp) (xs : List α) :
    program op op xs = xs.map fun x => (op, x) := by
  cases xs <;> rfl

@[simp] theorem length_program (xs : List α) : (program first rest xs).length = xs.length := by
  cases xs <;> simp [program]

theorem program_shifts (hfirst : first.shifts = true) (hrest : rest.shifts = true) (xs : List α) :
    ∀ p ∈ program first rest xs, p.1.shifts = true := by
  cases xs with
  | nil => exact nofun
  | cons x xs =>
    rw [program, List.forall_mem_cons]
    refine ⟨hfirst, fun p hp => ?_⟩
    obtain ⟨x, -, rfl⟩ := List.mem_map.mp hp
    exact hrest

theorem asl_program (M : List U8) (hM : M ≠ []) (r : Registers) :
    shiftBytes V (program .ASL .ROL M) r =
      shiftBytes V (program .ROL .ROL M) { r with c := false } := by
  obtain ⟨x, xs, rfl⟩ := List.exists_cons_of_ne_nil hM
  rw [program, program, shiftBytes_cons, shiftBytes_cons, asl_eq]

theorem lsr_program (M : List U8) (hM : M ≠ []) (r : Registers) :
    shiftBytes V (program .LSR .ROR M) r =
      shiftBytes V (program .ROR .ROR M) { r with c := false } := by
  obtain ⟨x, xs, rfl⟩ := List.exists_cons_of_ne_nil hM
  rw [program, program, shiftBytes_cons, shiftBytes_cons, lsr_eq]

private theorem number_program (op : RmwOp) (M : List U8) :
    number (fun p : RmwOp × U8 => p.2.toNat) 256 (M.map fun x => (op, x)) = unsigned M := by
  rw [number, List.map_map]
  rfl

theorem rol_bytes (M : List U8) (r : Registers) :
    unsigned (shiftBytes V (program .ROL .ROL M) r).1 +
        256 ^ M.length * (shiftBytes V (program .ROL .ROL M) r).2.c.toNat =
      2 * unsigned M + r.c.toNat := by
  have hstep : ∀ p ∈ program .ROL .ROL M, ∀ r : Registers,
      (shiftByte V p r).1.toNat + 256 * (shiftByte V p r).2.c.toNat =
        2 * p.2.toNat + r.c.toNat := by
    intro p hp r
    rw [program_same] at hp
    obtain ⟨x, -, rfl⟩ := List.mem_map.mp hp
    exact rol_balance V x r
  have h := sweep_up (shiftByte V) (fun p => p.2.toNat) BitVec.toNat (fun r => r.c.toNat) _ hstep r
  rw [length_program, program_same, number_program] at h
  rw [program_same]
  exact h

theorem ror_bytes (M : List U8) (r : Registers) :
    2 * unsigned (shiftBytes V (program .ROR .ROR M) r).1.reverse +
        (shiftBytes V (program .ROR .ROR M) r).2.c.toNat =
      unsigned M.reverse + 256 ^ M.length * r.c.toNat := by
  have hstep : ∀ p ∈ program .ROR .ROR M, ∀ r : Registers,
      2 * (shiftByte V p r).1.toNat + (shiftByte V p r).2.c.toNat =
        p.2.toNat + 256 * r.c.toNat := by
    intro p hp r
    rw [program_same] at hp
    obtain ⟨x, -, rfl⟩ := List.mem_map.mp hp
    exact ror_balance V x r
  have h := sweep_down (shiftByte V) (fun p => p.2.toNat) BitVec.toNat (fun r => r.c.toNat) _
    hstep r
  rw [length_program, program_same, ← List.map_reverse, number_program] at h
  rw [program_same]
  exact h

end bytes

/-! ### As a number -/

/-- A way to process the bytes of a program: `process ops c out c'` tells that from the carry
`c` it may leave the bytes `out` and the carry `c'`. It shifts numbers when each of the four
programs does to the number `M`, and to the carry before it, what a shift of all bits does. -/
structure ShiftsNumbers (process : List (RmwOp × U8) → Bool → List U8 → Bool → Prop) : Prop where
  length : ∀ {M first rest c out c'}, process (program first rest M) c out c' →
    first.shifts → rest.shifts → out.length = M.length
  rol : ∀ {M c out c'}, M ≠ [] → process (program .ROL .ROL M) c out c' →
    unsigned out = (2 * unsigned M + c.toNat) % 256 ^ M.length ∧
      c' = (unsigned M).testBit (8 * M.length - 1)
  ror : ∀ {M c out c'}, M ≠ [] → process (program .ROR .ROR M.reverse) c out c' →
    unsigned out.reverse = (256 ^ M.length * c.toNat + unsigned M) / 2 ∧
      c' = (unsigned M).testBit 0
  asl : ∀ {M c out c'}, M ≠ [] → process (program .ASL .ROL M) c out c' →
    unsigned out = 2 * unsigned M % 256 ^ M.length ∧ c' = (unsigned M).testBit (8 * M.length - 1)
  lsr : ∀ {M c out c'}, M ≠ [] → process (program .LSR .ROR M.reverse) c out c' →
    unsigned out.reverse = unsigned M / 2 ∧ c' = (unsigned M).testBit 0
  ror_rol : ∀ {M c out c' back c''}, process (program .ROL .ROL M) c out c' →
    process (program .ROR .ROR out.reverse) c' back c'' → back.reverse = M ∧ c'' = c
  rol_ror : ∀ {M c out c' back c''}, process (program .ROR .ROR M.reverse) c out c' →
    process (program .ROL .ROL out.reverse) c' back c'' → back = M ∧ c'' = c

section numbers

variable {V : Variant} {M : List U8} {r : Registers}

theorem unsigned_lt (M : List U8) : unsigned M < 256 ^ M.length :=
  number_lt (by decide) fun d _ => d.isLt

theorem unsigned_injective {M M' : List U8} (hlength : M.length = M'.length)
    (h : unsigned M = unsigned M') : M = M' :=
  number_injective (fun _ _ => BitVec.eq_of_toNat_eq) (by decide) BitVec.isLt hlength h

@[simp] theorem length_shiftBytes (ops : List (RmwOp × U8)) :
    (shiftBytes V ops r).1.length = ops.length := length_sweep _ _ _

/-- The top bit of a number tells whether its double has a carry. -/
theorem topBit_eq (hM : M ≠ []) {out : ℕ} {c c' : Bool} (hout : out < 256 ^ M.length)
    (h : out + 256 ^ M.length * c'.toNat = 2 * unsigned M + c.toNat) :
    out = (2 * unsigned M + c.toNat) % 256 ^ M.length ∧
      c' = (unsigned M).testBit (8 * M.length - 1) := by
  have hlt := unsigned_lt M
  have hlength : 0 < M.length := List.length_pos_of_ne_nil hM
  have hpow : 256 ^ M.length = 2 * 2 ^ (8 * M.length - 1) := by
    rw [← pow_succ', show 8 * M.length - 1 + 1 = 8 * M.length by omega, pow_mul]
    rfl
  refine ⟨?_, ?_⟩
  · rw [← h, Nat.add_mul_mod_self_left, Nat.mod_eq_of_lt hout]
  · rw [hpow] at h hlt hout
    rw [Nat.testBit_eq_decide_div_mod_eq]
    generalize 2 ^ (8 * M.length - 1) = half at *
    generalize unsigned M = number at *
    have hc := Bool.toNat_le c
    by_cases hhalf : half ≤ number
    · have hdiv : number / half = 1 := Nat.div_eq_of_lt_le (by omega) (by omega)
      cases c' with
      | true => simp [hdiv]
      | false =>
        simp at h
        omega
    · rw [Nat.div_eq_of_lt (by omega)]
      cases c' with
      | true =>
        simp at h
        omega
      | false => rfl

theorem bottomBit_eq {out number : ℕ} {c' : Bool} (h : 2 * out + c'.toNat = number) :
    out = number / 2 ∧ c' = number.testBit 0 := by
  rw [Nat.testBit_zero]
  cases c' <;> simp at h <;> simp <;> omega

theorem two_mul_add_bit_injective {x y : ℕ} {c d : Bool} (h : 2 * x + c.toNat = 2 * y + d.toNat) :
    x = y ∧ c = d := by
  cases c <;> cases d <;> simp at h ⊢ <;> omega

theorem add_mul_bit_injective {x y B : ℕ} {c d : Bool} (hx : x < B) (hy : y < B)
    (h : x + B * c.toNat = y + B * d.toNat) : x = y ∧ c = d := by
  cases c <;> cases d <;> simp at h ⊢ <;> omega

end numbers

/-- A way to process bytes that leaves what the operations one after the other leave. -/
def FollowsShifts (V : Variant) (process : List (RmwOp × U8) → Bool → List U8 → Bool → Prop) :
    Prop :=
  ∀ ⦃ops c out c'⦄, (∀ p ∈ ops, p.1.shifts = true) → process ops c out c' →
    ∀ r : Registers, r.c = c → (shiftBytes V ops r).1 = out ∧ (shiftBytes V ops r).2.c = c'

namespace FollowsShifts

variable {V : Variant} {process : List (RmwOp × U8) → Bool → List U8 → Bool → Prop}
  {M out : List U8} {c c' : Bool}

theorem length (h : FollowsShifts V process) {first rest : RmwOp} (hfirst : first.shifts = true)
    (hrest : rest.shifts = true) (hp : process (program first rest M) c out c') :
    out.length = M.length := by
  rw [← (h (program_shifts hfirst hrest M) hp { c } rfl).1, length_shiftBytes, length_program]

theorem left (h : FollowsShifts V process) (hp : process (program .ROL .ROL M) c out c') :
    unsigned out + 256 ^ M.length * c'.toNat = 2 * unsigned M + c.toNat := by
  obtain ⟨rfl, rfl⟩ := h (program_shifts rfl rfl M) hp { c } rfl
  exact rol_bytes M { c }

theorem right (h : FollowsShifts V process) (hp : process (program .ROR .ROR M) c out c') :
    2 * unsigned out.reverse + c'.toNat = unsigned M.reverse + 256 ^ M.length * c.toNat := by
  obtain ⟨rfl, rfl⟩ := h (program_shifts rfl rfl M) hp { c } rfl
  exact ror_bytes M { c }

theorem left_asl (h : FollowsShifts V process) (hM : M ≠ [])
    (hp : process (program .ASL .ROL M) c out c') :
    unsigned out + 256 ^ M.length * c'.toNat = 2 * unsigned M := by
  obtain ⟨rfl, rfl⟩ := h (program_shifts rfl rfl M) hp { c } rfl
  rw [asl_program M hM]
  exact rol_bytes M { c := false }

theorem right_lsr (h : FollowsShifts V process) (hM : M ≠ [])
    (hp : process (program .LSR .ROR M) c out c') :
    2 * unsigned out.reverse + c'.toNat = unsigned M.reverse := by
  obtain ⟨rfl, rfl⟩ := h (program_shifts rfl rfl M) hp { c } rfl
  rw [lsr_program M hM]
  exact ror_bytes M { c := false }

/-- **Shifts of the bytes shift the number.** -/
theorem shiftsNumbers (h : FollowsShifts V process) : ShiftsNumbers process where
  length hp hfirst hrest := h.length hfirst hrest hp
  rol {M c out c'} hM hp :=
    topBit_eq hM ((unsigned_lt out).trans_eq (by rw [h.length rfl rfl hp])) (h.left hp)
  ror {M c out c'} hM hp := by
    have hbalance := h.right hp
    rw [List.reverse_reverse, List.length_reverse, add_comm (unsigned M)] at hbalance
    obtain ⟨hnumber, hbit⟩ := bottomBit_eq hbalance
    refine ⟨hnumber, hbit.trans ?_⟩
    obtain ⟨n, hn⟩ := Nat.exists_eq_succ_of_ne_zero (List.length_pos_of_ne_nil hM).ne'
    rw [hn, pow_succ, Nat.testBit_zero, Nat.testBit_zero,
      show 256 ^ n * 256 * c.toNat + unsigned M =
        unsigned M + 2 * (256 ^ n * 128 * c.toNat) by ring,
      Nat.add_mul_mod_self_left]
  asl {M c out c'} hM hp :=
    topBit_eq (c := false) hM ((unsigned_lt out).trans_eq (by rw [h.length rfl rfl hp]))
      (h.left_asl hM hp)
  lsr {M c out c'} hM hp := by
    have hbalance := h.right_lsr (List.reverse_ne_nil_iff.mpr hM) hp
    rw [List.reverse_reverse] at hbalance
    exact bottomBit_eq hbalance
  ror_rol {M c out c' back c''} hp hp' := by
    have hout := h.length rfl rfl hp
    have hback := h.length rfl rfl hp'
    have hbalance := h.right hp'
    rw [List.reverse_reverse, List.length_reverse, hout, h.left hp] at hbalance
    obtain ⟨hnumber, hcarry⟩ := two_mul_add_bit_injective hbalance
    refine ⟨unsigned_injective ?_ hnumber, hcarry⟩
    rw [List.length_reverse, hback, List.length_reverse, hout]
  rol_ror {M c out c' back c''} hp hp' := by
    have hout := h.length rfl rfl hp
    have hback := h.length rfl rfl hp'
    have hbalance := h.left hp'
    rw [h.right hp, List.reverse_reverse, List.length_reverse, hout,
      List.length_reverse] at hbalance
    rw [List.length_reverse, hout, List.length_reverse] at hback
    obtain ⟨hnumber, hcarry⟩ := add_mul_bit_injective
      ((unsigned_lt back).trans_eq (by rw [hback])) (unsigned_lt M) hbalance
    exact ⟨unsigned_injective hback hnumber, hcarry⟩

end FollowsShifts

/-! ### In the registers, in memory and in the accumulator -/

/-- The bytes are handed to the operations one after the other. -/
def directly (V : Variant) (ops : List (RmwOp × U8)) (c : Bool) (out : List U8) (c' : Bool) :
    Prop :=
  ∃ r : Registers, r.c = c ∧ (shiftBytes V ops r).1 = out ∧ (shiftBytes V ops r).2.c = c'

section machine

variable {β : Type}

/-- What the program does between two shifts: it keeps the carry and the bytes of the number. -/
structure Between [PlainMemory β] (addrs : List U16) (m m' : Machine β NullHooks) : Prop where
  carry : m'.cpu.regs.c = m.cpu.regs.c
  kept : ∀ addr ∈ addrs, m'.arch.mem addr = m.arch.mem addr

/-- A run of read-modify-write instructions at the addresses of a number. -/
inductive RmwRun [PlainMemory β] (V : Variant) (addrs : List U16) :
    List (RmwOp × U16) → Machine β NullHooks → Machine β NullHooks → Prop
  | done {m m' : Machine β NullHooks} (hidle : Between addrs m m') : RmwRun V addrs [] m m'
  | shift {op : RmwOp} {addr : U16} {rest : List (RmwOp × U16)} {m m₁ m' : Machine β NullHooks}
      (mode : OperandMode) (hidle : Between addrs m m₁)
      (haddr : (m₁.exec (mode.effective .ReadModifyWrite)).1 = addr)
      (hrest : RmwRun V addrs rest (m₁.exec ((Instr.RmwInstr op mode).execute V)).2 m') :
      RmwRun V addrs ((op, addr) :: rest) m m'

/-- The bytes are shifted where they are in plain memory, at distinct addresses. -/
def inMemory (V : Variant) (β : Type) [PlainMemory β] (ops : List (RmwOp × U8)) (c : Bool)
    (out : List U8) (c' : Bool) : Prop :=
  ∃ (at' : List (RmwOp × U16)) (m m' : Machine β NullHooks), (at'.map Prod.snd).Nodup ∧
    (at'.map fun p => (p.1, m.arch.mem p.2)) = ops ∧ m.cpu.regs.c = c ∧
    RmwRun V (at'.map Prod.snd) at' m m' ∧
    (at'.map fun p => m'.arch.mem p.2) = out ∧ m'.cpu.regs.c = c'

/-- A run of shifts of the accumulator. It is loaded with each byte, and each result is taken
from it. -/
inductive AccumRun [BusLike β] (V : Variant) :
    List (RmwOp × U8) → List U8 → Machine β NullHooks → Machine β NullHooks → Prop
  | done {m m' : Machine β NullHooks} (hcarry : m'.cpu.regs.c = m.cpu.regs.c) :
      AccumRun V [] [] m m'
  | shift {op : RmwOp} {value : U8} {rest : List (RmwOp × U8)} {out : List U8}
      {m m₁ m' : Machine β NullHooks} (mode : Mode) (hcarry : m₁.cpu.regs.c = m.cpu.regs.c)
      (hload : m₁.cpu.regs.a = value)
      (hrest : AccumRun V rest out (m₁.exec ((Instr.AccumInstr op mode).execute V)).2 m') :
      AccumRun V ((op, value) :: rest)
        ((m₁.exec ((Instr.AccumInstr op mode).execute V)).2.cpu.regs.a :: out) m m'

/-- The bytes pass through the accumulator. -/
def inAccumulator (V : Variant) (β : Type) [BusLike β] (ops : List (RmwOp × U8)) (c : Bool)
    (out : List U8) (c' : Bool) : Prop :=
  ∃ m m' : Machine β NullHooks, m.cpu.regs.c = c ∧ AccumRun V ops out m m' ∧ m'.cpu.regs.c = c'

theorem directly_followsShifts (V : Variant) : FollowsShifts V (directly V) := by
  rintro ops c out c' hops ⟨r, rfl, rfl, rfl⟩ r' hc
  exact shiftBytes_congr _ hops hc

/-- A run leaves the bytes of the number alone that it does not shift. -/
theorem RmwRun.frame [PlainMemory β] {V : Variant} {addrs : List U16} {ops : List (RmwOp × U16)}
    {m m' : Machine β NullHooks} (h : RmwRun V addrs ops m m') {addr : U16} (haddr : addr ∈ addrs)
    (hnot : addr ∉ ops.map Prod.snd) : m'.arch.mem addr = m.arch.mem addr := by
  induction h with
  | done hidle => exact hidle.kept addr haddr
  | @shift op addr' rest m m₁ m' mode hidle haddr' hrest ih =>
    rw [List.map_cons, List.mem_cons, not_or] at hnot
    rw [ih hnot.2, Machine.exec_execute_arch, ← hidle.kept addr haddr]
    rw [Machine.exec_effective] at haddr'
    exact Function.update_of_ne (haddr' ▸ hnot.1) _ _

/-- One shift in memory, from the byte and the carry that the run before it left. -/
theorem Between.shift [PlainMemory β] {addrs : List U16} {m m₁ : Machine β NullHooks}
    (h : Between addrs m m₁) (V : Variant) {op : RmwOp} (hop : op.shifts = true)
    (mode : OperandMode) (hmem : mode.address m₁.arch ∈ addrs) :
    let m₂ := (m₁.exec ((Instr.RmwInstr op mode).execute V)).2
    let result := op.apply V (m.arch.mem (mode.address m₁.arch)) m.cpu.regs
    m₂.arch.mem = Function.update m₁.arch.mem (mode.address m₁.arch) result.1 ∧
      m₂.cpu.regs.c = result.2.c := by
  intro m₂ result
  have harch : m₂.arch = (Instr.RmwInstr op mode).effect V m₁.arch :=
    Machine.exec_execute_arch V (.RmwInstr op mode) m₁
  obtain ⟨hbyte, hcarry⟩ := op.shifts_congr V (m₁.arch.mem (mode.address m₁.arch)) hop
    (r := (mode.consume m₁.arch).regs) (t := m.cpu.regs) h.carry
  constructor
  · rw [harch]
    simp only [Instr.effect, result]
    rw [hbyte, h.kept _ hmem]
  · rw [show m₂.cpu.regs = m₂.arch.regs from rfl, harch]
    simp only [Instr.effect, result]
    rw [hcarry, h.kept _ hmem]

theorem RmwRun.shiftBytes [PlainMemory β] {V : Variant} {addrs : List U16}
    {ops : List (RmwOp × U16)} {m m' : Machine β NullHooks} (h : RmwRun V addrs ops m m')
    (hops : ∀ p ∈ ops, p.1.shifts = true) (hnodup : (ops.map Prod.snd).Nodup)
    (hsub : ∀ p ∈ ops, p.2 ∈ addrs) :
    (shiftBytes V (ops.map fun p => (p.1, m.arch.mem p.2)) m.cpu.regs).1 =
        (ops.map fun p => m'.arch.mem p.2) ∧
      (shiftBytes V (ops.map fun p => (p.1, m.arch.mem p.2)) m.cpu.regs).2.c =
        m'.cpu.regs.c := by
  induction h with
  | done hidle => exact ⟨rfl, hidle.carry.symm⟩
  | @shift op addr rest m m₁ m' mode hidle haddr hrest ih =>
    rw [List.map_cons, List.nodup_cons] at hnodup
    obtain ⟨hnot, hnodup⟩ := hnodup
    rw [Machine.exec_effective] at haddr
    subst haddr
    have hmem : mode.address m₁.arch ∈ addrs := hsub _ List.mem_cons_self
    obtain ⟨hbytes, hcarry⟩ := hidle.shift V (hops _ List.mem_cons_self) mode hmem
    generalize (m₁.exec ((Instr.RmwInstr op mode).execute V)).2 = m₂ at *
    have hothers : (rest.map fun p => (p.1, m₂.arch.mem p.2)) =
        rest.map fun p => (p.1, m.arch.mem p.2) := by
      refine List.map_congr_left fun p hp => ?_
      have hne : p.2 ≠ mode.address m₁.arch := fun h => hnot (List.mem_map.mpr ⟨p, hp, h⟩)
      rw [hbytes, Function.update_of_ne hne, hidle.kept p.2 (hsub p (List.mem_cons_of_mem _ hp))]
    have hops' : ∀ p ∈ rest, p.1.shifts = true := fun p hp => hops p (List.mem_cons_of_mem _ hp)
    have hlast := ih hops' hnodup fun p hp => hsub p (List.mem_cons_of_mem _ hp)
    rw [hothers] at hlast
    have hcongr := shiftBytes_congr (V := V) (rest.map fun p => (p.1, m.arch.mem p.2))
      (List.forall_mem_map.mpr hops') hcarry.symm
    simp only [List.map_cons, shiftBytes_cons]
    refine ⟨List.cons_eq_cons.mpr ⟨?_, hcongr.1.trans hlast.1⟩, hcongr.2.trans hlast.2⟩
    rw [hrest.frame hmem hnot, hbytes, Function.update_self]

theorem inMemory_followsShifts (V : Variant) (β : Type) [PlainMemory β] :
    FollowsShifts V (inMemory V β) := by
  rintro ops c out c' hops ⟨at', m, m', hnodup, rfl, rfl, hrun, rfl, rfl⟩ r hc
  obtain ⟨hbytes, hcarry⟩ := hrun.shiftBytes (List.forall_mem_map.mp hops) hnodup fun p hp =>
    List.mem_map_of_mem hp
  obtain ⟨hbytes', hcarry'⟩ := shiftBytes_congr (V := V) _ hops hc
  exact ⟨hbytes'.trans hbytes, hcarry'.trans hcarry⟩

theorem inAccumulator_followsShifts (V : Variant) (β : Type) [BusLike β] :
    FollowsShifts V (inAccumulator V β) := by
  rintro ops c out c' hops ⟨m, m', rfl, hrun, rfl⟩ r hc
  induction hrun generalizing r with
  | done hcarry => exact ⟨rfl, hc.trans hcarry.symm⟩
  | @shift op value rest out m m₁ m' mode hcarry hload hrest ih =>
    have hregs : (m₁.exec ((Instr.AccumInstr op mode).execute V)).2.cpu.regs =
        { (op.apply V m₁.cpu.regs.a m₁.cpu.regs).2 with
          a := (op.apply V m₁.cpu.regs.a m₁.cpu.regs).1 } := rfl
    generalize (m₁.exec ((Instr.AccumInstr op mode).execute V)).2 = m₂ at *
    obtain ⟨hbyte, hnext⟩ := RmwOp.shifts_congr V value (hops _ List.mem_cons_self)
      (hc.trans hcarry.symm)
    obtain ⟨hbytes, hlast⟩ := ih (fun p hp => hops p (List.mem_cons_of_mem _ hp))
      (op.apply V value r).2 (by rw [hregs, hload]; exact hnext)
    rw [shiftBytes_cons]
    refine ⟨List.cons_eq_cons.mpr ⟨?_, hbytes⟩, hlast⟩
    rw [hregs, hload]
    exact hbyte

end machine

/-- **Shifts of numbers of many bytes.** Rotating the bytes upwards from the least significant
one, or downwards from the most significant one, rotates the whole number and the carry, and
the two undo each other; with ASL or LSR on the first byte the number is doubled or halved.
It makes no difference where the bytes are shifted. -/
theorem multi_byte_shifts (V : Variant) (β γ : Type) [PlainMemory β] [BusLike γ] :
    ShiftsNumbers (directly V) ∧ ShiftsNumbers (inMemory V β) ∧
      ShiftsNumbers (inAccumulator V γ) :=
  ⟨(directly_followsShifts V).shiftsNumbers, (inMemory_followsShifts V β).shiftsNumbers,
    (inAccumulator_followsShifts V γ).shiftsNumbers⟩

/-- `$8081` in page zero rotates with the carry to `$0103`; in the accumulator it is halved to
`$4040`. -/
theorem multi_byte_shifts_word :
    (inMemory Nmos6502 FlatBus (program .ROL .ROL [0x81, 0x80]) true [0x03, 0x01] true ∧
      unsigned [0x03, 0x01] = (2 * unsigned [0x81, 0x80] + 1) % 256 ^ 2) ∧
    (inAccumulator Nmos6502 FlatBus (program .LSR .ROR [0x80, 0x81]) false [0x40, 0x40] true ∧
      unsigned [0x40, 0x40] = unsigned [0x81, 0x80] / 2) := by
  obtain ⟨_, hmemory, haccumulator⟩ := multi_byte_shifts Nmos6502 FlatBus FlatBus
  let memory : Memory := fun addr =>
    if addr = 0x0010 then 0x81 else if addr = 0x0011 then 0x80 else
    if addr = 0x0200 then 0x10 else if addr = 0x0201 then 0x11 else 0x00
  let m (a : U8) (c : Bool) : Machine FlatBus NullHooks :=
    { cpu := { regs := { pc := 0x0200, a, c } }, bus := { memory }, hooks := {} }
  have hrol : inMemory Nmos6502 FlatBus (program .ROL .ROL [0x81, 0x80]) true [0x03, 0x01] true :=
    ⟨[(.ROL, 0x0010), (.ROL, 0x0011)], m 0x00 true, _, by decide, rfl, rfl,
      .shift .ZeroPage ⟨rfl, fun _ _ => rfl⟩ rfl
        (.shift .ZeroPage ⟨rfl, fun _ _ => rfl⟩ rfl (.done ⟨rfl, fun _ _ => rfl⟩)),
      by decide, by decide⟩
  -- The low byte is loaded once the high byte has been shifted.
  let high := ((m 0x80 false).exec ((Instr.AccumInstr .LSR .Accumulator).execute Nmos6502)).2
  let low := ((m 0x81 false).exec ((Instr.AccumInstr .ROR .Accumulator).execute Nmos6502)).2
  obtain ⟨hhigh, hcarry, hlow, hlast⟩ : high.cpu.regs.a = 0x40 ∧ high.cpu.regs.c = false ∧
      low.cpu.regs.a = 0x40 ∧ low.cpu.regs.c = true := by decide
  have hlsr : inAccumulator Nmos6502 FlatBus (program .LSR .ROR [0x80, 0x81]) false
      [high.cpu.regs.a, low.cpu.regs.a] low.cpu.regs.c :=
    ⟨m 0x80 false, low, rfl, .shift .Accumulator rfl rfl
      (.shift .Accumulator hcarry.symm rfl (.done rfl)), rfl⟩
  rw [hhigh, hlow, hlast] at hlsr
  exact ⟨⟨hrol, (hmemory.rol (by decide) hrol).1⟩, hlsr,
    (haccumulator.lsr (M := [0x81, 0x80]) (by decide) hlsr).1⟩

end Mos6502
