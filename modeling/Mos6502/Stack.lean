import Mos6502.Effects.RingStack
import Mos6502.PlainStep

/-!
# The stack in page one

Page one is a ring of 256 cells under the stack pointer. Every step pushes some bytes,
pulls some, or leaves the stack alone, and the three instructions that load the stack
pointer from elsewhere are the only exceptions (`stackBytes_effect`).
-/

namespace Mos6502

open Effects

/-- The cells of the stack, by the stack pointer that names them. -/
def stackCells (mem : Memory) : U8 → U8 := fun s => mem (stackAddr s)

/-- The top `n` bytes of the stack, in the order in which they would be pulled. -/
def stackBytes (mem : Memory) (s : U8) (n : ℕ) : List U8 :=
  RingStack.contents (stackCells mem) s n

/-- The address holds one of the top `n` bytes of the stack. -/
def StackLive (s : U8) (n : ℕ) (addr : U16) : Prop :=
  page addr = 1 ∧ RingStack.Live s n (offset addr)

theorem stackLive_stackAddr {s : U8} {n : ℕ} {t : U8} :
    StackLive s n (stackAddr t) ↔ RingStack.Live s n t := by
  simp [StackLive]

theorem stackBytes_congr {mem mem' : Memory} {s : U8} {n : ℕ}
    (h : ∀ addr, StackLive s n addr → mem addr = mem' addr) :
    stackBytes mem s n = stackBytes mem' s n :=
  RingStack.contents_congr fun t ht => h (stackAddr t) (stackLive_stackAddr.mpr ht)

@[simp] theorem length_stackBytes (mem : Memory) (s : U8) (n : ℕ) :
    (stackBytes mem s n).length = n := RingStack.length_contents ..

theorem stackBytes_add (mem : Memory) (s : U8) (k n : ℕ) :
    stackBytes mem s (k + n) = stackBytes mem s k ++ stackBytes mem (s + BitVec.ofNat 8 k) n :=
  RingStack.contents_add ..

theorem stackCells_update (mem : Memory) (s v : U8) :
    stackCells (Function.update mem (stackAddr s) v) = Function.update (stackCells mem) s v := by
  funext t
  simp only [stackCells, Function.update_apply, stackAddr_inj]

/-- The top of the stack is what pulls return. -/
theorem stackBytes_eq_map (a : Arch) (n : ℕ) :
    stackBytes a.mem a.regs.s n = (List.range n).map fun k => a.mem (a.pulled (k + 1)) :=
  RingStack.contents_eq_map ..

namespace Arch

/-- Push bytes so that they are pulled in the order of the list. -/
def pushAll (a : Arch) (bytes : List U8) : Arch := bytes.foldr (fun v a => a.push v) a

@[simp] theorem pushAll_nil (a : Arch) : a.pushAll [] = a := rfl

@[simp] theorem pushAll_cons (a : Arch) (v : U8) (bytes : List U8) :
    a.pushAll (v :: bytes) = (a.pushAll bytes).push v := rfl

theorem pushAll_s (a : Arch) (bytes : List U8) :
    (a.pushAll bytes).regs.s = a.regs.s - BitVec.ofNat 8 bytes.length := by
  induction bytes with
  | nil => simp
  | cons v bytes ih =>
    rw [pushAll_cons, List.length_cons, BitVec.ofNat_add, ← BitVec.sub_sub, ← ih]
    rfl

theorem pushAll_advance (a : Arch) (k : ℕ) (bytes : List U8) :
    (a.advance k).pushAll bytes = (a.pushAll bytes).advance k := by
  induction bytes with
  | nil => rfl
  | cons v bytes ih =>
    rw [pushAll_cons, ih]
    rfl

theorem pushAll_mem (a : Arch) (bytes : List U8) {addr : U16} (h : page addr ≠ 1) :
    (a.pushAll bytes).mem addr = a.mem addr := by
  induction bytes with
  | nil => rfl
  | cons v bytes ih =>
    refine (Function.update_of_ne ?_ _ _).trans ih
    rintro rfl
    exact h (page_stackAddr _)

/-- Pushes into a ring that has room put their bytes on top of what is there. -/
theorem stackBytes_pushAll (a : Arch) (bytes : List U8) {n : ℕ} (hroom : bytes.length + n ≤ 256) :
    stackBytes (a.pushAll bytes).mem (a.pushAll bytes).regs.s (bytes.length + n) =
      bytes ++ stackBytes a.mem a.regs.s n := by
  induction bytes with
  | nil => simp
  | cons v bytes ih =>
    rw [List.length_cons] at hroom
    have hlt : bytes.length + n < 2 ^ 8 := by omega
    rw [List.length_cons, Nat.add_right_comm, List.cons_append, ← ih (by omega), stackBytes,
      stackBytes, ← RingStack.contents_push _ _ hlt, ← stackCells_update]
    rfl

end Arch

/-! ### What each instruction does to the stack -/

namespace Instr

/-- The bytes that an instruction pushes, in the order in which they would be pulled. -/
def pushed (i : Instr) (a : Arch) : List U8 :=
  match i with
  | .ImpliedInstr .PHA _ => [a.regs.a]
  | .ImpliedInstr .PHP _ => [a.regs.pack true]
  | .SpecialInstr .JSR _ => [offset (a.regs.pc + 1), page (a.regs.pc + 1)]
  | .SpecialInstr .BRK _ => [a.regs.pack true, offset (a.regs.pc + 1), page (a.regs.pc + 1)]
  | _ => []

/-- The number of bytes that an instruction pulls. -/
def pulls : Instr → ℕ
  | .ImpliedInstr .PLA _ | .ImpliedInstr .PLP _ => 1
  | .SpecialInstr .RTS _ => 2
  | .SpecialInstr .RTI _ => 3
  | _ => 0

/-- The instructions that load the stack pointer other than by pushes and pulls. -/
def loadsStackPointer : Instr → Bool
  | .ImpliedInstr .TXS _ | .UnstableStoreInstr .TAS _ | .ReadInstr .LAS _ => true
  | _ => false

variable (V : Variant) (i : Instr) (a : Arch)

/-- What is pushed depends on the registers alone. -/
theorem pushed_of_regs {i : Instr} {a b : Arch} (h : a.regs = b.regs) :
    i.pushed a = i.pushed b := by
  cases i with
  | ImpliedInstr op mode | SpecialInstr op mode => cases op <;> simp only [pushed, h]
  | _ => rfl

theorem length_pushed_le : (i.pushed a).length ≤ 3 := by
  cases i with
  | ImpliedInstr op mode | SpecialInstr op mode => cases op <;> simp [pushed]
  | _ => exact Nat.zero_le 3

theorem pulls_eq_zero_of_pushed (h : i.pushed a ≠ []) : i.pulls = 0 := by
  cases i with
  | ImpliedInstr op mode | SpecialInstr op mode =>
    cases op <;> first | rfl | exact absurd rfl h
  | _ => rfl

/-- An instruction moves the stack pointer by the bytes that it pushes and pulls. -/
theorem effect_s (h : i.loadsStackPointer = false) :
    (i.effect V a).regs.s =
      a.regs.s - BitVec.ofNat 8 (i.pushed a).length + BitVec.ofNat 8 i.pulls := by
  have hzero (s : U8) : s - BitVec.ofNat 8 0 + BitVec.ofNat 8 0 = s := by simp
  cases i with
  | ReadInstr op mode =>
    obtain ⟨_, _, _, _, _, _, _, _, hkeeps, hs⟩ :=
      op.apply_keeps V (a.mem (mode.address a)) (mode.consume a).regs
    have hop : op ≠ .LAS := by
      rintro rfl
      cases h
    simp only [effect, hkeeps, hs hop, pushed, pulls, List.length_nil, hzero]
    rfl
  | RmwInstr op mode =>
    obtain ⟨_, _, _, _, _, hkeeps⟩ :=
      op.apply_keeps V (a.mem (mode.address a)) (mode.consume a).regs
    simp only [effect, hkeeps, pushed, pulls, List.length_nil, hzero]
    rfl
  | AccumInstr op mode =>
    obtain ⟨_, _, _, _, _, hkeeps⟩ := op.apply_keeps V a.regs.a a.regs
    simp only [effect, hkeeps, pushed, pulls, List.length_nil, hzero]
  | UnstableStoreInstr op mode =>
    obtain ⟨_, hkeeps, hs⟩ := op.value_keeps (mode.toOperandMode.consume a).regs
      (page (mode.toOperandMode.base a))
    have hop : op ≠ .TAS := by
      rintro rfl
      cases h
    simp only [effect, unstableStore, hkeeps, hs hop, pushed, pulls, List.length_nil, hzero]
    rfl
  | BranchInstr cond mode =>
    simp only [effect, pushed, pulls, List.length_nil, hzero]
    split <;> rfl
  | WriteInstr op mode => exact (hzero a.regs.s).symm
  | ImpliedInstr op mode =>
    cases op with
    | TXS => cases h
    | PHA | PHP => exact (BitVec.add_zero _).symm
    | PLA | PLP =>
      change a.regs.s + BitVec.ofNat 8 1 = _
      simp [pushed, pulls]
    | _ => exact (hzero a.regs.s).symm
  | SpecialInstr op mode =>
    cases op with
    | BRK | JSR =>
      simp [effect, SpecialOp.effect, interruptEffect, jsrPushed, Arch.push, Arch.advance,
        Arch.jump, pushed, pulls, BitVec.sub_sub]
    | RTS | RTI =>
      simp [effect, SpecialOp.effect, Arch.drop, Arch.jump, Registers.unpack, pushed, pulls]
    | _ => exact (hzero a.regs.s).symm

/-- An instruction that pushes stores nothing else. -/
theorem effect_mem_of_pushes (h : i.pushed a ≠ []) :
    (i.effect V a).mem = (a.pushAll (i.pushed a)).mem := by
  cases i with
  | ImpliedInstr op mode | SpecialInstr op mode => cases op <;> rfl
  | _ => exact absurd rfl h

/-- An instruction that pulls stores nothing. -/
theorem effect_mem_of_pulls (h : i.pulls ≠ 0) : (i.effect V a).mem = a.mem := by
  cases i with
  | ImpliedInstr op mode | SpecialInstr op mode =>
    cases op <;> first | rfl | exact absurd rfl h
  | _ => exact absurd rfl h

end Instr

/-! ### What each step does to the stack -/

namespace StepKind

/-- The bytes that a step pushes, in the order in which they would be pulled. -/
def pushed (kind : StepKind) (a : Arch) : List U8 :=
  match kind with
  | .jammed => []
  | .nmi | .irq => [a.regs.pack false, offset a.regs.pc, page a.regs.pc]
  | .instruction op => (instr op).pushed (a.advance 1)

def pulls : StepKind → ℕ
  | .instruction op => (instr op).pulls
  | _ => 0

def loadsStackPointer (kind : StepKind) : Bool := kind.executes Instr.loadsStackPointer

variable (V : Variant) (kind : StepKind) (a : Arch)

theorem pulls_eq_zero_of_pushed (h : kind.pushed a ≠ []) : kind.pulls = 0 := by
  cases kind with
  | instruction op => exact (instr op).pulls_eq_zero_of_pushed _ h
  | _ => rfl

theorem effect_s (h : kind.loadsStackPointer = false) :
    (kind.effect V a).regs.s =
      a.regs.s - BitVec.ofNat 8 (kind.pushed a).length + BitVec.ofNat 8 kind.pulls := by
  cases kind with
  | instruction op => exact (instr op).effect_s V (a.advance 1) h
  | jammed => simp [effect, pushed, pulls]
  | nmi | irq =>
    simp [effect, interruptEffect, Arch.push, pushed, pulls, BitVec.sub_sub]

theorem effect_mem_of_pushes (h : kind.pushed a ≠ []) :
    (kind.effect V a).mem = (a.pushAll (kind.pushed a)).mem := by
  cases kind with
  | instruction op =>
    refine ((instr op).effect_mem_of_pushes V (a.advance 1) h).trans ?_
    rw [Arch.pushAll_advance]
    rfl
  | jammed => rfl
  | nmi | irq => rfl

theorem effect_mem_of_pulls (h : kind.pulls ≠ 0) : (kind.effect V a).mem = a.mem := by
  cases kind with
  | instruction op => exact (instr op).effect_mem_of_pulls V (a.advance 1) h
  | _ => exact absurd rfl h

/-- **Stack effect.** A step that does not load the stack pointer and stores into no live
byte but by pushing removes the bytes it pulls and adds those it pushes. -/
theorem stackBytes_effect {n : ℕ} (hloads : kind.loadsStackPointer = false)
    (hpulls : kind.pulls ≤ n) (hroom : (kind.pushed a).length + n ≤ 256)
    (hstores : kind.pushed a = [] → kind.pulls = 0 →
      ∀ addr, StackLive a.regs.s n addr → (kind.effect V a).mem addr = a.mem addr) :
    stackBytes (kind.effect V a).mem (kind.effect V a).regs.s
        ((kind.pushed a).length + (n - kind.pulls)) =
      kind.pushed a ++ (stackBytes a.mem a.regs.s n).drop kind.pulls := by
  rw [kind.effect_s V a hloads]
  by_cases hpushed : kind.pushed a = []
  · have hs : a.regs.s - BitVec.ofNat 8 (kind.pushed a).length = a.regs.s := by simp [hpushed]
    rw [hs, hpushed, List.nil_append, List.length_nil, Nat.zero_add]
    by_cases hzero : kind.pulls = 0
    · rw [hzero]
      simpa using stackBytes_congr (hstores hpushed hzero)
    · obtain ⟨k, rfl⟩ := Nat.exists_eq_add_of_le hpulls
      rw [kind.effect_mem_of_pulls V a hzero, stackBytes_add a.mem a.regs.s,
        List.drop_left' (length_stackBytes ..), Nat.add_sub_cancel_left]
  · rw [kind.pulls_eq_zero_of_pushed a hpushed, kind.effect_mem_of_pushes V a hpushed,
      List.drop_zero, ← a.stackBytes_pushAll (kind.pushed a) hroom, a.pushAll_s]
    simp

end StepKind

end Mos6502
