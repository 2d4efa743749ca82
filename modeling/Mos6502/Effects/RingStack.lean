import Mathlib.Data.BitVec
import Mathlib.Logic.Function.Basic

/-!
# A stack in a ring of cells

A descending stack whose pointer names the next free cell and wraps around. The
pointer alone does not say how deep the stack is, so the depth is a parameter: the
live cells are that many cells above the pointer, and a push into a ring that is not
full overwrites none of them.
-/

namespace Effects.RingStack

variable {w : ℕ} {α : Type}

/-- The `n` cells above the pointer, from the top of the stack downwards. -/
def contents (cells : BitVec w → α) (s : BitVec w) : ℕ → List α
  | 0 => []
  | n + 1 => cells (s + 1) :: contents cells (s + 1) n

/-- The cell `i` is one of the `n` cells above the pointer. -/
def Live (s : BitVec w) (n : ℕ) (i : BitVec w) : Prop := (i - s - 1).toNat < n

section cells

variable (cells : BitVec w → α) (s : BitVec w)

@[simp] theorem contents_zero : contents cells s 0 = [] := rfl

theorem contents_succ (n : ℕ) :
    contents cells s (n + 1) = cells (s + 1) :: contents cells (s + 1) n := rfl

@[simp] theorem length_contents (n : ℕ) : (contents cells s n).length = n := by
  induction n generalizing s with
  | zero => rfl
  | succ n ih => rw [contents_succ, List.length_cons, ih]

/-- The top `k` cells, then those that a pull of them leaves. -/
theorem contents_add (k n : ℕ) :
    contents cells s (k + n) = contents cells s k ++ contents cells (s + BitVec.ofNat w k) n := by
  induction k generalizing s with
  | zero => simp
  | succ k ih =>
    have hs : s + 1 + BitVec.ofNat w k = s + BitVec.ofNat w (k + 1) := by
      rw [BitVec.ofNat_add, BitVec.add_comm (BitVec.ofNat w k), BitVec.add_assoc]
      rfl
    rw [Nat.add_right_comm, contents_succ, contents_succ, ih, hs, List.cons_append]

/-- The cells by their distance from the pointer. -/
theorem contents_eq_map (n : ℕ) :
    contents cells s n = (List.range n).map fun k => cells (s + BitVec.ofNat w (k + 1)) := by
  induction n with
  | zero => rfl
  | succ n ih =>
    rw [contents_add, ih, List.range_succ, List.map_append]
    congr 1
    rw [contents_succ, contents_zero, BitVec.add_assoc, List.map_singleton, BitVec.ofNat_add]
    rfl

end cells

section live

variable {s : BitVec w} {n : ℕ}

theorem live_top : Live s (n + 1) (s + 1) := by
  rw [Live, BitVec.add_comm, BitVec.add_sub_cancel, BitVec.sub_self]
  exact Nat.succ_pos n

/-- The cells that a pull leaves live were live before it. -/
theorem Live.of_pull {i : BitVec w} (h : Live (s + 1) n i) : Live s (n + 1) i := by
  have hstep : i - s - 1 = (i - (s + 1) - 1) + 1 := by
    rw [BitVec.sub_add_cancel, BitVec.sub_sub]
  have hadd : (i - s - 1).toNat ≤ (i - (s + 1) - 1).toNat + 1 := by
    rw [hstep, BitVec.toNat_add]
    have hone : (1 : BitVec w).toNat ≤ 1 := Nat.mod_le 1 _
    exact (Nat.mod_le _ _).trans (Nat.add_le_add_left hone _)
  exact Nat.lt_of_le_of_lt hadd (Nat.succ_lt_succ h)

/-- The free cell under the pointer is not live unless the ring is full. -/
theorem not_live_pointer (hn : n < 2 ^ w) : ¬ Live s n s := by
  have hpos : 0 < 2 ^ w := Nat.pow_pos (by decide)
  have hlast : (s - s - 1).toNat = 2 ^ w - 1 := by
    have hneg : -(1 : BitVec w) = BitVec.allOnes w := BitVec.neg_one_eq_allOnes
    rw [BitVec.sub_self, BitVec.zero_sub, hneg, BitVec.toNat_allOnes]
  rw [Live, hlast]
  omega

/-- Rings that agree on the live cells have the same contents. -/
theorem contents_congr {cells cells' : BitVec w → α} (h : ∀ i, Live s n i → cells i = cells' i) :
    contents cells s n = contents cells' s n := by
  induction n generalizing s with
  | zero => rfl
  | succ n ih =>
    rw [contents_succ, contents_succ, h _ live_top, ih fun i hi => h i hi.of_pull]

/-- **Push.** In a ring that is not full, a push puts one value on top and keeps the rest. -/
theorem contents_push (cells : BitVec w → α) (v : α) (hn : n < 2 ^ w) :
    contents (Function.update cells s v) (s - 1) (n + 1) = v :: contents cells s n := by
  have hrest : contents (Function.update cells s v) s n = contents cells s n := by
    refine contents_congr fun i hi => Function.update_of_ne ?_ _ _
    rintro rfl
    exact not_live_pointer hn hi
  rw [contents_succ, BitVec.sub_add_cancel, Function.update_self, hrest]

end live

end Effects.RingStack
