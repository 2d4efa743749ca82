import Mos6502.AccessBounds
import Mos6502.Cycles
import Mos6502.Effects.Budget

/-!
# Running to a cycle budget

`run` measures the elapsed time by subtracting two values of a 64-bit counter that may
wrap in between. As every step takes between one and eleven cycles on any bus, the
loop is the abstract one that spends a budget of natural numbers (`run_eq`), so it
ends, overshoots by part of one step, and can be cut into slices.
-/

namespace Mos6502

open Effects

namespace Machine

variable {β : Type} [BusLike β] (V : Variant)

/-- The cycles that a step returns. -/
def stepCycles (m : Machine β NullHooks) : ℕ := (m.step V).1.toNat

variable (m : Machine β NullHooks)

theorem stepCycles_eq : m.stepCycles V = (m.stepAccesses V).length := by
  have hle := (length_stepAccesses V m).2
  rw [stepCycles, step_fst, BitVec.toNat_ofNat, Nat.mod_eq_of_lt (by omega)]

theorem stepCycles_pos : 0 < m.stepCycles V := by
  rw [stepCycles_eq]
  exact (length_stepAccesses V m).1

theorem stepCycles_le : m.stepCycles V ≤ 11 := by
  rw [stepCycles_eq]
  exact (length_stepAccesses V m).2

/-- The counter advances by the cycles spent, and wraps with them. -/
theorem iterate_cycles (k : ℕ) :
    ((stepMachine V)^[k] m).cpu.cycles =
      m.cpu.cycles + BitVec.ofNat 64 (spent (stepMachine V) (stepCycles V) k m) := by
  induction k with
  | zero => simp
  | succ k ih =>
    rw [Function.iterate_succ_apply', step_cycles, ih, spent_succ, stepCycles_eq, BitVec.ofNat_add,
      BitVec.add_assoc]

variable {V m} {budget : U64} {k fuel : ℕ}

/-- While nothing wraps, the test of the loop compares the cycles spent to the budget. -/
theorem elapsed_lt_iff (hwrap : spent (stepMachine V) (stepCycles V) k m < 2 ^ 64) :
    ((stepMachine V)^[k] m).cpu.cycles - m.cpu.cycles < budget ↔
      spent (stepMachine V) (stepCycles V) k m < budget.toNat := by
  rw [iterate_cycles, BitVec.add_comm, BitVec.add_sub_cancel, BitVec.lt_def, BitVec.toNat_ofNat,
    Nat.mod_eq_of_lt hwrap]

/-- From any point of a run to its budget, the loop makes the steps that are left. -/
theorem runLoop_eq {j : ℕ} (h : Reaches (stepMachine V) (stepCycles V) budget.toNat (j + k) m)
    (hwrap : spent (stepMachine V) (stepCycles V) (j + k) m < 2 ^ 64) :
    runLoop V m.cpu.cycles budget fuel ((stepMachine V)^[j] m) =
      if k ≤ fuel then some ((stepMachine V)^[j + k] m) else none := by
  have hj : spent (stepMachine V) (stepCycles V) j m < 2 ^ 64 :=
    Nat.lt_of_le_of_lt (spent_mono _ _ (Nat.le_add_right j k) m) hwrap
  induction k generalizing j fuel with
  | zero =>
    have hstop : ¬ ((stepMachine V)^[j] m).cpu.cycles - m.cpu.cycles < budget := by
      rw [elapsed_lt_iff hj]
      exact Nat.not_lt.mpr h.reached
    cases fuel <;> simp [runLoop, hstop]
  | succ k ih =>
    have hgo : ((stepMachine V)^[j] m).cpu.cycles - m.cpu.cycles < budget := by
      rw [elapsed_lt_iff hj]
      exact h.before j (by omega)
    have hindex : j + 1 + k = j + (k + 1) := by omega
    cases fuel with
    | zero => simp [runLoop, hgo]
    | succ fuel =>
      have hnext : runLoop V m.cpu.cycles budget fuel ((stepMachine V)^[j + 1] m) =
          if k ≤ fuel then some ((stepMachine V)^[j + 1 + k] m) else none :=
        ih (by rwa [hindex]) (by rwa [hindex])
          (Nat.lt_of_le_of_lt (spent_mono _ _ (by omega) m) hwrap)
      rw [Function.iterate_succ_apply', hindex] at hnext
      simp only [runLoop, hgo, if_true, Nat.add_le_add_iff_right]
      exact hnext

/-- **`run` spends its budget.** It makes exactly the steps that a budget of natural
numbers takes, and returns the cycles that they take. -/
theorem run_eq (h : Reaches (stepMachine V) (stepCycles V) budget.toNat k m)
    (hwrap : spent (stepMachine V) (stepCycles V) k m < 2 ^ 64) :
    m.run V budget fuel =
      if k ≤ fuel then
        some (BitVec.ofNat 64 (spent (stepMachine V) (stepCycles V) k m), (stepMachine V)^[k] m)
      else none := by
  have hloop : runLoop V m.cpu.cycles budget fuel ((stepMachine V)^[0] m) =
      if k ≤ fuel then some ((stepMachine V)^[0 + k] m) else none :=
    runLoop_eq (by rwa [Nat.zero_add]) (by rwa [Nat.zero_add])
  rw [Nat.zero_add, Function.iterate_zero_apply] at hloop
  rw [run, hloop]
  split
  · rw [Option.map_some, iterate_cycles, BitVec.add_comm, BitVec.add_sub_cancel]
  · rfl

/-- A budget is overshot by ten cycles at most. -/
theorem Reaches.spent_lt_budget
    (h : Reaches (stepMachine V) (stepCycles V) budget.toNat k m) :
    spent (stepMachine V) (stepCycles V) k m < budget.toNat + 11 :=
  h.spent_lt (stepCycles_le V) (by omega)

/-- With enough fuel, `run` has a result: that of some number of steps. -/
theorem exists_run_eq (V : Variant) (m : Machine β NullHooks) (budget : U64)
    (hbudget : budget.toNat + 11 ≤ 2 ^ 64) :
    ∃ k ≤ budget.toNat, Reaches (stepMachine V) (stepCycles V) budget.toNat k m ∧
      spent (stepMachine V) (stepCycles V) k m < 2 ^ 64 ∧
      ∀ fuel, m.run V budget fuel =
        if k ≤ fuel then
          some (BitVec.ofNat 64 (spent (stepMachine V) (stepCycles V) k m), (stepMachine V)^[k] m)
        else none := by
  obtain ⟨k, hk, h⟩ := exists_reaches (stepCycles_pos V) budget.toNat m
  have hwrap : spent (stepMachine V) (stepCycles V) k m < 2 ^ 64 :=
    Nat.lt_of_lt_of_le (Reaches.spent_lt_budget h) hbudget
  exact ⟨k, hk, h, hwrap, fun fuel => run_eq h hwrap⟩

/-- **Cycle budget.** On any bus and from any state, `run` ends once its budget is spent:
it makes some number `k` of steps, at most one for each cycle of the budget, and returns
the sum `r` of their results. No step is made for an empty budget, and otherwise the
budget is overshot by less than the last step takes, hence by at most ten cycles. -/
theorem run_budget (V : Variant) (m : Machine β NullHooks) (budget : U64)
    (hbudget : budget.toNat + 11 ≤ 2 ^ 64) :
    ∃ (k : ℕ) (r : U64), k ≤ budget.toNat ∧
      (∀ fuel, m.run V budget fuel =
        if k ≤ fuel then some (r, (stepMachine V)^[k] m) else none) ∧
      r.toNat = ∑ j ∈ Finset.range k, (((stepMachine V)^[j] m).step V).1.toNat ∧
      (budget = 0 → k = 0 ∧ r = 0) ∧
      (budget ≠ 0 → 0 < k ∧ budget ≤ r ∧
        r.toNat - budget.toNat < (((stepMachine V)^[k - 1] m).step V).1.toNat) ∧
      r.toNat ≤ budget.toNat + 10 := by
  obtain ⟨k, hk, h, hwrap, hrun⟩ := exists_run_eq V m budget hbudget
  let r := BitVec.ofNat 64 (spent (stepMachine V) (stepCycles V) k m)
  have hr : r.toNat = spent (stepMachine V) (stepCycles V) k m := by
    rw [BitVec.toNat_ofNat, Nat.mod_eq_of_lt hwrap]
  refine ⟨k, r, hk, hrun, hr, ?_, ?_, ?_⟩
  · rintro rfl
    have hzero : k = 0 := h.eq_zero_iff.mpr rfl
    subst hzero
    exact ⟨rfl, rfl⟩
  · intro hne
    have hpos : 0 < k := by
      rw [Nat.pos_iff_ne_zero, ne_eq, h.eq_zero_iff]
      exact fun hzero => hne (BitVec.eq_of_toNat_eq hzero)
    obtain ⟨j, rfl⟩ := Nat.exists_eq_add_of_lt hpos
    rw [Nat.zero_add] at h hr ⊢
    have hover := h.overshoot
    have hreached := h.reached
    refine ⟨Nat.succ_pos j, by rw [BitVec.le_def, hr]; exact hreached, ?_⟩
    change _ < stepCycles V ((stepMachine V)^[j] m)
    omega
  · have := Reaches.spent_lt_budget h
    omega

/-- A budget of two cycles for a read-modify-write of seven. -/
theorem run_budget_inc :
    ∃ (k : ℕ) (r : U64), k ≤ 2 ∧
      (∀ fuel, (fresh {} { memory := fun _ => 0xFE : FlatBus }).run Nmos6502 2 fuel =
        if k ≤ fuel then
          some (r, (stepMachine Nmos6502)^[k] (fresh {} { memory := fun _ => 0xFE : FlatBus }))
        else none) ∧ r.toNat ≤ 12 := by
  obtain ⟨k, r, hk, hrun, _, _, _, hle⟩ :=
    run_budget Nmos6502 (fresh {} { memory := fun _ => 0xFE : FlatBus }) 2 (by decide)
  exact ⟨k, r, hk, hrun, hle⟩

/-! ### Time slicing -/

/-- A host that runs slice after slice, and runs a slice for what the overshoot so far
leaves of it. The result is the overshoot of the last slice. -/
def runSlices (V : Variant) (fuel : ℕ) :
    List U64 → U64 × Machine β NullHooks → Option (U64 × Machine β NullHooks)
  | [], s => some s
  | slice :: slices, (excess, m) =>
    if excess < slice then
      match m.run V (slice - excess) fuel with
      | some (r, m') => runSlices V fuel slices (r - (slice - excess), m')
      | none => none
    else runSlices V fuel slices (excess - slice, m)

/-- What `k` steps have spent beyond the budget `b`. -/
def overshoot (V : Variant) (b k : ℕ) (m : Machine β NullHooks) : U64 :=
  BitVec.ofNat 64 (spent (stepMachine V) (stepCycles V) k m - b)

/-- After a run that spends `b`, one slice more makes it a run that spends `b + slice`. -/
private theorem runSlices_cons {b j : ℕ} {slice : U64} (slices : List U64)
    (hj : Reaches (stepMachine V) (stepCycles V) b j m)
    (hbudget : b + slice.toNat + 11 ≤ 2 ^ 64) (hfuel : slice.toNat ≤ fuel) :
    ∃ i, Reaches (stepMachine V) (stepCycles V) (b + slice.toNat) i m ∧
      runSlices V fuel (slice :: slices) (m.overshoot V b j, (stepMachine V)^[j] m) =
        runSlices V fuel slices (m.overshoot V (b + slice.toNat) i, (stepMachine V)^[i] m) := by
  have hspent := hj.spent_lt (stepCycles_le V) (by omega)
  have hreached := hj.reached
  have hover : (m.overshoot V b j).toNat = spent (stepMachine V) (stepCycles V) j m - b := by
    rw [overshoot, BitVec.toNat_ofNat, Nat.mod_eq_of_lt (by omega)]
  by_cases hslice : m.overshoot V b j < slice
  · have hleft : (slice - m.overshoot V b j).toNat =
        b + slice.toNat - spent (stepMachine V) (stepCycles V) j m := by
      rw [BitVec.toNat_sub_of_le (BitVec.le_of_lt hslice), hover]
      omega
    obtain ⟨d, hd, hreach, hwrap, hrun⟩ := exists_run_eq V ((stepMachine V)^[j] m)
      (slice - m.overshoot V b j) (by omega)
    have hle := hreach.reached
    have hlt : spent (stepMachine V) (stepCycles V) j m - b < slice.toNat := by
      rwa [BitVec.lt_def, hover] at hslice
    rw [hleft, hj.slice (Nat.le_add_right b _)] at hreach
    refine ⟨j + d, hreach, ?_⟩
    -- What the slice overshoots is what all steps have spent beyond the budget so far.
    have hcarry : BitVec.ofNat 64 (spent (stepMachine V) (stepCycles V) d
        ((stepMachine V)^[j] m)) - (slice - m.overshoot V b j) =
          m.overshoot V (b + slice.toNat) (j + d) := by
      apply BitVec.eq_of_toNat_eq
      rw [BitVec.toNat_sub_of_le (by rw [BitVec.le_def, BitVec.toNat_ofNat]; omega), hleft,
        overshoot, spent_add, BitVec.toNat_ofNat, BitVec.toNat_ofNat]
      omega
    simp only [runSlices, hslice, if_true, hrun, if_pos (show d ≤ fuel by omega), hcarry]
    rw [Nat.add_comm j d, Function.iterate_add_apply, Nat.add_comm d j]
  · rw [BitVec.lt_def, hover] at hslice
    refine ⟨j, hj.extend (Nat.le_add_right b _) (by omega), ?_⟩
    have hcarry : m.overshoot V b j - slice = m.overshoot V (b + slice.toNat) j := by
      apply BitVec.eq_of_toNat_eq
      rw [BitVec.toNat_sub_of_le (by rw [BitVec.le_def, hover]; omega), hover, overshoot,
        BitVec.toNat_ofNat]
      omega
    have hlt : ¬ m.overshoot V b j < slice := by
      rwa [BitVec.lt_def, hover]
    simp only [runSlices, hlt, if_false, hcarry]

/-- After a run that spends `b`, slices that add up to `n` make it a run that spends `b + n`. -/
private theorem runSlices_eq {b j n k : ℕ} {slices : List U64}
    (hn : (slices.map BitVec.toNat).sum = n) (hbudget : b + n + 11 ≤ 2 ^ 64) (hfuel : n ≤ fuel)
    (hj : Reaches (stepMachine V) (stepCycles V) b j m)
    (hk : Reaches (stepMachine V) (stepCycles V) (b + n) k m) :
    runSlices V fuel slices (m.overshoot V b j, (stepMachine V)^[j] m) =
      some (m.overshoot V (b + n) k, (stepMachine V)^[k] m) := by
  induction slices generalizing b j n with
  | nil =>
    obtain rfl : 0 = n := hn
    obtain rfl : j = k := hj.unique hk
    rfl
  | cons slice slices ih =>
    rw [List.map_cons, List.sum_cons] at hn
    obtain ⟨i, hi, hslice⟩ := runSlices_cons slices hj (by omega)
      (show slice.toNat ≤ fuel by omega)
    rw [← hn, ← Nat.add_assoc] at hk hbudget ⊢
    rw [hslice]
    exact ih rfl hbudget (by omega) hi hk

/-- **Time slicing.** On any bus and from any state, running for `a` cycles and then for
what is left of `b` gives the machine and the cycle count of one run for `b`. So does
any way of cutting a budget into slices, with each overshoot charged to the next. -/
theorem time_slicing (V : Variant) (m : Machine β NullHooks) :
    (∀ a b : U64, a ≤ b → b.toNat + 11 ≤ 2 ^ 64 → ∀ fuel, b.toNat ≤ fuel →
      ∃ r mₐ total m', m.run V a fuel = some (r, mₐ) ∧ m.run V b fuel = some (total, m') ∧
        if r < b then mₐ.run V (b - r) fuel = some (total - r, m')
        else mₐ = m' ∧ r = total) ∧
    (∀ slices : List U64, (slices.map BitVec.toNat).sum + 11 ≤ 2 ^ 64 →
      ∀ fuel, (slices.map BitVec.toNat).sum ≤ fuel →
        ∃ total m', m.run V (BitVec.ofNat 64 (slices.map BitVec.toNat).sum) fuel =
            some (total, m') ∧
          runSlices V fuel slices (0, m) =
            some (total - BitVec.ofNat 64 (slices.map BitVec.toNat).sum, m')) := by
  constructor
  · intro a b hab hbudget fuel hfuel
    rw [BitVec.le_def] at hab
    obtain ⟨j, hj, hreachₐ, hwrapₐ, hrunₐ⟩ := exists_run_eq V m a (by omega)
    obtain ⟨k, hk, hreach, hwrap, hrun⟩ := exists_run_eq V m b hbudget
    refine ⟨_, _, _, _, by rw [hrunₐ, if_pos (by omega)], by rw [hrun, if_pos (by omega)], ?_⟩
    generalize hr : spent (stepMachine V) (stepCycles V) j m = r at *
    have hr64 : (BitVec.ofNat 64 r).toNat = r := by
      rw [BitVec.toNat_ofNat, Nat.mod_eq_of_lt hwrapₐ]
    split
    · next hlt =>
      have hle : BitVec.ofNat 64 r ≤ b := BitVec.le_of_lt hlt
      have hleft : (b - BitVec.ofNat 64 r).toNat = b.toNat - r := by
        rw [BitVec.toNat_sub_of_le hle, hr64]
      rw [BitVec.lt_def, hr64] at hlt
      obtain ⟨d, hd, hrest, hwrapᵣ, hrunᵣ⟩ :=
        exists_run_eq V ((stepMachine V)^[j] m) (b - BitVec.ofNat 64 r) (by omega)
      rw [hleft, ← hr, hreachₐ.slice hab] at hrest
      obtain rfl : k = j + d := hreach.unique hrest
      rw [hrunᵣ, if_pos (by omega), Nat.add_comm j d, Function.iterate_add_apply,
        Nat.add_comm d j, spent_add, hr, BitVec.ofNat_add, BitVec.add_comm, BitVec.add_sub_cancel]
    · next hge =>
      rw [BitVec.lt_def, hr64] at hge
      obtain rfl : j = k := (hreachₐ.extend hab (by omega)).unique hreach
      rw [hr]
      exact ⟨rfl, rfl⟩
  · intro slices hbudget fuel hfuel
    generalize hn : (slices.map BitVec.toNat).sum = n at *
    have hn64 : (BitVec.ofNat 64 n).toNat = n := by
      rw [BitVec.toNat_ofNat, Nat.mod_eq_of_lt (by omega)]
    obtain ⟨k, hk, hreach, hwrap, hrun⟩ := exists_run_eq V m (BitVec.ofNat 64 n) (by omega)
    rw [hn64] at hk hreach
    refine ⟨_, _, by rw [hrun, if_pos (by omega)], ?_⟩
    have hzero : Reaches (stepMachine V) (stepCycles V) 0 0 m := ⟨Nat.zero_le _, nofun⟩
    have hslices := runSlices_eq hn (by omega) hfuel hzero (by rwa [Nat.zero_add])
    rw [BitVec.ofNat_sub_ofNat_of_le _ _ (by omega) hreach.reached]
    rw [Nat.zero_add] at hslices
    exact hslices

/-- A read-modify-write of seven cycles overshoots a budget of three, and of three slices
the first and all of the second. -/
theorem time_slicing_inc :
    let m := fresh {} { memory := fun _ => 0xFE : FlatBus }
    (∃ r mₐ total m', m.run Nmos6502 3 20 = some (r, mₐ) ∧
      m.run Nmos6502 12 20 = some (total, m') ∧
        if r < 12 then mₐ.run Nmos6502 (12 - r) 20 = some (total - r, m')
        else mₐ = m' ∧ r = total) ∧
    (∃ total m', m.run Nmos6502 12 20 = some (total, m') ∧
      runSlices Nmos6502 20 [3, 2, 7] (0, m) = some (total - 12, m')) := by
  have h := time_slicing Nmos6502 (fresh {} { memory := fun _ => 0xFE : FlatBus })
  exact ⟨h.1 3 12 (by decide) (by decide) 20 (by decide),
    h.2 [3, 2, 7] (by decide) 20 (by decide)⟩

end Machine

end Mos6502
