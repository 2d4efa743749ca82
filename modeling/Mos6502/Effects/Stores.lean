import Mathlib.Data.List.Induction
import Mathlib.Logic.Function.Basic

/-!
# Sequences of stores

A memory after a sequence of stores holds the last value stored at each place, and what
it held before where nothing was stored.
-/

namespace Effects

variable {κ ν : Type*} [DecidableEq κ]

/-- The memory after the stores, in order. -/
def storeAll (mem : κ → ν) (stores : List (κ × ν)) : κ → ν :=
  stores.foldl (fun mem s => Function.update mem s.1 s.2) mem

/-- The last value that the stores leave at a place. -/
def lastStore (stores : List (κ × ν)) (k : κ) : Option ν := stores.reverse.lookup k

@[simp] theorem storeAll_nil (mem : κ → ν) : storeAll mem [] = mem := rfl

@[simp] theorem storeAll_cons (mem : κ → ν) (s : κ × ν) (stores : List (κ × ν)) :
    storeAll mem (s :: stores) = storeAll (Function.update mem s.1 s.2) stores := rfl

theorem storeAll_append (mem : κ → ν) (stores stores' : List (κ × ν)) :
    storeAll mem (stores ++ stores') = storeAll (storeAll mem stores) stores' := List.foldl_append

@[simp] theorem lastStore_nil (k : κ) : lastStore ([] : List (κ × ν)) k = none := rfl

theorem lastStore_concat (stores : List (κ × ν)) (s : κ × ν) (k : κ) :
    lastStore (stores ++ [s]) k = if k = s.1 then some s.2 else lastStore stores k := by
  obtain ⟨j, v⟩ := s
  rw [lastStore, List.reverse_append, List.reverse_singleton, List.singleton_append,
    List.lookup_cons]
  by_cases h : k = j
  · rw [if_pos h, beq_iff_eq.mpr h]
  · rw [if_neg h, beq_false_of_ne h]
    rfl

/-- **The memory after a sequence of stores.** -/
theorem storeAll_apply (mem : κ → ν) (stores : List (κ × ν)) (k : κ) :
    storeAll mem stores k = (lastStore stores k).getD (mem k) := by
  induction stores using List.reverseRecOn with
  | nil => rfl
  | append_singleton stores s ih =>
    rw [storeAll_append, storeAll_cons, storeAll_nil, lastStore_concat, Function.update_apply, ih]
    split <;> rfl

theorem lastStore_eq_none {stores : List (κ × ν)} {k : κ} (h : ∀ s ∈ stores, s.1 ≠ k) :
    lastStore stores k = none := by
  rw [lastStore, List.lookup_eq_none_iff]
  exact fun s hs => bne_iff_ne.mpr (h s (List.mem_reverse.mp hs)).symm

theorem storeAll_of_notMem (mem : κ → ν) {stores : List (κ × ν)} {k : κ}
    (h : ∀ s ∈ stores, s.1 ≠ k) : storeAll mem stores k = mem k := by
  rw [storeAll_apply, lastStore_eq_none h]
  rfl

/-- Where something was stored, the memory before does not matter. -/
theorem storeAll_of_mem (mem mem' : κ → ν) {stores : List (κ × ν)} {k : κ}
    (h : ∃ s ∈ stores, s.1 = k) : storeAll mem stores k = storeAll mem' stores k := by
  induction stores generalizing mem mem' with
  | nil =>
    obtain ⟨_, hmem, _⟩ := h
    exact absurd hmem List.not_mem_nil
  | cons s stores ih =>
    rw [storeAll_cons, storeAll_cons]
    by_cases hlater : ∃ s ∈ stores, s.1 = k
    · exact ih _ _ hlater
    · have hs : s.1 = k := by
        obtain ⟨t, ht, rfl⟩ := h
        rcases List.mem_cons.mp ht with rfl | ht
        · rfl
        · exact absurd ⟨t, ht, rfl⟩ hlater
      have hnone : ∀ s ∈ stores, s.1 ≠ k := fun t ht heq => hlater ⟨t, ht, heq⟩
      rw [storeAll_of_notMem _ hnone, storeAll_of_notMem _ hnone, ← hs, Function.update_self,
        Function.update_self]

/-- Stores into one part of a memory. -/
theorem storeAll_map_injective {ι : Type*} [DecidableEq ι] {g : ι → κ} (hg : Function.Injective g)
    (mem : κ → ν) (stores : List (ι × ν)) (i : ι) :
    storeAll mem (stores.map fun s => (g s.1, s.2)) (g i) = storeAll (mem ∘ g) stores i := by
  induction stores generalizing mem with
  | nil => rfl
  | cons s stores ih =>
    rw [List.map_cons, storeAll_cons, storeAll_cons, ih,
      Function.update_comp_eq_of_injective mem hg]

/-- The store at position `i` is the last one at its place if no later one is. -/
theorem lastStore_eq_some {stores : List (κ × ν)} {k : κ} {i : ℕ} (hi : i < stores.length)
    (hkey : stores[i].1 = k) (hlast : ∀ j (hj : j < stores.length), i < j → stores[j].1 ≠ k) :
    lastStore stores k = some stores[i].2 := by
  induction stores using List.reverseRecOn with
  | nil => exact absurd hi (Nat.not_lt_zero i)
  | append_singleton stores s ih =>
    rw [lastStore_concat]
    rcases Nat.lt_or_ge i stores.length with hlt | hge
    · have hne : k ≠ s.1 := by
        have := hlast stores.length (by simp) hlt
        rw [List.getElem_concat_length rfl] at this
        exact this.symm
      rw [if_neg hne]
      simp only [List.getElem_append_left hlt] at hkey ⊢
      refine ih hlt hkey fun j hj hij => ?_
      have := hlast j (by simp; omega) hij
      rwa [List.getElem_append_left hj] at this
    · obtain rfl : i = stores.length := by
        rw [List.length_append, List.length_singleton] at hi
        omega
      rw [List.getElem_concat_length rfl] at hkey ⊢
      rw [if_pos hkey.symm]

end Effects
