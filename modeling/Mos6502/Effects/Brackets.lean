import Mathlib.Data.Nat.Basic

/-!
# Bracketed words along a run

Each step of a run may open a bracket of some kind, close one, or do neither. The
positions of the brackets that are open form a stack, and the word read so far is well
bracketed when every bracket that was closed matched the innermost open one and none
is left. Facts about matching brackets follow from an invariant over the open positions.
-/

namespace Effects

/-- What a letter does to the brackets: it opens one of a kind, closes one, or neither. -/
inductive Bracket (κ : Type) : Type
  | opening (b : κ)
  | closing (b : κ)
  | neutral
  deriving DecidableEq, Repr

namespace Bracket

variable {κ : Type} [DecidableEq κ]

/-- The positions of the brackets that are open after the first `k` letters, the
innermost first, unless a letter closed a bracket that was not open. -/
def opened (word : ℕ → Bracket κ) : ℕ → Option (List ℕ)
  | 0 => some []
  | k + 1 =>
    (opened word k).bind fun ts =>
      match word k, ts with
      | neutral, ts => some ts
      | opening _, ts => some (k :: ts)
      | closing b, t :: ts => if word t = opening b then some ts else none
      | closing _, [] => none

/-- The first `n` letters form a well-bracketed word. -/
def WellBracketed (word : ℕ → Bracket κ) (n : ℕ) : Prop := opened word n = some []

instance (word : ℕ → Bracket κ) (n : ℕ) : Decidable (WellBracketed word n) :=
  inferInstanceAs (Decidable (_ = _))

/-- The letter at `k` closes the bracket that the letter at `t` opened. -/
def Matches (word : ℕ → Bracket κ) (t k : ℕ) : Prop :=
  ∃ b ts, opened word k = some (t :: ts) ∧ word t = opening b ∧ word k = closing b

variable {word : ℕ → Bracket κ} {n k : ℕ} {ts : List ℕ}

@[simp] theorem opened_zero : opened word 0 = some [] := rfl

theorem opened_of_neutral (hk : word k = neutral) (h : opened word k = some ts) :
    opened word (k + 1) = some ts := by
  simp [opened, h, hk]

theorem opened_of_opening {b : κ} (hk : word k = opening b) (h : opened word k = some ts) :
    opened word (k + 1) = some (k :: ts) := by
  simp [opened, h, hk]

/-- A closing letter that is accepted matches the innermost open bracket. -/
theorem opened_of_closing {b : κ} (hk : word k = closing b) (h : opened word (k + 1) = some ts) :
    ∃ t, opened word k = some (t :: ts) ∧ word t = opening b := by
  simp only [opened, hk] at h
  obtain ⟨us, hus, h⟩ := Option.bind_eq_some_iff.mp h
  cases us with
  | nil => simp at h
  | cons t us =>
    simp only [Option.ite_none_right_eq_some, Option.some.injEq] at h
    exact ⟨t, h.2 ▸ hus, h.1⟩

/-- An accepted word is accepted without its last letter. -/
theorem exists_opened_of_succ (h : opened word (k + 1) = some ts) :
    ∃ us, opened word k = some us := by
  obtain ⟨us, hus, _⟩ := Option.bind_eq_some_iff.mp h
  exact ⟨us, hus⟩

/-- The positions of the open brackets lie before the letters still to come. -/
theorem lt_of_mem_opened (h : opened word k = some ts) {t : ℕ} (ht : t ∈ ts) : t < k := by
  induction k generalizing ts with
  | zero =>
    cases h
    cases ht
  | succ k ih =>
    obtain ⟨us, hus⟩ := exists_opened_of_succ h
    cases hletter : word k with
    | neutral =>
      cases (opened_of_neutral hletter hus).symm.trans h
      exact Nat.lt_succ_of_lt (ih hus ht)
    | opening b =>
      cases (opened_of_opening hletter hus).symm.trans h
      rcases List.mem_cons.mp ht with rfl | hmem
      · exact Nat.lt_succ_self t
      · exact Nat.lt_succ_of_lt (ih hus hmem)
    | closing b =>
      obtain ⟨u, hu, _⟩ := opened_of_closing hletter h
      exact Nat.lt_succ_of_lt (ih hu (List.mem_cons_of_mem u ht))

/-- A prefix of an accepted word is accepted. -/
theorem exists_opened (h : opened word n = some ts) (hk : k ≤ n) :
    ∃ us, opened word k = some us := by
  induction n, hk using Nat.le_induction generalizing ts with
  | base => exact ⟨ts, h⟩
  | succ n _ ih =>
    obtain ⟨us, hus⟩ := exists_opened_of_succ h
    exact ih hus

/-- In a well-bracketed word every closing letter has a match. -/
theorem WellBracketed.exists_matches (h : WellBracketed word n) {b : κ} (hk : k < n)
    (hletter : word k = closing b) : ∃ t < k, Matches word t k := by
  obtain ⟨us, hus⟩ := exists_opened h hk
  obtain ⟨t, ht, hopen⟩ := opened_of_closing hletter hus
  exact ⟨t, lt_of_mem_opened ht List.mem_cons_self, b, us, ht, hopen, hletter⟩

/-- **Invariant rule.** A relation between positions and open brackets that every
letter keeps holds all along an accepted word. -/
theorem opened_invariant {P : ℕ → List ℕ → Prop} (hzero : P 0 [])
    (hneutral : ∀ k ts, k < n → word k = neutral → opened word k = some ts → P k ts → P (k + 1) ts)
    (hopening : ∀ k ts b, k < n → word k = opening b → opened word k = some ts → P k ts →
      P (k + 1) (k :: ts))
    (hclosing : ∀ k t ts b, k < n → word k = closing b → word t = opening b →
      opened word k = some (t :: ts) → P k (t :: ts) → P (k + 1) ts)
    (hk : k ≤ n) (h : opened word k = some ts) : P k ts := by
  induction k generalizing ts with
  | zero =>
    cases h
    exact hzero
  | succ k ih =>
    obtain ⟨us, hus⟩ := exists_opened_of_succ h
    cases hletter : word k with
    | neutral =>
      cases (opened_of_neutral hletter hus).symm.trans h
      exact hneutral k ts hk hletter hus (ih (by omega) hus)
    | opening b =>
      cases (opened_of_opening hletter hus).symm.trans h
      exact hopening k us b hk hletter hus (ih (by omega) hus)
    | closing b =>
      obtain ⟨t, ht, hopen⟩ := opened_of_closing hletter h
      exact hclosing k t ts b hk hletter hopen ht (ih (by omega) ht)

end Bracket

end Effects
