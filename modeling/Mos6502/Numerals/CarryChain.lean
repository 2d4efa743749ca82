import Mathlib.Data.Nat.Digits.Defs
import Mathlib.Tactic.Linarith
import Mathlib.Tactic.Positivity
import Mathlib.Tactic.Ring

/-!
# Arithmetic digit by digit

Numbers as lists of digits, the least significant digit first. A chain takes one digit
of each of two numbers at a time and leaves a digit of the result in its state, which
also holds the carry. What a step does to the digits, the chain does to the numbers:
`ε = 1` is an addition with carry, and `ε = -1` is a subtraction with borrow.
-/

namespace Numerals

variable {σ δ : Type*}

/-! ### Numbers -/

section number

variable (value : δ → ℕ) (b : ℕ)

/-- The number that a list of digits stands for in base `b`. -/
def number (digits : List δ) : ℕ := Nat.ofDigits b (digits.map value)

/-- The same list of digits in complement notation. -/
def signedNumber (digits : List δ) : ℤ :=
  Int.bmod (number value b digits) (b ^ digits.length)

@[simp] theorem number_nil : number value b [] = 0 := rfl

theorem number_cons (d : δ) (digits : List δ) :
    number value b (d :: digits) = value d + b * number value b digits := by
  simp [number, Nat.ofDigits_cons]

theorem number_concat (digits : List δ) (d : δ) :
    number value b (digits ++ [d]) = number value b digits + b ^ digits.length * value d := by
  simp [number, Nat.ofDigits_append]

variable {value b}

theorem number_lt {digits : List δ} (hb : 1 < b) (hdigits : ∀ d ∈ digits, value d < b) :
    number value b digits < b ^ digits.length := by
  rw [← List.length_map value]
  refine Nat.ofDigits_lt_base_pow_length hb fun x hx => ?_
  obtain ⟨d, hd, rfl⟩ := List.mem_map.mp hx
  exact hdigits d hd

end number

/-! ### Complement notation -/

section complement

/-- A multiple of `B` with a remainder stays below a multiple of `B` exactly when it does
without the remainder. -/
theorem add_mul_lt_iff {l B t h : ℤ} (hl : 0 ≤ l) (hB : l < B) : l + B * t < B * h ↔ t < h := by
  constructor
  · intro hlt
    by_contra hge
    have := mul_le_mul_of_nonneg_left (not_lt.mp hge) (hl.trans hB.le)
    omega
  · intro hlt
    have := mul_le_mul_of_nonneg_left (Int.add_one_le_of_lt hlt) (hl.trans hB.le)
    rw [mul_add, mul_one] at this
    omega

theorem le_add_mul_iff {l B t h : ℤ} (hl : 0 ≤ l) (hB : l < B) : B * h ≤ l + B * t ↔ h ≤ t := by
  rw [← not_lt, add_mul_lt_iff hl hB, not_lt]

theorem bmod_of_lt {x m : ℕ} (hx : x < 2 * m) :
    Int.bmod x (2 * m) = if x < m then (x : ℤ) else x - 2 * m := by
  rw [Int.bmod_def, Int.emod_eq_of_lt (by omega) (by omega)]
  split_ifs <;> omega

variable {value : δ → ℕ} {h : ℕ} {digits : List δ} {d : δ}

/-- The sign of a number is that of its last digit. -/
theorem signedNumber_concat (hdigits : ∀ x ∈ digits, value x < 2 * h) (hd : value d < 2 * h) :
    signedNumber value (2 * h) (digits ++ [d]) =
      number value (2 * h) digits +
        ((2 * h : ℕ) : ℤ) ^ digits.length * Int.bmod (value d) (2 * h) := by
  have hlow : number value (2 * h) digits < (2 * h) ^ digits.length := number_lt (by omega) hdigits
  have hpow : (2 * h) ^ (digits ++ [d]).length = 2 * ((2 * h) ^ digits.length * h) := by
    rw [List.length_append, List.length_singleton, pow_succ]
    ring
  rw [signedNumber, hpow, number_concat, ← Nat.cast_pow]
  generalize (2 * h) ^ digits.length = B at *
  generalize number value (2 * h) digits = l at *
  have hhalf : l + B * value d < B * h ↔ value d < h := by
    have := add_mul_lt_iff (t := value d) (h := h) (Int.natCast_nonneg l) (Int.ofNat_lt.mpr hlow)
    exact_mod_cast this
  have hfull : l + B * value d < 2 * (B * h) := by
    have := add_mul_lt_iff (t := value d) (h := 2 * h) (Int.natCast_nonneg l)
      (Int.ofNat_lt.mpr hlow)
    rw [Nat.mul_left_comm]
    exact_mod_cast this.mpr (by omega)
  rw [bmod_of_lt hfull, bmod_of_lt hd, if_congr hhalf rfl rfl]
  push_cast
  split_ifs <;> ring

end complement

/-! ### Chains -/

section chain

/-- One step for each pair of digits, and the digits that the steps leave. -/
def chain (step : σ → δ → δ → σ) (digit : σ → δ) : List (δ × δ) → σ → List δ × σ
  | [], s => ([], s)
  | (x, y) :: pairs, s =>
    let s := step s x y
    let (digits, last) := chain step digit pairs s
    (digit s :: digits, last)

variable (step : σ → δ → δ → σ) (digit : σ → δ)

@[simp] theorem chain_nil (s : σ) : chain step digit [] s = ([], s) := rfl

theorem chain_cons (x y : δ) (pairs : List (δ × δ)) (s : σ) :
    chain step digit ((x, y) :: pairs) s =
      (digit (step s x y) :: (chain step digit pairs (step s x y)).1,
        (chain step digit pairs (step s x y)).2) := rfl

@[simp] theorem length_chain (pairs : List (δ × δ)) (s : σ) :
    (chain step digit pairs s).1.length = pairs.length := by
  induction pairs generalizing s with
  | nil => rfl
  | cons p pairs ih => rw [chain_cons, List.length_cons, List.length_cons, ih]

/-- The last pair of digits meets the state that the others leave. -/
theorem chain_concat (pairs : List (δ × δ)) (x y : δ) (s : σ) :
    chain step digit (pairs ++ [(x, y)]) s =
      ((chain step digit pairs s).1 ++ [digit (step (chain step digit pairs s).2 x y)],
        step (chain step digit pairs s).2 x y) := by
  induction pairs generalizing s with
  | nil => rfl
  | cons p pairs ih => rw [List.cons_append, chain_cons, ih, chain_cons, List.cons_append]

/-- What a step does: in a state that keeps the invariant it takes two valid digits to a
valid digit, and what this one is too large or too small is in the carry. -/
structure DigitStep (ε : ℤ) (value : δ → ℕ) (b : ℕ) (Inv : σ → Prop) (Valid : δ → Prop)
    (carry : σ → ℕ) : Prop where
  inv : ∀ {s x y}, Inv s → Valid x → Valid y → Inv (step s x y)
  valid : ∀ {s x y}, Inv s → Valid x → Valid y → Valid (digit (step s x y))
  balance : ∀ {s x y}, Inv s → Valid x → Valid y →
    (value (digit (step s x y)) : ℤ) + ε * (b * carry (step s x y)) =
      value x + ε * (value y + carry s)

variable {step digit} {ε : ℤ} {value : δ → ℕ} {b : ℕ} {Inv : σ → Prop} {Valid : δ → Prop}
  {carry : σ → ℕ} {pairs : List (δ × δ)} {s : σ}

/-- Two chains whose steps keep a relation end in related states. -/
theorem chain_related {τ : Type*} {step' : τ → δ → δ → τ} {digit' : τ → δ} {R : σ → τ → Prop}
    (hstep : ∀ s t x y, R s t → R (step s x y) (step' t x y)) (pairs : List (δ × δ)) {s : σ} {t : τ}
    (h : R s t) : R (chain step digit pairs s).2 (chain step' digit' pairs t).2 := by
  induction pairs generalizing s t with
  | nil => exact h
  | cons p pairs ih => exact ih (hstep s t p.1 p.2 h)

/-- The digits of a chain are valid, its last state keeps the invariant, and the numbers
balance as the digits of a step do. -/
theorem DigitStep.of_chain (h : DigitStep step digit ε value b Inv Valid carry) (hs : Inv s)
    (hpairs : ∀ p ∈ pairs, Valid p.1 ∧ Valid p.2) :
    Inv (chain step digit pairs s).2 ∧ (∀ z ∈ (chain step digit pairs s).1, Valid z) ∧
      (number value b (chain step digit pairs s).1 : ℤ) +
          ε * (b ^ pairs.length * carry (chain step digit pairs s).2) =
        number value b (pairs.map Prod.fst) +
          ε * (number value b (pairs.map Prod.snd) + carry s) := by
  induction pairs generalizing s with
  | nil => exact ⟨hs, nofun, by simp⟩
  | cons p pairs ih =>
    obtain ⟨x, y⟩ := p
    obtain ⟨hx, hy⟩ := hpairs (x, y) List.mem_cons_self
    obtain ⟨hinv, hvalid, hrest⟩ := ih (h.inv hs hx hy) fun p hp =>
      hpairs p (List.mem_cons_of_mem _ hp)
    have hstep := h.balance hs hx hy
    rw [chain_cons]
    refine ⟨hinv, ?_, ?_⟩
    · rw [List.forall_mem_cons]
      exact ⟨h.valid hs hx hy, hvalid⟩
    · simp only [number_cons, List.map_cons, List.length_cons, Nat.cast_add, Nat.cast_mul, pow_succ]
      calc (value (digit (step s x y)) : ℤ) + b * number value b (chain step digit pairs
              (step s x y)).1 + ε * (b ^ pairs.length * b *
                carry (chain step digit pairs (step s x y)).2)
        _ = value (digit (step s x y)) + b * (number value b (pairs.map Prod.fst) +
              ε * (number value b (pairs.map Prod.snd) + carry (step s x y))) := by
          rw [← hrest]
          ring
        _ = value (digit (step s x y)) + ε * (b * carry (step s x y)) +
              b * number value b (pairs.map Prod.fst) +
              ε * (b * number value b (pairs.map Prod.snd)) := by
          ring
        _ = _ := by
          rw [hstep]
          ring

/-- **The result of a chain** is the sum or the difference modulo the power of the base,
and its carry is the quotient. -/
theorem DigitStep.ediv_emod (h : DigitStep step digit ε value b Inv Valid carry) (hb : 1 < b)
    (hvalue : ∀ {d}, Valid d → value d < b) (hs : Inv s)
    (hpairs : ∀ p ∈ pairs, Valid p.1 ∧ Valid p.2) :
    (number value b (pairs.map Prod.fst) +
        ε * (number value b (pairs.map Prod.snd) + carry s)) / (b : ℤ) ^ pairs.length =
      ε * carry (chain step digit pairs s).2 ∧
    (number value b (pairs.map Prod.fst) +
        ε * (number value b (pairs.map Prod.snd) + carry s)) % (b : ℤ) ^ pairs.length =
      number value b (chain step digit pairs s).1 := by
  obtain ⟨_, hvalid, hbalance⟩ := h.of_chain hs hpairs
  have hlt := number_lt hb fun d hd => hvalue (hvalid d hd)
  rw [length_chain] at hlt
  have hpos : 0 < (b : ℤ) ^ pairs.length := by positivity
  rw [← hbalance, Int.ediv_emod_unique hpos]
  refine ⟨by ring, Int.natCast_nonneg _, ?_⟩
  exact_mod_cast hlt

/-- **Addition.** -/
theorem DigitStep.sum (h : DigitStep step digit 1 value b Inv Valid carry) (hb : 1 < b)
    (hvalue : ∀ {d}, Valid d → value d < b) (hs : Inv s)
    (hpairs : ∀ p ∈ pairs, Valid p.1 ∧ Valid p.2) :
    number value b (chain step digit pairs s).1 =
      (number value b (pairs.map Prod.fst) + number value b (pairs.map Prod.snd) + carry s) %
        b ^ pairs.length ∧
    carry (chain step digit pairs s).2 =
      (number value b (pairs.map Prod.fst) + number value b (pairs.map Prod.snd) + carry s) /
        b ^ pairs.length := by
  obtain ⟨hdiv, hmod⟩ := h.ediv_emod hb hvalue hs hpairs
  rw [one_mul, ← add_assoc] at hdiv hmod
  rw [one_mul] at hdiv
  exact ⟨by exact_mod_cast hmod.symm, by exact_mod_cast hdiv.symm⟩

/-- **Subtraction.** Nothing is borrowed exactly when the difference is not negative. -/
theorem DigitStep.difference (h : DigitStep step digit (-1) value b Inv Valid carry) (hb : 1 < b)
    (hvalue : ∀ {d}, Valid d → value d < b) (hs : Inv s)
    (hpairs : ∀ p ∈ pairs, Valid p.1 ∧ Valid p.2) :
    (number value b (chain step digit pairs s).1 : ℤ) =
      (number value b (pairs.map Prod.fst) - number value b (pairs.map Prod.snd) - carry s) %
        (b : ℤ) ^ pairs.length ∧
    (carry (chain step digit pairs s).2 = 0 ↔
      number value b (pairs.map Prod.snd) + carry s ≤ number value b (pairs.map Prod.fst)) := by
  obtain ⟨hdiv, hmod⟩ := h.ediv_emod hb hvalue hs hpairs
  rw [neg_one_mul, ← sub_eq_add_neg, ← sub_sub] at hdiv hmod
  rw [neg_one_mul] at hdiv
  have hpos : 0 < (b : ℤ) ^ pairs.length := by positivity
  have hsign := Int.ediv_nonneg_iff_of_pos (a := number value b (pairs.map Prod.fst) -
    number value b (pairs.map Prod.snd) - carry s) hpos
  rw [hdiv] at hsign
  exact ⟨hmod.symm, by omega⟩

/-- The last pair of digits carries the sign of a sum or a difference. -/
theorem DigitStep.signed_total {H : ℕ} (h : DigitStep step digit ε value (2 * H) Inv Valid carry)
    (hvalue : ∀ {d}, Valid d → value d < 2 * H) (hs : Inv s)
    (hpairs : ∀ p ∈ pairs, Valid p.1 ∧ Valid p.2) {x y : δ} (hx : Valid x) (hy : Valid y) :
    ∃ low : ℤ, 0 ≤ low ∧ low < ((2 * H : ℕ) : ℤ) ^ pairs.length ∧
      signedNumber value (2 * H) (pairs.map Prod.fst ++ [x]) +
          ε * (signedNumber value (2 * H) (pairs.map Prod.snd ++ [y]) + carry s) =
        low + ((2 * H : ℕ) : ℤ) ^ pairs.length *
          (Int.bmod (value x) (2 * H) +
            ε * (Int.bmod (value y) (2 * H) + carry (chain step digit pairs s).2)) := by
  obtain ⟨_, hvalid, hbalance⟩ := h.of_chain hs hpairs
  have hbase : 1 < 2 * H := by
    have := hvalue hx
    omega
  have hlt := number_lt hbase fun d hd => hvalue (hvalid d hd)
  rw [length_chain] at hlt
  have hfst : ∀ d ∈ pairs.map Prod.fst, value d < 2 * H := by
    simpa using fun d e hp => hvalue (hpairs (d, e) hp).1
  have hsnd : ∀ d ∈ pairs.map Prod.snd, value d < 2 * H := by
    simpa using fun d e hp => hvalue (hpairs (e, d) hp).2
  refine ⟨number value (2 * H) (chain step digit pairs s).1, Int.natCast_nonneg _, ?_, ?_⟩
  · exact_mod_cast hlt
  · rw [signedNumber_concat hfst (hvalue hx), signedNumber_concat hsnd (hvalue hy),
      List.length_map, List.length_map, eq_sub_of_add_eq hbalance]
    ring

/-- **The range of a chain.** In complement notation a sum or a difference leaves the
range of its length exactly when that of the last digits leaves the range of a digit. -/
theorem DigitStep.mem_range_iff {H : ℕ} (h : DigitStep step digit ε value (2 * H) Inv Valid carry)
    (hvalue : ∀ {d}, Valid d → value d < 2 * H) (hs : Inv s)
    (hpairs : ∀ p ∈ pairs, Valid p.1 ∧ Valid p.2) {x y : δ} (hx : Valid x) (hy : Valid y) :
    let total := signedNumber value (2 * H) (pairs.map Prod.fst ++ [x]) +
      ε * (signedNumber value (2 * H) (pairs.map Prod.snd ++ [y]) + carry s)
    let last := Int.bmod (value x) (2 * H) +
      ε * (Int.bmod (value y) (2 * H) + carry (chain step digit pairs s).2)
    let weight := ((2 * H : ℕ) : ℤ) ^ pairs.length
    (-(weight * H) ≤ total ∧ total < weight * H) ↔ -(H : ℤ) ≤ last ∧ last < H := by
  intro total last weight
  obtain ⟨low, hlow, hlt, htotal⟩ := h.signed_total hvalue hs hpairs hx hy
  have htotal' : total = low + weight * last := htotal
  rw [htotal', ← mul_neg, le_add_mul_iff hlow hlt, add_mul_lt_iff hlow hlt]

/-- **The sign of a chain.** -/
theorem DigitStep.total_neg_iff {H : ℕ} (h : DigitStep step digit ε value (2 * H) Inv Valid carry)
    (hvalue : ∀ {d}, Valid d → value d < 2 * H) (hs : Inv s)
    (hpairs : ∀ p ∈ pairs, Valid p.1 ∧ Valid p.2) {x y : δ} (hx : Valid x) (hy : Valid y) :
    signedNumber value (2 * H) (pairs.map Prod.fst ++ [x]) +
        ε * (signedNumber value (2 * H) (pairs.map Prod.snd ++ [y]) + carry s) < 0 ↔
      Int.bmod (value x) (2 * H) +
        ε * (Int.bmod (value y) (2 * H) + carry (chain step digit pairs s).2) < 0 := by
  obtain ⟨low, hlow, hlt, htotal⟩ := h.signed_total hvalue hs hpairs hx hy
  have hsign := add_mul_lt_iff (h := 0) (t := Int.bmod (value x) (2 * H) +
    ε * (Int.bmod (value y) (2 * H) + carry (chain step digit pairs s).2)) hlow hlt
  rwa [mul_zero, ← htotal] at hsign

end chain

end Numerals
