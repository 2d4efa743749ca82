import Mos6502.Numerals.CarryChain

/-!
# Shifting digit by digit

A sweep visits the digits of one number in turn, and a carry goes from each digit to the
next. Upwards from the least significant digit it multiplies the number, and downwards from
the most significant one it divides it: what a step does to a digit and the carries around
it, the sweep does to the number.
-/

namespace Numerals

variable {σ δ ε : Type*}

/-- One step for each digit, in order: the digits that the steps give, and the last state. -/
def sweep (step : δ → σ → ε × σ) : List δ → σ → List ε × σ
  | [], s => ([], s)
  | d :: digits, s =>
    let (e, s) := step d s
    let (rest, last) := sweep step digits s
    (e :: rest, last)

section sweep

variable (step : δ → σ → ε × σ)

theorem sweep_cons (d : δ) (digits : List δ) (s : σ) :
    sweep step (d :: digits) s =
      ((step d s).1 :: (sweep step digits (step d s).2).1, (sweep step digits (step d s).2).2) :=
  rfl

@[simp] theorem length_sweep (digits : List δ) (s : σ) :
    (sweep step digits s).1.length = digits.length := by
  induction digits generalizing s with
  | nil => rfl
  | cons d digits ih => rw [sweep_cons, List.length_cons, List.length_cons, ih]

variable (value : δ → ℕ) (value' : ε → ℕ) (carry : σ → ℕ) {b m : ℕ}

/-- **Upwards.** A step that multiplies a digit makes a sweep from the least significant digit
that multiplies the number. -/
theorem sweep_up (digits : List δ)
    (hstep : ∀ d ∈ digits, ∀ s,
      value' (step d s).1 + b * carry (step d s).2 = m * value d + carry s) (s : σ) :
    number value' b (sweep step digits s).1 + b ^ digits.length * carry (sweep step digits s).2 =
      m * number value b digits + carry s := by
  induction digits generalizing s with
  | nil => simp [sweep]
  | cons d digits ih =>
    have hd := hstep d List.mem_cons_self s
    have hrest := ih (fun d hd => hstep d (List.mem_cons_of_mem _ hd)) (step d s).2
    rw [sweep_cons]
    simp only [number_cons, List.length_cons, pow_succ]
    calc value' (step d s).1 + b * number value' b (sweep step digits (step d s).2).1 +
          b ^ digits.length * b * carry (sweep step digits (step d s).2).2
      _ = value' (step d s).1 + b * (number value' b (sweep step digits (step d s).2).1 +
            b ^ digits.length * carry (sweep step digits (step d s).2).2) := by ring
      _ = value' (step d s).1 + b * carry (step d s).2 + b * (m * number value b digits) := by
        rw [hrest]
        ring
      _ = m * (value d + b * number value b digits) + carry s := by
        rw [hd]
        ring

/-- **Downwards.** A step that divides a digit makes a sweep from the most significant digit
that divides the number. -/
theorem sweep_down (digits : List δ)
    (hstep : ∀ d ∈ digits, ∀ s,
      m * value' (step d s).1 + carry (step d s).2 = value d + b * carry s) (s : σ) :
    m * number value' b (sweep step digits s).1.reverse + carry (sweep step digits s).2 =
      number value b digits.reverse + b ^ digits.length * carry s := by
  induction digits generalizing s with
  | nil => simp [sweep]
  | cons d digits ih =>
    have hd := hstep d List.mem_cons_self s
    have hrest := ih (fun d hd => hstep d (List.mem_cons_of_mem _ hd)) (step d s).2
    rw [sweep_cons]
    simp only [List.reverse_cons, number_concat, List.length_reverse, length_sweep,
      List.length_cons, pow_succ]
    calc m * (number value' b (sweep step digits (step d s).2).1.reverse +
            b ^ digits.length * value' (step d s).1) +
          carry (sweep step digits (step d s).2).2
      _ = m * number value' b (sweep step digits (step d s).2).1.reverse +
            carry (sweep step digits (step d s).2).2 +
            b ^ digits.length * (m * value' (step d s).1) := by ring
      _ = number value b digits.reverse +
            b ^ digits.length * (m * value' (step d s).1 + carry (step d s).2) := by
        rw [hrest]
        ring
      _ = number value b digits.reverse + b ^ digits.length * value d +
            b ^ digits.length * b * carry s := by
        rw [hd]
        ring

end sweep

/-- The number determines its digits. -/
theorem number_injective {value : δ → ℕ} {b : ℕ} (hvalue : Function.Injective value)
    (hb : 1 < b) (hlt : ∀ d, value d < b) {digits digits' : List δ}
    (hlength : digits.length = digits'.length)
    (h : number value b digits = number value b digits') : digits = digits' := by
  have hmem (ds : List δ) : ∀ x ∈ ds.map value, x < b := by
    intro x hx
    obtain ⟨d, -, rfl⟩ := List.mem_map.mp hx
    exact hlt d
  refine List.map_injective_iff.mpr hvalue ?_
  exact Nat.ofDigits_inj_of_len_eq hb (by simpa using hlength) (hmem _) (hmem _) h

end Numerals
