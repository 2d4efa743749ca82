import Mos6502.Parsing.Rendering

/-!
# Texts that a scanner accepts

The converse of reading: a scanner returns a value only where a text of the language of that
value begins. The rules follow those for the texts that are read, so that together they give
the exact language of a scanner.
-/

namespace Parsing.Scanner

variable {χ ε α γ : Type}

/-- The scanner returns a value only where a text of its language begins, and leaves what comes
after the text. -/
def Only (p : Scanner χ ε α) (l : α → Language χ) : Prop :=
  ∀ ⦃size text a rest⦄, p size text = .ok (a, rest) → ∃ front ∈ l a, text = front ++ rest

section rules

variable {p : Scanner χ ε α} {l : α → Language χ}

theorem Only.throws (h : ∀ size text, ∃ e, p size text = .error e) :
    Only p l := by
  intro size text a rest hok
  obtain ⟨e, he⟩ := h size text
  rw [he] at hok
  cases hok

theorem Only.pure {a : α} (h : [] ∈ l a) : Only (pure a : Scanner χ ε α) l := by
  intro size text a' rest hok
  cases hok
  exact ⟨[], h, rfl⟩

/-- **Sequences.** -/
theorem Only.bind {f : α → Scanner χ ε γ} {m : α → γ → Language χ} {n : γ → Language χ}
    (hp : Only p l) (hf : ∀ a, Only (f a) (m a)) (h : ∀ a c, ∀ text ∈ l a * m a c, text ∈ n c) :
    Only (p >>= f) n := by
  intro size text c rest hok
  obtain ⟨a, mid, ha, hc⟩ := bind_eq_ok hok
  obtain ⟨front, hfront, rfl⟩ := hp ha
  obtain ⟨back, hback, rfl⟩ := hf a hc
  exact ⟨front ++ back, h a c _ (Language.append_mem_mul hfront hback),
    (List.append_assoc ..).symm⟩

theorem Only.map {f : α → γ} {n : γ → Language χ} (hp : Only p l)
    (h : ∀ a, ∀ text ∈ l a, text ∈ n (f a)) : Only (f <$> p) n := by
  intro size text c rest hok
  rw [map_eq_pure_bind] at hok
  obtain ⟨a, mid, ha, hc⟩ := bind_eq_ok hok
  cases hc
  obtain ⟨front, hfront, htext⟩ := hp ha
  exact ⟨front, h a front hfront, htext⟩

end rules

/-- **Lists.** A loop that goes on at a separator, and reads a last text when it stops. -/
theorem Only.sepBy {item : Scanner χ ε α} {more : Scanner χ ε Bool} {l : α → Language χ}
    {sep last : Language χ} (exhausted : ε) (hitem : Only item l)
    (hmore : Only more fun go => if go then sep else last) (fuel : ℕ) :
    Only (Scanner.sepBy exhausted item more fuel) fun as =>
      {text | as ≠ [] ∧ text ∈ separated sep (as.map l) * last} := by
  intro size text as rest hok
  induction fuel generalizing text as with
  | zero => cases hok
  | succ fuel ih =>
    obtain ⟨a, mid, ha, hok⟩ := bind_eq_ok hok
    obtain ⟨go, mid', hgo, hok⟩ := bind_eq_ok hok
    obtain ⟨front, hfront, rfl⟩ := hitem ha
    obtain ⟨back, hback, rfl⟩ := hmore hgo
    cases go with
    | false =>
      cases hok
      refine ⟨front ++ back, ⟨List.cons_ne_nil _ _, ?_⟩, (List.append_assoc ..).symm⟩
      rw [List.map_singleton, separated_singleton]
      exact Language.append_mem_mul hfront hback
    | true =>
      obtain ⟨as', mid'', has', hok⟩ := bind_eq_ok hok
      cases hok
      obtain ⟨others, ⟨hne, hothers⟩, rfl⟩ := ih has'
      obtain ⟨b, bs, rfl⟩ := List.exists_cons_of_ne_nil hne
      refine ⟨front ++ (back ++ others), ⟨List.cons_ne_nil _ _, ?_⟩, by simp⟩
      rw [List.map_cons, List.map_cons, separated_cons_cons, mul_assoc, mul_assoc]
      exact Language.append_mem_mul hfront (Language.append_mem_mul hback hothers)

end Parsing.Scanner
