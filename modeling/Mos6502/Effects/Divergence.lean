import Mathlib.Data.List.Infix
import Mos6502.Effects.Orbit
import Mos6502.Effects.Program

/-!
# Runs that agree until they part

Two handlers that answer alike keep a program on the same path. At the first answer that
differs the paths part, and what happened on them can never be the same again. The rules here
carry such a pair of relations, in step or apart, through a program (`run_sim_or`) and through
the steps of two systems (`orbit_sim_or`). Histories that part are of this kind (`Part`).
-/

namespace Effects

/-! ### Histories -/

section histories

variable {ε ω : Type} {R : ε → ε → Prop} {l l' m m' : List ε}

/-- Two histories agree up to an entry at which they differ as `R` allows. -/
def Part (R : ε → ε → Prop) (l l' : List ε) : Prop :=
  ∃ front e e' back back', R e e' ∧ l = front ++ e :: back ∧ l' = front ++ e' :: back'

/-- What has parted stays apart. -/
theorem Part.mono (h : Part R l l') (hl : l <+: m) (hl' : l' <+: m') : Part R m m' := by
  obtain ⟨front, e, e', back, back', hR, rfl, rfl⟩ := h
  obtain ⟨more, rfl⟩ := hl
  obtain ⟨more', rfl⟩ := hl'
  exact ⟨front, e, e', back ++ more, back' ++ more', hR, by simp, by simp⟩

/-- Histories whose entries differ in what is observed of them differ in what is observed. -/
theorem Part.filterMap_ne {f : ε → Option ω}
    (hf : ∀ e e', R e e' → ∃ o o', f e = some o ∧ f e' = some o' ∧ o ≠ o') (h : Part R l l') :
    l.filterMap f ≠ l'.filterMap f := by
  obtain ⟨front, e, e', back, back', hR, rfl, rfl⟩ := h
  obtain ⟨o, o', ho, ho', hne⟩ := hf e e' hR
  rw [List.filterMap_append, List.filterMap_append, List.filterMap_cons_some ho,
    List.filterMap_cons_some ho']
  intro heq
  exact hne (List.cons.inj (List.append_cancel_left heq)).1

end histories

/-! ### Programs and systems -/

section simulation

variable {Call : Type} {Result : Call → Type} {α σ τ : Type}

/-- **Simulation until the answers differ.** -/
theorem Program.run_sim_or {h : Handler Result σ} {k : Handler Result τ} {R D : σ → τ → Prop}
    (hcall : ∀ c s t, R s t →
      (h c s).1 = (k c t).1 ∧ R (h c s).2 (k c t).2 ∨ D (h c s).2 (k c t).2)
    (hleft : ∀ c s t, D s t → D (h c s).2 t) (hright : ∀ c s t, D s t → D s (k c t).2)
    (p : Program Result α) {s : σ} {t : τ} (hst : R s t) :
    (run h p s).1 = (run k p t).1 ∧ R (run h p s).2 (run k p t).2 ∨
      D (run h p s).2 (run k p t).2 := by
  have hapart (q q' : Program Result α) {s : σ} {t : τ} (hst : D s t) :
      D (run h q s).2 (run k q' t).2 := by
    have hfront : D (run h q s).2 t :=
      run_frame (R := fun s s' => ∀ t, D s t → D s' t) (fun _ _ h => h)
        (fun _ _ _ h h' t hst => h' t (h t hst)) (fun c s t => hleft c s t) q s t hst
    exact run_frame (R := fun t t' => ∀ s, D s t → D s t') (fun _ _ h => h)
      (fun _ _ _ h h' s hst => h' s (h s hst)) (fun c t s => hright c s t) q' t _ hfront
  induction p generalizing s t with
  | ret a => exact .inl ⟨rfl, hst⟩
  | call c next ih =>
    rcases hcall c s t hst with ⟨hanswer, hnext⟩ | hnext
    · simp only [run]
      rw [hanswer]
      exact ih _ hnext
    · exact .inr (hapart (next (h c s).1) (next (k c t).1) hnext)

/-- The steps of two systems keep them in step or apart. -/
theorem orbit_sim_or {step : ℕ → σ → σ} {step' : ℕ → τ → τ} {R D : σ → τ → Prop} {s : σ} {t : τ}
    (hst : R s t) (hstep : ∀ k s t, R s t → R (step k s) (step' k t) ∨ D (step k s) (step' k t))
    (hapart : ∀ k s t, D s t → D (step k s) (step' k t)) (k : ℕ) :
    R (orbit step s k) (orbit step' t k) ∨ D (orbit step s k) (orbit step' t k) := by
  induction k with
  | zero => exact .inl hst
  | succ k ih =>
    rw [orbit_succ, orbit_succ]
    exact ih.elim (hstep k _ _) fun h => .inr (hapart k _ _ h)

end simulation

end Effects
