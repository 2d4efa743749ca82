import Mathlib.Init

/-!
# Programs over a signature of calls

A program is a tree of calls into a machine whose continuation receives each
answer. The same program can be run by any handler of its calls, so properties
that hold of every single call lift to whole programs by one induction: frame
conditions (`run_frame`), simulations between two handlers (`run_sim`) and
postconditions under a nondeterministic specification (`run_holds`).
-/

namespace Effects

/-- A program over the calls `Call` answered in `Result`: it returns a value, or
issues a call and goes on with the answer. -/
inductive Program {Call : Type} (Result : Call → Type) (α : Type) : Type
  | ret (a : α) : Program Result α
  | call (c : Call) (next : Result c → Program Result α) : Program Result α

namespace Program

variable {Call : Type} {Result : Call → Type} {α γ σ τ : Type}

/-- Sequencing: graft the second program onto every leaf of the first. -/
def bind : Program Result α → (α → Program Result γ) → Program Result γ
  | ret a, f => f a
  | call c next, f => call c fun r => (next r).bind f

instance : Monad (Program Result) where
  pure := ret
  bind := bind

/-- The program that issues one call and returns its answer. -/
def perform (c : Call) : Program Result (Result c) := call c ret

/-- A handler answers each call and updates the state it runs over. -/
abbrev Handler (Result : Call → Type) (σ : Type) := (c : Call) → σ → Result c × σ

/-- Run a program by handing each of its calls to the handler in turn. -/
def run (h : Handler Result σ) : Program Result α → σ → α × σ
  | ret a, s => (a, s)
  | call c next, s => run h (next (h c s).1) (h c s).2

@[simp] theorem run_pure (h : Handler Result σ) (a : α) (s : σ) :
    run h (pure a) s = (a, s) := rfl

@[simp] theorem run_perform (h : Handler Result σ) (c : Call) (s : σ) :
    run h (perform c) s = h c s := rfl

/-- Running a sequence runs the second program in the state the first one left. -/
@[simp] theorem run_bind (h : Handler Result σ) (p : Program Result α)
    (f : α → Program Result γ) (s : σ) :
    run h (p >>= f) s = run h (f (run h p s).1) (run h p s).2 := by
  induction p generalizing s with
  | ret a => rfl
  | call c next ih => exact ih _ _

/-- **Frame rule.** A reflexive and transitive relation that every single call
respects relates the states before and after any program. -/
theorem run_frame {h : Handler Result σ} {R : σ → σ → Prop} (hrefl : ∀ s, R s s)
    (htrans : ∀ s t u, R s t → R t u → R s u) (hcall : ∀ c s, R s (h c s).2)
    (p : Program Result α) (s : σ) : R s (run h p s).2 := by
  induction p generalizing s with
  | ret a => exact hrefl s
  | call c next ih => exact htrans _ _ _ (hcall c s) (ih _ _)

/-- **Simulation rule.** If related states answer every call alike and stay
related, then a program returns the same value from both and keeps them related. -/
theorem run_sim {h : Handler Result σ} {k : Handler Result τ} {R : σ → τ → Prop}
    (hcall : ∀ c s t, R s t → (h c s).1 = (k c t).1 ∧ R (h c s).2 (k c t).2)
    (p : Program Result α) {s : σ} {t : τ} (hst : R s t) :
    (run h p s).1 = (run k p t).1 ∧ R (run h p s).2 (run k p t).2 := by
  induction p generalizing s t with
  | ret a => exact ⟨rfl, hst⟩
  | call c next ih =>
    obtain ⟨hanswer, hnext⟩ := hcall c s t hst
    simp only [run]
    rw [hanswer]
    exact ih _ hnext

/-- A nondeterministic specification of the calls over an abstract state: the
answers and next states that each call may have. -/
abbrev Spec (Result : Call → Type) (σ : Type) := (c : Call) → σ → Result c → σ → Prop

/-- The postcondition `Q` holds after every run that the specification allows. -/
def Holds (spec : Spec Result σ) : Program Result α → σ → (α → σ → Prop) → Prop
  | ret a, s, Q => Q a s
  | call c next, s, Q => ∀ r s', spec c s r s' → Holds spec (next r) s' Q

@[simp] theorem holds_pure (spec : Spec Result σ) (a : α) (s : σ) (Q : α → σ → Prop) :
    Holds spec (pure a) s Q ↔ Q a s := Iff.rfl

@[simp] theorem holds_perform (spec : Spec Result σ) (c : Call) (s : σ)
    (Q : Result c → σ → Prop) :
    Holds spec (perform c) s Q ↔ ∀ r s', spec c s r s' → Q r s' := Iff.rfl

@[simp] theorem holds_bind (spec : Spec Result σ) (p : Program Result α)
    (f : α → Program Result γ) (s : σ) (Q : γ → σ → Prop) :
    Holds spec (p >>= f) s Q ↔ Holds spec p s fun a s' => Holds spec (f a) s' Q := by
  induction p generalizing s with
  | ret a => exact Iff.rfl
  | call c next ih =>
    change (∀ r s', spec c s r s' → Holds spec (next r >>= f) s' Q) ↔ _
    simp only [ih]
    exact Iff.rfl

/-- Weakening the postcondition. -/
theorem Holds.mono {spec : Spec Result σ} {p : Program Result α} {s : σ}
    {P Q : α → σ → Prop} (h : Holds spec p s P) (hPQ : ∀ a s', P a s' → Q a s') :
    Holds spec p s Q := by
  induction p generalizing s with
  | ret a => exact hPQ _ _ h
  | call c next ih => exact fun r s' hspec => ih r (h r s' hspec)

/-- **Soundness of specifications.** When every call of the handler is one that
the specification allows on the abstracted states, a postcondition that holds
under the specification holds of the run. -/
theorem run_holds {h : Handler Result τ} {spec : Spec Result σ} (abstr : τ → σ)
    (hsound : ∀ c t, spec c (abstr t) (h c t).1 (abstr (h c t).2))
    {p : Program Result α} {t : τ} {Q : α → σ → Prop} (hp : Holds spec p (abstr t) Q) :
    Q (run h p t).1 (abstr (run h p t).2) := by
  induction p generalizing t with
  | ret a => exact hp
  | call c next ih => exact ih _ (hp _ _ (hsound c t))

end Program

end Effects
