import Mos6502.BusLog

/-!
# The public interface of a running processor

Between two resets a host steps the processor, runs it to a budget, and moves its
interrupt pins. What holds of every sequence of these controls holds of every host,
and two machines that answer each step alike answer every sequence alike.
-/

namespace Mos6502

/-- What a host does with a processor between two resets. -/
inductive Control
  | step
  | run (budget : U64)
  | pin (c : PinCall)
  deriving DecidableEq, Repr

/-- What a control returns to the host. -/
inductive Returned
  | step (cycles : U32)
  | run (cycles : U64)
  | pin
  deriving DecidableEq, Repr

namespace Machine

section controls

variable {β η : Type} [BusLike β] [Hooks β η] (V : Variant) (fuel : ℕ)

def control (m : Machine β η) : Control → Option (Returned × Machine β η)
  | .step => some (.step (m.step V).1, (m.step V).2)
  | .run budget => (m.run V budget fuel).map fun r => (.run r.1, r.2)
  | .pin c => some (.pin, m.pinCall c)

/-- A sequence of controls, with what each of them returns. There is no result when one
of the runs needs more fuel. -/
def controls (m : Machine β η) : List Control → Option (List Returned × Machine β η)
  | [] => some ([], m)
  | c :: cs =>
    (m.control V fuel c).bind fun r =>
      (controls r.2 cs).map fun rs => (r.1 :: rs.1, rs.2)

end controls

/-! ### Lockstep -/

section optional

variable {α γ δ ε : Type} {P : α → γ → Prop} {Q : δ → ε → Prop} {a : Option α} {b : Option γ}

/-- Related optional results stay related under functions that relate their values. -/
theorem optionRel_map {f : α → δ} {g : γ → ε} (hab : Option.Rel P a b)
    (hfg : ∀ x y, P x y → Q (f x) (g y)) : Option.Rel Q (a.map f) (b.map g) := by
  cases hab with
  | some h => exact .some (hfg _ _ h)
  | none => exact .none

theorem optionRel_bind {f : α → Option δ} {g : γ → Option ε} (hab : Option.Rel P a b)
    (hfg : ∀ x y, P x y → Option.Rel Q (f x) (g y)) : Option.Rel Q (a.bind f) (b.bind g) := by
  cases hab with
  | some h => exact hfg _ _ h
  | none => exact .none

end optional

section simulation

variable {β γ η θ : Type} [BusLike β] [Hooks β η] [BusLike γ] [Hooks γ θ] {V : Variant}
  {R : Machine β η → Machine γ θ → Prop}

/-- A relation between two machines that pin calls and steps preserve, and under which
they measure the same elapsed time. -/
structure Lockstep (V : Variant) (R : Machine β η → Machine γ θ → Prop) : Prop where
  pinCall : ∀ {s t}, R s t → ∀ c, R (s.pinCall c) (t.pinCall c)
  stepMachine : ∀ {s t}, R s t → R (s.stepMachine V) (t.stepMachine V)
  elapsed : ∀ {s t s' t'}, R s t → R s' t' →
    s'.cpu.cycles - s.cpu.cycles = t'.cpu.cycles - t.cpu.cycles

variable (h : Lockstep V R) {s : Machine β η} {t : Machine γ θ}
include h

/-- The loop of `run` stays in lockstep: it tests the same elapsed time on both sides. -/
theorem Lockstep.runLoop {s₀ : Machine β η} {t₀ : Machine γ θ} (hstart : R s₀ t₀)
    (hst : R s t) (budget : U64) (fuel : ℕ) :
    Option.Rel R (s.runLoop V s₀.cpu.cycles budget fuel)
      (t.runLoop V t₀.cpu.cycles budget fuel) := by
  induction fuel generalizing s t with
  | zero =>
    simp only [Machine.runLoop, h.elapsed hstart hst]
    split
    · exact .none
    · exact .some hst
  | succ fuel ih =>
    simp only [Machine.runLoop, h.elapsed hstart hst]
    split
    · exact ih (h.stepMachine hst)
    · exact .some hst

theorem Lockstep.run (hst : R s t) (budget : U64) (fuel : ℕ) :
    Option.Rel (fun r r' => r.1 = r'.1 ∧ R r.2 r'.2) (s.run V budget fuel)
      (t.run V budget fuel) :=
  optionRel_map (h.runLoop hst hst budget fuel) fun _ _ hst' => ⟨h.elapsed hst hst', hst'⟩

theorem Lockstep.control (hst : R s t) (fuel : ℕ) (c : Control) :
    Option.Rel (fun r r' => r.1 = r'.1 ∧ R r.2 r'.2) (s.control V fuel c)
      (t.control V fuel c) := by
  cases c with
  | step =>
    have hnext := h.stepMachine hst
    refine .some ⟨?_, hnext⟩
    simp only [Machine.step, h.elapsed hst hnext]
  | run budget =>
    exact optionRel_map (h.run hst budget fuel) fun _ _ hr => ⟨congrArg Returned.run hr.1, hr.2⟩
  | pin c => exact .some ⟨rfl, h.pinCall hst c⟩

/-- **Lockstep.** Machines in lockstep return the same to every sequence of controls. -/
theorem Lockstep.controls (hst : R s t) (fuel : ℕ) (cs : List Control) :
    Option.Rel (fun r r' => r.1 = r'.1 ∧ R r.2 r'.2) (s.controls V fuel cs)
      (t.controls V fuel cs) := by
  induction cs generalizing s t with
  | nil => exact .some ⟨rfl, hst⟩
  | cons c cs ih =>
    refine optionRel_bind (h.control hst fuel c) fun r r' hr => ?_
    exact optionRel_map (ih hr.2) fun rs rs' hrs => ⟨by rw [hr.1, hrs.1], hrs.2⟩

end simulation

/-- Logging does not change what the controls do. -/
theorem lockstep_forget {β : Type} [BusLike β] (V : Variant) :
    Lockstep (β := Logged β) (γ := β) V fun s t => s.forget = t where
  pinCall := by
    rintro s _ rfl c
    cases c <;> rfl
  stepMachine := by
    rintro s _ rfl
    exact (stepMachine_forget V s).symm
  elapsed := by
    rintro s _ s' _ rfl rfl
    rfl

theorem controls_forget {β : Type} [BusLike β] (V : Variant) (fuel : ℕ) (cs : List Control)
    (m : Machine (Logged β) NullHooks) :
    m.forget.controls V fuel cs =
      (m.controls V fuel cs).map fun r => (r.1, r.2.forget) := by
  have hrel := (lockstep_forget V).controls (s := m) rfl fuel cs
  generalize m.forget.controls V fuel cs = a at hrel ⊢
  generalize m.controls V fuel cs = b at hrel ⊢
  cases hrel with
  | some h => exact congrArg some (Prod.ext h.1.symm h.2.symm)
  | none => rfl

end Machine

end Mos6502
