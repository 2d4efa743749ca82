import Mathlib.Data.List.Infix
import Mathlib.Data.List.TakeWhile
import Mathlib.Tactic.Common

/-!
# Scanners

A scanner reads from the front of a text, and leaves what it did not read or stops with an
error. Loops are bounded by fuel. This file has the loop that reads items until there are no
more, with or without a state that it updates, and two notions that pass to whole grammars:
the result of a `Local` scanner depends only on what it reads, and a scanner that `Avoids` an
error never stops with it.
-/

namespace Parsing

/-- A scanner of a text of the given size, run on what is left of it. -/
def Scanner (χ ε α : Type) : Type := ℕ → List χ → Except ε (α × List χ)

namespace Scanner

variable {χ ε α γ σ : Type}

instance : Monad (Scanner χ ε) where
  pure a := fun _ text => .ok (a, text)
  bind p f := fun size text =>
    match p size text with
    | .ok (a, rest) => f a size rest
    | .error e => .error e

@[ext] theorem ext {p q : Scanner χ ε α} (h : ∀ size text, p size text = q size text) : p = q :=
  funext fun size => funext fun text => h size text

@[simp] theorem pure_apply (a : α) (size : ℕ) (text : List χ) :
    (pure a : Scanner χ ε α) size text = .ok (a, text) := rfl

theorem bind_apply (p : Scanner χ ε α) (f : α → Scanner χ ε γ) (size : ℕ) (text : List χ) :
    (p >>= f) size text =
      match p size text with
      | .ok (a, rest) => f a size rest
      | .error e => .error e := rfl

theorem bind_ok {p : Scanner χ ε α} {f : α → Scanner χ ε γ} {size : ℕ} {text rest : List χ} {a : α}
    (h : p size text = .ok (a, rest)) : (p >>= f) size text = f a size rest := by
  rw [bind_apply, h]

theorem bind_eq_ok {p : Scanner χ ε α} {f : α → Scanner χ ε γ} {size : ℕ} {text rest : List χ}
    {c : γ} (h : (p >>= f) size text = .ok (c, rest)) :
    ∃ a mid, p size text = .ok (a, mid) ∧ f a size mid = .ok (c, rest) := by
  rw [bind_apply] at h
  split at h
  · exact ⟨_, _, by assumption, h⟩
  · cases h

instance : LawfulMonad (Scanner χ ε) := by
  refine LawfulMonad.mk' _ ?_ ?_ ?_
  · intro α p
    ext1 size text
    change (p >>= pure) size text = p size text
    rw [bind_apply]
    cases p size text <;> rfl
  · intro α γ a f
    rfl
  · intro α γ δ p f g
    ext1 size text
    simp only [bind_apply]
    cases p size text <;> rfl

/-! ### Primitives -/

def throw (e : ε) : Scanner χ ε α := fun _ _ => .error e

/-- What is left of the text. -/
def remaining : Scanner χ ε (List χ) := fun _ text => .ok (text, text)

/-- Go on at another place of the text. -/
def moveTo (rest : List χ) : Scanner χ ε Unit := fun _ _ => .ok ((), rest)

/-- Read as long as the condition holds. -/
def takeWhile (p : χ → Bool) : Scanner χ ε (List χ) :=
  fun _ text => .ok (text.takeWhile p, text.dropWhile p)

/-- A scanner together with the text that it reads. -/
def withText (p : Scanner χ ε α) : Scanner χ ε (List χ × α) := do
  let before ← remaining
  let a ← p
  let after ← remaining
  pure (before.take (before.length - after.length), a)

/-! ### Loops -/

/-- Read an item, and go on as long as there is more. -/
def doWhile (exhausted : ε) (item : StateT σ (Scanner χ ε) Unit) (more : Scanner χ ε Bool) :
    ℕ → StateT σ (Scanner χ ε) Unit
  | 0 => monadLift (throw exhausted : Scanner χ ε Unit)
  | fuel + 1 => do
    item
    if ← more then doWhile exhausted item more fuel else pure ()

/-- The same loop, which returns the items. -/
def sepBy (exhausted : ε) (item : Scanner χ ε α) (more : Scanner χ ε Bool) :
    ℕ → Scanner χ ε (List α)
  | 0 => throw exhausted
  | fuel + 1 => do
    let a ← item
    if ← more then
      let as ← sepBy exhausted item more fuel
      pure (a :: as)
    else pure [a]

variable {exhausted : ε} {item : Scanner χ ε α} {more : Scanner χ ε Bool}

/-- **Reading first.** A loop that updates its state with each item is the loop that returns
the items, and then all updates. -/
theorem doWhile_eq {body : StateT σ (Scanner χ ε) Unit} {update : σ → α → σ}
    (hbody : ∀ s, body.run s = item >>= fun a => pure ((), update s a)) (fuel : ℕ) (s : σ) :
    (doWhile exhausted body more fuel).run s =
      sepBy exhausted item more fuel >>= fun as => pure ((), as.foldl update s) := by
  induction fuel generalizing s with
  | zero =>
    ext1 size text
    rfl
  | succ fuel ih =>
    simp only [doWhile, sepBy, StateT.run_bind, StateT.run_monadLift, monadLift_self, hbody,
      bind_assoc, pure_bind]
    refine bind_congr fun a => bind_congr fun more => ?_
    cases more with
    | false => simp
    | true => simp [ih]

/-- What holds of every item that a scanner returns holds of all items of its loop. -/
theorem forall_of_sepBy {P : α → Prop}
    (hitem : ∀ {size text a rest}, item size text = .ok (a, rest) → P a) {fuel size : ℕ}
    {text rest : List χ} {as : List α}
    (h : sepBy exhausted item more fuel size text = .ok (as, rest)) : ∀ a ∈ as, P a := by
  induction fuel generalizing text as with
  | zero => cases h
  | succ fuel ih =>
    obtain ⟨a, mid, ha, h⟩ := bind_eq_ok h
    obtain ⟨go, mid', hgo, h⟩ := bind_eq_ok h
    cases go with
    | false =>
      cases h
      simpa using hitem ha
    | true =>
      obtain ⟨as', last, has', h⟩ := bind_eq_ok h
      cases h
      exact List.forall_mem_cons.mpr ⟨hitem ha, ih has'⟩

/-- A function of the items can as well be applied to all of them. -/
theorem sepBy_map (f : α → γ) (fuel : ℕ) :
    sepBy exhausted (f <$> item) more fuel = List.map f <$> sepBy exhausted item more fuel := by
  induction fuel with
  | zero => rfl
  | succ fuel ih =>
    simp only [sepBy, bind_map_left, map_bind]
    refine bind_congr fun a => bind_congr fun go => ?_
    cases go with
    | false => rfl
    | true => simp [ih]

theorem snd_withText (p : Scanner χ ε α) : Prod.snd <$> withText p = p := by
  simp only [withText, map_eq_pure_bind, bind_assoc, pure_bind]
  ext1 size text
  change (p >>= fun a => pure a) size text = p size text
  rw [bind_pure]

/-! ### Errors that do not happen -/

/-- The scanner never stops with this error. -/
def Avoids (e : ε) (p : Scanner χ ε α) : Prop := ∀ size text, p size text ≠ .error e

theorem Avoids.pure (e : ε) (a : α) : Avoids e (pure a : Scanner χ ε α) := nofun

theorem Avoids.bind {e : ε} {p : Scanner χ ε α} {f : α → Scanner χ ε γ} (hp : Avoids e p)
    (hf : ∀ a, Avoids e (f a)) : Avoids e (p >>= f) := by
  intro size text h
  rw [bind_apply] at h
  split at h
  · exact hf _ _ _ h
  · cases h
    exact hp size text ‹_›

theorem Avoids.map {e : ε} {p : Scanner χ ε α} (hp : Avoids e p) (f : α → γ) :
    Avoids e (f <$> p) := by
  rw [map_eq_pure_bind]
  exact hp.bind fun a => .pure e (f a)

/-! ### Scanners that do not look ahead -/

/-- What a successful scanner returns depends on nothing but the text that it reads: it
returns the same when less of the rest is there, or nothing at all. -/
def Local (p : Scanner χ ε α) : Prop :=
  ∀ ⦃size text a rest⦄, p size text = .ok (a, rest) →
    ∃ read, text = read ++ rest ∧
      ∀ size' rest', rest' <+: rest → p size' (read ++ rest') = .ok (a, rest')

theorem Local.pure (a : α) : Local (pure a : Scanner χ ε α) := by
  intro size text a' rest h
  cases h
  exact ⟨[], rfl, fun _ _ _ => rfl⟩

theorem Local.bind {p : Scanner χ ε α} {f : α → Scanner χ ε γ} (hp : Local p)
    (hf : ∀ a, Local (f a)) : Local (p >>= f) := by
  intro size text c rest h
  obtain ⟨a, mid, ha, hc⟩ := bind_eq_ok h
  obtain ⟨read, rfl, hread⟩ := hp ha
  obtain ⟨read', rfl, hread'⟩ := hf a hc
  refine ⟨read ++ read', by rw [List.append_assoc], fun size' rest' hrest => ?_⟩
  rw [List.append_assoc, bind_ok (hread size' _ ((List.prefix_append_right_inj read').mpr hrest))]
  exact hread' size' rest' hrest

theorem Local.map {p : Scanner χ ε α} (hp : Local p) (f : α → γ) : Local (f <$> p) := by
  rw [map_eq_pure_bind]
  exact hp.bind fun a => .pure (f a)

/-- A condition that is false where a text goes on is false at the end of the text. -/
theorem takeWhile_append_rest {p : χ → Bool} {text rest : List χ} (h : rest <+: text.dropWhile p) :
    (text.takeWhile p ++ rest).takeWhile p = text.takeWhile p ∧
      (text.takeWhile p ++ rest).dropWhile p = rest := by
  have hall : ∀ c ∈ text.takeWhile p, p c = true := fun c hc => List.mem_takeWhile_imp hc
  rw [List.takeWhile_append_of_pos hall, List.dropWhile_append_of_pos hall]
  cases rest with
  | nil => simp
  | cons c rest =>
    obtain ⟨more, hmore⟩ := h
    have hhead := List.head_dropWhile_not p (l := text) (hmore ▸ List.cons_ne_nil c _)
    have hc : p c = false := by simpa [← hmore] using hhead
    simp [hc]

/-- A text that goes on with another character goes on with it whatever follows. -/
theorem dropWhile_append_cons {p : χ → Bool} {text rest : List χ} {c : χ}
    (h : text.dropWhile p = c :: rest) (rest' : List χ) :
    (text.takeWhile p ++ c :: rest').dropWhile p = c :: rest' := by
  have hall : ∀ c ∈ text.takeWhile p, p c = true := fun c hc => List.mem_takeWhile_imp hc
  have hc : p c = false := by
    have hhead := List.head_dropWhile_not p (l := text) (h ▸ List.cons_ne_nil c _)
    simpa [h] using hhead
  rw [List.dropWhile_append_of_pos hall, List.dropWhile_cons_of_neg (by simp [hc])]

/-- A loop does not look ahead, and needs no more fuel than what it reads is long. -/
theorem Local.sepBy (hitem : Local item) (hmore : Local more)
    (hprogress : ∀ {size text rest}, more size text = .ok (true, rest) → rest.length < text.length)
    {fuel size : ℕ} {text rest : List χ} {as : List α}
    (h : sepBy exhausted item more fuel size text = .ok (as, rest)) :
    ∃ read, text = read ++ rest ∧ ∀ fuel' size' rest', rest' <+: rest → read.length < fuel' →
      Scanner.sepBy exhausted item more fuel' size' (read ++ rest') = .ok (as, rest') := by
  induction fuel generalizing text as with
  | zero => cases h
  | succ fuel ih =>
    obtain ⟨a, mid, ha, h⟩ := bind_eq_ok h
    obtain ⟨go, mid', hgo, h⟩ := bind_eq_ok h
    have hlt := @hprogress size mid mid'
    obtain ⟨read, rfl, hread⟩ := hitem ha
    obtain ⟨read', rfl, hread'⟩ := hmore hgo
    cases go with
    | false =>
      cases h
      refine ⟨read ++ read', by rw [List.append_assoc], fun fuel' size' rest' hrest hfuel => ?_⟩
      obtain ⟨fuel', rfl⟩ := Nat.exists_eq_add_one.mpr (Nat.zero_lt_of_lt hfuel)
      rw [List.append_assoc, Scanner.sepBy,
        bind_ok (hread size' _ ((List.prefix_append_right_inj read').mpr hrest)),
        bind_ok (hread' size' rest' hrest)]
      rfl
    | true =>
      obtain ⟨as', last, has', h⟩ := bind_eq_ok h
      cases h
      obtain ⟨read'', rfl, hread''⟩ := ih has'
      have hpos := hlt hgo
      refine ⟨read ++ (read' ++ read''), by simp only [List.append_assoc],
        fun fuel' size' rest' hrest hfuel => ?_⟩
      obtain ⟨fuel', rfl⟩ := Nat.exists_eq_add_one.mpr (Nat.zero_lt_of_lt hfuel)
      have hrest'' := (List.prefix_append_right_inj read'').mpr hrest
      rw [List.append_assoc, List.append_assoc, Scanner.sepBy,
        bind_ok (hread size' _ ((List.prefix_append_right_inj read').mpr hrest'')),
        bind_ok (hread' size' _ hrest'')]
      simp only [List.length_append] at hfuel hpos
      simp only [if_true]
      rw [bind_ok (hread'' fuel' size' rest' hrest (by omega))]
      rfl

/-- A loop whose rounds make progress does not need more fuel than the text is long. -/
theorem Avoids.sepBy (hitem : Avoids exhausted item) (hlocal : Local item)
    (hmore : Avoids exhausted more)
    (hprogress : ∀ {size text rest}, more size text = .ok (true, rest) → rest.length < text.length)
    {fuel size : ℕ} {text : List χ} (hfuel : text.length < fuel) :
    Scanner.sepBy exhausted item more fuel size text ≠ .error exhausted := by
  induction fuel generalizing text with
  | zero => exact absurd hfuel (Nat.not_lt_zero _)
  | succ fuel ih =>
    intro h
    rw [Scanner.sepBy, bind_apply] at h
    split at h
    · rename_i a mid ha
      rw [bind_apply] at h
      split at h
      · rename_i go rest hgo
        cases go with
        | false => cases h
        | true =>
          obtain ⟨read, rfl, -⟩ := hlocal ha
          have hlt := hprogress hgo
          rw [List.length_append] at hfuel
          simp only [if_true, bind_apply] at h
          split at h
          · cases h
          · cases h
            have hrest : rest.length < fuel := by omega
            exact ih hrest ‹_›
      · cases h
        exact hmore _ _ ‹_›
    · cases h
      exact hitem _ _ ‹_›

/-- The text that a scanner reads is enough to read it again. -/
theorem Local.of_withText {p : Scanner χ ε α} (hp : Local p) {size : ℕ}
    {text read rest : List χ} {a : α} (h : withText p size text = .ok ((read, a), rest)) :
    text = read ++ rest ∧ p size text = .ok (a, rest) ∧ ∀ size', p size' read = .ok (a, []) := by
  obtain ⟨before, mid, hbefore, h⟩ := bind_eq_ok h
  cases hbefore
  obtain ⟨a', mid, ha, h⟩ := bind_eq_ok h
  obtain ⟨after, mid', hafter, h⟩ := bind_eq_ok h
  cases hafter
  cases h
  obtain ⟨read, rfl, hread⟩ := hp ha
  rw [List.length_append, Nat.add_sub_cancel, List.take_left]
  refine ⟨rfl, ha, fun size' => ?_⟩
  have := hread size' [] List.nil_prefix
  rwa [List.append_nil] at this

end Scanner

end Parsing
