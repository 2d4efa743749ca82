import Mathlib.Computability.Language
import Mos6502.Parsing.Scanner

/-!
# Texts that a scanner reads

A language of texts stands for one value when a scanner reads every text of it as that value,
and stops where the text ends, whatever follows. Tokens that go on as long as they can, such
as numbers, do so only before certain texts, which then have to follow. The rules go from the
tokens of a format to its sequences, alternatives and lists with separators.
-/

namespace Parsing.Scanner

variable {χ ε α γ : Type}

/-- Before what may follow, the scanner reads each text of the language, and nothing more, and
returns the value. -/
def Reads (follow : Set (List χ)) (p : Scanner χ ε α) (l : Language χ) (a : α) : Prop :=
  ∀ ⦃size text rest⦄, text ∈ l → rest ∈ follow → p size (text ++ rest) = .ok (a, rest)

/-- Whatever comes after it, a text of the language may follow. -/
def Guards (l : Language χ) (follow : Set (List χ)) : Prop :=
  ∀ text ∈ l, ∀ rest, text ++ rest ∈ follow

theorem guards_univ (l : Language χ) : Guards l Set.univ := fun _ _ _ => Set.mem_univ _

section guards

variable {l m : Language χ} {follow : Set (List χ)}

theorem Guards.mul (h : Guards l follow) (m : Language χ) : Guards (l * m) follow := by
  intro text htext rest
  obtain ⟨front, hfront, back, -, rfl⟩ := Language.mem_mul.mp htext
  rw [List.append_assoc]
  exact h front hfront (back ++ rest)

end guards

section rules

variable {follow follow' : Set (List χ)} {p : Scanner χ ε α} {l m : Language χ} {a : α}

theorem Reads.pure (a : α) : Reads follow (pure a : Scanner χ ε α) 1 a := by
  rintro size _ rest rfl -
  rfl

/-- **Sequences.** What comes second must be able to follow what comes first. -/
theorem Reads.bind {f : α → Scanner χ ε γ} {c : γ} (hp : Reads follow p l a)
    (hf : Reads follow' (f a) m c) (hguards : Guards m follow) :
    Reads follow' (p >>= f) (l * m) c := by
  intro size text rest htext hrest
  obtain ⟨front, hfront, back, hback, rfl⟩ := Language.mem_mul.mp htext
  rw [List.append_assoc, bind_ok (hp hfront (hguards back hback rest))]
  exact hf hback hrest

/-- A sequence in which anything may follow what comes first. -/
theorem Reads.andThen {f : α → Scanner χ ε γ} {c : γ} (hp : Reads Set.univ p l a)
    (hf : Reads follow' (f a) m c) : Reads follow' (p >>= f) (l * m) c :=
  hp.bind hf (guards_univ m)

theorem Reads.map (hp : Reads follow p l a) (f : α → γ) : Reads follow (f <$> p) l (f a) := by
  intro size text rest htext hrest
  rw [map_eq_pure_bind, bind_ok (hp htext hrest)]
  rfl

theorem Reads.add (hl : Reads follow p l a) (hm : Reads follow p m a) :
    Reads follow p (l + m) a := by
  rintro size text rest (htext | htext) hrest
  · exact hl htext hrest
  · exact hm htext hrest

end rules

section lists

variable {item : Scanner χ ε α} {more : Scanner χ ε Bool}

/-- The texts of some items, with separators between them. -/
def separated (sep : Language χ) (items : List (Language χ)) : Language χ :=
  (items.intersperse sep).prod

@[simp] theorem separated_nil (sep : Language χ) : separated sep [] = 1 := rfl

@[simp] theorem separated_singleton (sep l : Language χ) : separated sep [l] = l := by
  simp [separated]

@[simp] theorem separated_cons_cons (sep l m : Language χ) (ls : List (Language χ)) :
    separated sep (l :: m :: ls) = l * (sep * separated sep (m :: ls)) := by
  rw [separated, List.intersperse_cons_cons, List.prod_cons, List.prod_cons]
  rfl

/-- **Lists.** A loop reads its items when it goes on at each separator, and stops at the text
that follows the last item. -/
theorem sepBy_of_reads (exhausted : ε) {sep : Language χ} {follow : Set (List χ)}
    (hsep : Reads Set.univ more sep true) (hguards : Guards sep follow) {l : α → Language χ}
    {size : ℕ} {tail rest : List χ} (htail : tail ∈ follow)
    (hstop : more size tail = .ok (false, rest)) {a : α} {as : List α}
    (hitem : ∀ b ∈ a :: as, Reads follow item (l b) b) {text : List χ}
    (htext : text ∈ separated sep ((a :: as).map l)) {fuel : ℕ} (hfuel : as.length < fuel) :
    sepBy exhausted item more fuel size (text ++ tail) = .ok (a :: as, rest) := by
  induction as generalizing a text fuel with
  | nil =>
    obtain ⟨fuel, rfl⟩ := Nat.exists_eq_add_one.mpr hfuel
    rw [List.map_singleton, separated_singleton] at htext
    rw [sepBy, bind_ok (hitem a (by simp) htext htail), bind_ok hstop]
    rfl
  | cons b bs ih =>
    obtain ⟨fuel, rfl⟩ := Nat.exists_eq_add_one.mpr (Nat.zero_lt_of_lt hfuel)
    rw [List.map_cons, List.map_cons, separated_cons_cons] at htext
    obtain ⟨front, hfront, others, hothers, rfl⟩ := Language.mem_mul.mp htext
    obtain ⟨comma, hcomma, back, hback, rfl⟩ := Language.mem_mul.mp hothers
    have hafter : comma ++ (back ++ tail) ∈ follow := hguards comma hcomma (back ++ tail)
    have hloop := ih (fun c hc => hitem c (List.mem_cons_of_mem a hc)) hback
      (Nat.lt_of_succ_lt_succ hfuel)
    rw [List.append_assoc, List.append_assoc, sepBy, bind_ok (hitem a (by simp) hfront hafter),
      bind_ok (hsep hcomma (Set.mem_univ _))]
    simp only [if_true]
    rw [bind_ok hloop]
    rfl

end lists

end Parsing.Scanner
