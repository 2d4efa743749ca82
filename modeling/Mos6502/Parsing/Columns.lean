import Mathlib.Data.List.DropRight

/-!
# Texts in fixed columns

A text that is put together from parts of known lengths is taken apart by the widths of its
columns, and a part that was padded up to its column is read without the padding.
-/

namespace Parsing

variable {χ : Type}

/-- The columns of the given widths, and what comes after them. -/
def columns : List ℕ → List χ → List (List χ)
  | [], text => [text]
  | width :: widths, text => text.take width :: columns widths (text.drop width)

/-- **Round trip.** -/
theorem columns_flatten (parts : List (List χ)) (rest : List χ) :
    columns (parts.map List.length) (parts.flatten ++ rest) = parts ++ [rest] := by
  induction parts with
  | nil => rfl
  | cons part parts ih =>
    rw [List.map_cons, columns, List.flatten_cons, List.append_assoc, List.take_left,
      List.drop_left, ih, List.cons_append]

/-- A part that does not end in a blank is read without the blanks behind it. -/
theorem rdropWhile_rightpad [DecidableEq χ] {blank : χ} {text : List χ}
    (h : ∀ hne : text ≠ [], text.getLast hne ≠ blank) (n : ℕ) :
    (text.rightpad n blank).rdropWhile (· = blank) = text := by
  have hblanks (k : ℕ) : (text ++ List.replicate k blank).rdropWhile (· = blank) = text := by
    induction k with
    | zero =>
      rw [List.replicate_zero, List.append_nil, List.rdropWhile_eq_self_iff]
      simpa using h
    | succ k ih =>
      rw [List.replicate_succ', ← List.append_assoc, List.rdropWhile_concat_pos _ _ _ (by simp), ih]
  exact hblanks _

end Parsing
