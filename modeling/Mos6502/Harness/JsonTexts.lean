import Mos6502.Harness.Json
import Mos6502.Parsing.Rendering

/-!
# The texts of JSON values

A token may have white space before it. A number may be followed by anything but a further
digit, every other token by anything.
-/

namespace Mos6502.Json

open Parsing Parsing.Scanner

/-- White space between tokens. -/
def blanks : Language Char := {text | ∀ c ∈ text, c = ' ' ∨ c = '\t' ∨ c = '\n' ∨ c = '\r'}

def punct (c : Char) : Language Char := blanks * {[c]}

/-- A string, which has no escapes. -/
def quoted (s : List Char) : Language Char := blanks * {'"' :: (s ++ ['"'])}

/-- The decimal digits of a number. -/
def digits (n : ℕ) : Language Char :=
  {ds | ds ≠ [] ∧ (∀ d ∈ ds, d.isDigit = true) ∧ Nat.ofDigitChars 10 ds 0 = n}

def numeral (n : ℕ) : Language Char := blanks * digits n

/-- A member of an object. -/
def entry (key : String) (value : Language Char) : Language Char :=
  quoted key.toList * (punct ':' * value)

/-- Items between brackets, with commas between them. -/
def listing (opening closing : Char) (items : List (Language Char)) : Language Char :=
  punct opening * (separated (punct ',') items * punct closing)

def noDigit : Set (List Char) := {rest | ∀ c ∈ rest.head?, c.isDigit = false}

/-- Leading white space can be left out, and the texts of the language then begin with `c`. -/
def Led (c : Char) (l : Language Char) : Prop :=
  ∀ text ∈ l, ∃ back, text.dropWhile isWhitespace = c :: back ∧ c :: back ∈ l

/-! ### White space -/

theorem dropWhile_blanks {front back : List Char} (hfront : front ∈ blanks) :
    (front ++ back).dropWhile isWhitespace = back.dropWhile isWhitespace := by
  refine List.dropWhile_append_of_pos fun c hc => ?_
  rcases hfront c hc with rfl | rfl | rfl | rfl <;> rfl

theorem dropWhile_token {c : Char} {text back : List Char} (hc : isWhitespace c = false)
    (htext : text ∈ blanks * ({c :: back} : Language Char)) (rest : List Char) :
    (text ++ rest).dropWhile isWhitespace = c :: (back ++ rest) := by
  obtain ⟨front, hfront, _, rfl, rfl⟩ := Language.mem_mul.mp htext
  rw [List.append_assoc, dropWhile_blanks hfront, List.cons_append, List.dropWhile_cons_of_neg]
  simp [hc]

section led

variable {c : Char} {l m : Language Char}

theorem led_token (hc : isWhitespace c = false) (back : List Char) :
    Led c (blanks * {c :: back}) := by
  intro text htext
  have hskip := dropWhile_token hc htext []
  rw [List.append_nil, List.append_nil] at hskip
  exact ⟨back, hskip, Language.append_mem_mul (a := []) (fun _ => nofun) rfl⟩

theorem Led.mul (h : Led c l) (m : Language Char) : Led c (l * m) := by
  intro text htext
  obtain ⟨front, hfront, back, hback, rfl⟩ := Language.mem_mul.mp htext
  obtain ⟨front', hskip, hfront'⟩ := h front hfront
  refine ⟨front' ++ back, ?_, Language.append_mem_mul hfront' hback⟩
  rw [List.dropWhile_append, hskip]
  rfl

theorem Led.add (hl : Led c l) (hm : Led c m) : Led c (l + m) := by
  rintro text (htext | htext)
  · obtain ⟨back, hskip, hback⟩ := hl text htext
    exact ⟨back, hskip, Or.inl hback⟩
  · obtain ⟨back, hskip, hback⟩ := hm text htext
    exact ⟨back, hskip, Or.inr hback⟩

theorem Led.guards (h : Led c l) (hc : c.isDigit = false) : Guards l noDigit := by
  intro text htext rest d hd
  obtain ⟨back, hskip, -⟩ := h text htext
  cases text with
  | nil => cases hskip
  | cons d' text =>
    obtain rfl : d' = d := Option.some.inj hd
    cases hspace : isWhitespace d' with
    | true =>
      simp only [isWhitespace, Bool.or_eq_true, decide_eq_true_eq] at hspace
      rcases hspace with ((rfl | rfl) | rfl) | rfl <;> rfl
    | false =>
      rw [List.dropWhile_cons_of_neg (by simp [hspace])] at hskip
      exact (List.cons.inj hskip).1 ▸ hc

theorem led_listing {opening : Char} (h : isWhitespace opening = false) (closing : Char)
    (items : List (Language Char)) : Led opening (listing opening closing items) :=
  (led_token h []).mul _

theorem led_entry (key : String) (value : Language Char) : Led '"' (entry key value) :=
  (led_token (by decide) _).mul _

end led

/-! ### Tokens -/

section tokens

variable {c : Char}

theorem reads_expect (hc : isWhitespace c = false) : Reads Set.univ (expect c) (punct c) () :=
  fun _ _ _ htext _ => expect_ok (dropWhile_token hc htext _)

theorem reads_consume (hc : isWhitespace c = false) : Reads Set.univ (consume c) (punct c) true :=
  fun _ _ _ htext _ => consume_true (dropWhile_token hc htext _)

theorem consume_of_ne {d : Char} {text rest : List Char}
    (h : text.dropWhile isWhitespace = d :: rest) (hd : d ≠ c) (size : ℕ) :
    consume c size text = .ok (false, d :: rest) := by
  rw [consume_apply, h, if_neg (by simpa using hd)]

theorem reads_string {s : List Char} (hs : '"' ∉ s) :
    Reads Set.univ string (quoted s) s := by
  intro size text rest htext _
  refine string_ok (fun c hc h => hs (h ▸ hc)) ?_
  rw [dropWhile_token (by decide) htext rest, List.append_assoc, List.singleton_append]

theorem not_space_of_isDigit {d : Char} (hd : d.isDigit = true) :
    isWhitespace d = false ∧ isspace d = false := by
  have hlow : 48 ≤ d.toNat := by
    simp only [Char.isDigit, Bool.and_eq_true, decide_eq_true_eq] at hd
    exact hd.1
  constructor
  · by_contra h
    simp only [Bool.not_eq_false, isWhitespace, Bool.or_eq_true, decide_eq_true_eq] at h
    obtain ((rfl | rfl) | rfl) | rfl := h <;> exact absurd hlow (by decide)
  · by_contra h
    simp only [Bool.not_eq_false, isspace, Bool.or_eq_true, Bool.and_eq_true,
      decide_eq_true_eq] at h
    obtain rfl | ⟨-, hle⟩ := h
    · exact absurd hlow (by decide)
    · have hhigh : d.toNat ≤ 13 := hle
      omega

/-- `strtoll` stops where the digits end. -/
theorem strtoll_digits {n : ℕ} (hn : n < 2 ^ 63) {ds rest : List Char} (hds : ds ∈ digits n)
    (hrest : rest ∈ noDigit) : strtoll (ds ++ rest) = ((n : ℤ), rest) := by
  obtain ⟨hne, hdigit, hvalue⟩ := hds
  have hstop : rest.takeWhile Char.isDigit = [] ∧ rest.dropWhile Char.isDigit = rest := by
    cases rest with
    | nil => exact ⟨rfl, rfl⟩
    | cons d rest =>
      have hd : ¬d.isDigit = true := by simp [hrest d rfl]
      exact ⟨List.takeWhile_cons_of_neg hd, List.dropWhile_cons_of_neg hd⟩
  obtain ⟨d, ds, rfl⟩ := List.exists_cons_of_ne_nil hne
  have hd := hdigit d List.mem_cons_self
  have hspace : (d :: ds ++ rest).dropWhile isspace = d :: ds ++ rest :=
    List.dropWhile_cons_of_neg (by simp [(not_space_of_isDigit hd).2])
  have hsign : splitSign (d :: ds ++ rest) = (1, d :: ds ++ rest) := by
    refine splitSign_of_ne ?_ ?_ <;> rintro rfl <;> exact absurd hd (by decide)
  have hclamp : clampLongLong (1 * (n : ℤ)) = n := by
    rw [clampLongLong]
    omega
  simp only [strtoll, hspace, hsign]
  rw [List.takeWhile_append_of_pos hdigit, List.dropWhile_append_of_pos hdigit, hstop.1, hstop.2,
    List.append_nil, hvalue, hclamp]
  rfl

theorem reads_number {n : ℕ} (hn : n < 2 ^ 63) : Reads noDigit number (numeral n) (n : ℤ) := by
  intro size text rest htext hrest
  obtain ⟨front, hfront, ds, hds, rfl⟩ := Language.mem_mul.mp htext
  obtain ⟨d, ds', rfl⟩ := List.exists_cons_of_ne_nil hds.1
  have hskip : ((front ++ d :: ds') ++ rest).dropWhile isWhitespace = d :: ds' ++ rest := by
    rw [List.append_assoc, dropWhile_blanks hfront]
    have hd := not_space_of_isDigit (hds.2.1 d List.mem_cons_self)
    exact List.dropWhile_cons_of_neg (by simp [hd.1])
  refine number_ok ?_ ?_
  · exact (congrArg strtoll hskip).trans (strtoll_digits hn hds hrest)
  · refine ne_of_lt (lt_of_lt_of_eq ?_ (congrArg List.length hskip).symm)
    rw [List.length_append, List.length_cons]
    omega

end tokens

/-! ### Lists -/

section lists

variable {α : Type} {item : Cursor α} {l : α → Language Char} {opening closing : Char}

/-- The items before a closing bracket. -/
theorem commaList_of_reads (hlocal : Local item) (hclosing : isWhitespace closing = false)
    (hdigit : closing.isDigit = false) (hcomma : closing ≠ ',') {a : α} {as : List α}
    (hitem : ∀ b ∈ a :: as, Reads noDigit item (l b) b) (size : ℕ) {text tail rest : List Char}
    (htext : text ∈ separated (punct ',') ((a :: as).map l)) (htail : tail ∈ punct closing)
    (hskip : (tail ++ rest).dropWhile isWhitespace = closing :: rest) :
    commaList item size (text ++ (tail ++ rest)) = .ok (a :: as, closing :: rest) := by
  have hcommas : Guards (punct ',') noDigit := (led_token (by decide) []).guards (by decide)
  have hclose : tail ++ rest ∈ noDigit :=
    (led_token hclosing []).guards hdigit tail htail rest
  have hloop := sepBy_of_reads Stop.exhausted (reads_consume (by decide)) hcommas
    hclose (consume_of_ne hskip hcomma size) hitem htext (Nat.lt_succ_self _)
  -- the text is long enough to be the fuel
  obtain ⟨read, hread, henough⟩ := Local.sepBy hlocal (local_consume ',') consume_progress hloop
  change sepBy Stop.exhausted item (consume ',') ((text ++ (tail ++ rest)).length + 1) size
    (text ++ (tail ++ rest)) = _
  rw [hread]
  refine henough _ size _ (List.prefix_refl _) ?_
  rw [List.length_append]
  omega

/-- **Lists.** A list of items between brackets is read when each item is, and no item begins
with the closing bracket. -/
theorem reads_listOf (first : Char) (hopening : isWhitespace opening = false)
    (hclosing : isWhitespace closing = false) (hdigit : closing.isDigit = false)
    (hcomma : closing ≠ ',') (hfirst : first ≠ closing) (hlocal : Local item) {as : List α}
    (hled : ∀ a ∈ as, Led first (l a)) (hitem : ∀ a ∈ as, Reads noDigit item (l a) a) :
    Reads Set.univ (listOf opening closing item) (listing opening closing (as.map l)) as := by
  refine (reads_expect hopening).andThen fun size text rest htext _ => ?_
  obtain ⟨items, hitems, back, hback, rfl⟩ := Language.mem_mul.mp htext
  have hend := dropWhile_token hclosing hback rest
  cases as with
  | nil =>
    obtain rfl : items = [] := hitems
    rw [List.nil_append, Scanner.bind_ok (consume_true hend)]
    rfl
  | cons a as =>
    -- the white space before the first item goes with the look at the closing bracket
    have hled_items : Led first (separated (punct ',') ((a :: as).map l)) := by
      cases as with
      | nil => simpa using hled a
      | cons b as =>
        rw [List.map_cons, List.map_cons, separated_cons_cons]
        exact (hled a List.mem_cons_self).mul _
    obtain ⟨items', hskip, hitems'⟩ := hled_items items hitems
    have hfirst' : ((items ++ back) ++ rest).dropWhile isWhitespace =
        first :: (items' ++ (back ++ rest)) := by
      rw [List.append_assoc, List.dropWhile_append, hskip]
      rfl
    have hlist := commaList_of_reads hlocal hclosing hdigit hcomma hitem size hitems' hback hend
    have hexpect : expect closing size (closing :: rest) = .ok ((), rest) :=
      expect_ok (List.dropWhile_cons_of_neg (by simp [hclosing]))
    rw [Scanner.bind_ok (consume_of_ne hfirst' hfirst size)]
    change (commaList item >>= fun as => expect closing >>= fun _ => pure as) size
      (first :: items' ++ (back ++ rest)) = _
    rw [Scanner.bind_ok hlist, Scanner.bind_ok hexpect]
    rfl

end lists

/-! ### Texts without white space -/

theorem mem_token {l : Language Char} {text : List Char} (h : text ∈ l) : text ∈ blanks * l :=
  Language.append_mem_mul (a := []) (fun _ => nofun) h

theorem mem_numeral (n : ℕ) : Nat.toDigits 10 n ∈ numeral n :=
  mem_token ⟨Nat.toDigits_ne_nil, fun _ => Nat.isDigit_of_mem_toDigits (by decide) (by decide),
    Nat.ofDigitChars_ten_toDigits⟩

theorem mem_quoted (s : List Char) : '"' :: (s ++ ['"']) ∈ quoted s := mem_token rfl

theorem mem_entry (key : String) {value : Language Char} {text : List Char} (h : text ∈ value) :
    '"' :: (key.toList ++ ['"']) ++ ([':'] ++ text) ∈ entry key value :=
  Language.append_mem_mul (mem_quoted _) (Language.append_mem_mul (mem_token rfl) h)

theorem mem_listing (opening closing : Char) {texts : List (List Char)}
    {items : List (Language Char)} (h : List.Forall₂ (· ∈ ·) texts items) :
    [opening] ++ ((texts.intersperse [',']).flatten ++ [closing]) ∈
      listing opening closing items := by
  refine Language.append_mem_mul (mem_token rfl) (Language.append_mem_mul ?_ (mem_token rfl))
  induction h with
  | nil => rfl
  | cons htext htexts ih =>
    cases htexts with
    | nil => simpa using htext
    | cons htext' htexts =>
      rw [List.intersperse_cons_cons, separated_cons_cons]
      exact Language.append_mem_mul htext (Language.append_mem_mul (mem_token rfl) ih)

end Mos6502.Json
