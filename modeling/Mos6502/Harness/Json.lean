import Mos6502.Parsing.Scanner
import Mathlib.Data.Int.Order.Basic

/-!
# The JSON cursor

A cursor-based JSON reader, just enough for the test format. It walks the buffer once and
hands out values as they are encountered, and a callback reads each member of an object and
each element of an array. A text is a list of characters, one for each byte of the buffer.
-/

namespace Mos6502

open Parsing

namespace Json

/-- What stops a cursor: the exception that it throws. -/
inductive Stop
  | runtimeError (what : String)
  /-- A loop of this model ran out of fuel, which does not happen. -/
  | exhausted
  deriving DecidableEq, Repr

abbrev Cursor := Scanner Char Stop

def fail {α : Type} (message : String) : Cursor α := fun size text =>
  .error (.runtimeError ("json: " ++ message ++ " at offset " ++ toString (size - text.length)))

def isWhitespace (c : Char) : Bool := c = ' ' || c = '\t' || c = '\n' || c = '\r'

def skipWhitespace : Cursor Unit := do
  let _ ← Scanner.takeWhile isWhitespace

def atEnd : Cursor Bool := do
  skipWhitespace
  let text ← Scanner.remaining
  pure text.isEmpty

def peek : Cursor Char := do
  skipWhitespace
  let text ← Scanner.remaining
  match text with
  | [] => fail "unexpected end of input"
  | c :: _ => pure c

/-- Move past one character. -/
def advance : Cursor Unit := do
  let text ← Scanner.remaining
  Scanner.moveTo text.tail

def expect (c : Char) : Cursor Unit := do
  let d ← peek
  if d = c then advance else fail ("expected '" ++ c.toString ++ "'")

def consume (c : Char) : Cursor Bool := do
  let done ← atEnd
  let text ← Scanner.remaining
  if done || text.head? != some c then pure false
  else do
    advance
    pure true

/-- A view into the buffer: no escape processing. -/
def string : Cursor (List Char) := do
  expect '"'
  let text ← Scanner.takeWhile (· != '"')
  let rest ← Scanner.remaining
  if rest.isEmpty then fail "unterminated string"
  else do
    advance
    pure text

/-! ### Numbers -/

/-- White space of the C library. -/
def isspace (c : Char) : Bool := c = ' ' || ('\t' ≤ c && c ≤ '\r')

/-- An optional sign. -/
def splitSign : List Char → ℤ × List Char
  | '-' :: text => (-1, text)
  | '+' :: text => (1, text)
  | text => (1, text)

/-- A value outside the range of `long long` is replaced by the nearest one in it. -/
def clampLongLong (value : ℤ) : ℤ := max (-0x8000000000000000) (min 0x7FFFFFFFFFFFFFFF value)

/-- `std::strtoll` in base ten: the value, and the text where it stopped. That is the text where
it started when there is no number. -/
def strtoll (text : List Char) : ℤ × List Char :=
  let (sign, unsigned) := splitSign (text.dropWhile isspace)
  let digits := unsigned.takeWhile Char.isDigit
  if digits.isEmpty then (0, text)
  else (clampLongLong (sign * Nat.ofDigitChars 10 digits 0), unsigned.dropWhile Char.isDigit)

def number : Cursor ℤ := do
  skipWhitespace
  let text ← Scanner.remaining
  if (strtoll text).2.length = text.length then fail "expected a number"
  else do
    Scanner.moveTo (strtoll text).2
    pure (strtoll text).1

/-! ### Objects and arrays -/

section loops

variable {σ : Type}

/-- The loop over the members or elements. Each round reads a comma, so there are no more of
them than characters are left. -/
def commaLoop (body : StateT σ Cursor Unit) : StateT σ Cursor Unit := do
  let text ← (Scanner.remaining : Cursor (List Char))
  Scanner.doWhile .exhausted body (consume ',') (text.length + 1)

def object (onMember : List Char → StateT σ Cursor Unit) : StateT σ Cursor Unit := do
  expect '{'
  if ← consume '}' then pure ()
  else do
    commaLoop do
      let key ← string
      expect ':'
      onMember key
    expect '}'

def array (onElement : StateT σ Cursor Unit) : StateT σ Cursor Unit := do
  expect '['
  if ← consume ']' then pure ()
  else do
    commaLoop onElement
    expect ']'

end loops

/-! ### What the methods do -/

section methods

variable {c : Char} {size : ℕ} {text rest : List Char}

theorem peek_apply :
    peek size text = match text.dropWhile isWhitespace with
      | [] => fail "unexpected end of input" size []
      | d :: rest => .ok (d, d :: rest) := by
  change (match text.dropWhile isWhitespace with
    | [] => fail "unexpected end of input"
    | d :: _ => pure d : Cursor Char) size (text.dropWhile isWhitespace) = _
  cases text.dropWhile isWhitespace <;> rfl

theorem expect_ok (h : text.dropWhile isWhitespace = c :: rest) :
    expect c size text = .ok ((), rest) := by
  have hpeek : peek size text = .ok (c, c :: rest) := by rw [peek_apply, h]
  rw [expect, Scanner.bind_ok hpeek, if_pos rfl]
  rfl

theorem expect_eq_ok (h : expect c size text = .ok ((), rest)) :
    text.dropWhile isWhitespace = c :: rest := by
  obtain ⟨d, mid, hpeek, h⟩ := Scanner.bind_eq_ok h
  rw [peek_apply] at hpeek
  generalize text.dropWhile isWhitespace = skipped at *
  cases skipped with
  | nil => cases hpeek
  | cons d' rest' =>
    cases hpeek
    split at h
    · rename_i hd
      cases h
      rw [hd]
      rfl
    · cases h

theorem consume_apply :
    consume c size text =
      if (text.dropWhile isWhitespace).head? = some c then
        .ok (true, (text.dropWhile isWhitespace).tail)
      else .ok (false, text.dropWhile isWhitespace) := by
  change (if (text.dropWhile isWhitespace).isEmpty ||
      (text.dropWhile isWhitespace).head? != some c then pure false
    else do
      advance
      pure true : Cursor Bool) size (text.dropWhile isWhitespace) = _
  cases text.dropWhile isWhitespace with
  | nil => rfl
  | cons d rest =>
    by_cases h : d = c
    · simp [h]
      rfl
    · simp [h]

theorem consume_true (h : text.dropWhile isWhitespace = c :: rest) :
    consume c size text = .ok (true, rest) := by
  rw [consume_apply, h]
  simp

theorem consume_eq_true (h : consume c size text = .ok (true, rest)) :
    text.dropWhile isWhitespace = c :: rest := by
  rw [consume_apply] at h
  split at h
  · obtain ⟨-, hrest⟩ := Prod.mk.inj (Except.ok.inj h)
    rename_i hhead
    rw [← hrest]
    exact (List.cons_head?_tail hhead).symm
  · cases h

theorem consume_progress (h : consume c size text = .ok (true, rest)) :
    rest.length < text.length := by
  have hskip := List.length_dropWhile_le isWhitespace text
  rw [consume_eq_true h, List.length_cons] at hskip
  omega

theorem string_ok {name : List Char} (hname : ∀ c ∈ name, c ≠ '"')
    (h : text.dropWhile isWhitespace = '"' :: (name ++ '"' :: rest)) :
    string size text = .ok (name, rest) := by
  have hall : ∀ c ∈ name, (c != '"') = true := fun c hc => bne_iff_ne.mpr (hname c hc)
  rw [string, Scanner.bind_ok (expect_ok h), Scanner.bind_ok rfl,
    List.takeWhile_append_of_pos hall, List.dropWhile_append_of_pos hall]
  simp
  rfl

theorem string_eq_ok {name : List Char} (h : string size text = .ok (name, rest)) :
    text.dropWhile isWhitespace = '"' :: (name ++ '"' :: rest) ∧ ∀ c ∈ name, c ≠ '"' := by
  obtain ⟨_, mid, hquote, h⟩ := Scanner.bind_eq_ok h
  obtain ⟨name', mid', hname, h⟩ := Scanner.bind_eq_ok h
  obtain ⟨left, mid'', hleft, h⟩ := Scanner.bind_eq_ok h
  cases hname
  cases hleft
  split at h
  · cases h
  rename_i hend
  cases h
  have hcons : mid.dropWhile (· != '"') ≠ [] := by simpa using hend
  have hclose : (mid.dropWhile (· != '"')).head hcons = '"' := by
    simpa using List.head_dropWhile_not (· != '"') hcons
  have hrest : mid.dropWhile (· != '"') = '"' :: (mid.dropWhile (· != '"')).tail :=
    (List.cons_head_tail hcons).symm.trans (by rw [hclose])
  refine ⟨?_, fun c hc => ?_⟩
  · rw [expect_eq_ok hquote, ← hrest, List.takeWhile_append_dropWhile]
  · exact bne_iff_ne.mp (List.mem_takeWhile_imp (p := (· != '"')) hc)

theorem number_apply :
    number size text =
      if (strtoll (text.dropWhile isWhitespace)).2.length =
        (text.dropWhile isWhitespace).length then
        fail "expected a number" size (text.dropWhile isWhitespace)
      else .ok (strtoll (text.dropWhile isWhitespace)) := by
  change (if (strtoll (text.dropWhile isWhitespace)).2.length =
      (text.dropWhile isWhitespace).length then fail "expected a number"
    else do
      Scanner.moveTo (strtoll (text.dropWhile isWhitespace)).2
      pure (strtoll (text.dropWhile isWhitespace)).1 : Cursor ℤ) size
        (text.dropWhile isWhitespace) = _
  split <;> rfl

theorem number_ok {value : ℤ} (h : strtoll (text.dropWhile isWhitespace) = (value, rest))
    (hread : rest.length ≠ (text.dropWhile isWhitespace).length) :
    number size text = .ok (value, rest) := by
  rw [number_apply, h, if_neg hread]

theorem number_eq_ok {value : ℤ} (h : number size text = .ok (value, rest)) :
    strtoll (text.dropWhile isWhitespace) = (value, rest) ∧
      rest.length ≠ (text.dropWhile isWhitespace).length := by
  rw [number_apply] at h
  split at h
  · cases h
  · rename_i hread
    obtain hvalue := Except.ok.inj h
    exact ⟨hvalue, by rwa [hvalue] at hread⟩

end methods

/-! ### The methods do not look ahead -/

theorem local_expect (c : Char) : Scanner.Local (expect c) := by
  intro size text u rest h
  have hskip := expect_eq_ok h
  refine ⟨text.takeWhile isWhitespace ++ [c], ?_, fun size' rest' _ => ?_⟩
  · rw [List.append_assoc, List.singleton_append, ← hskip, List.takeWhile_append_dropWhile]
  · rw [List.append_assoc, List.singleton_append]
    exact expect_ok (Scanner.dropWhile_append_cons hskip rest')

theorem local_consume (c : Char) : Scanner.Local (consume c) := by
  intro size text b rest h
  cases b with
  | true =>
    have hskip := consume_eq_true h
    refine ⟨text.takeWhile isWhitespace ++ [c], ?_, fun size' rest' _ => ?_⟩
    · rw [List.append_assoc, List.singleton_append, ← hskip, List.takeWhile_append_dropWhile]
    · rw [List.append_assoc, List.singleton_append]
      exact consume_true (Scanner.dropWhile_append_cons hskip rest')
  | false =>
    rw [consume_apply] at h
    split at h
    · cases h
    rename_i hhead
    obtain ⟨-, rfl⟩ := Prod.mk.inj (Except.ok.inj h)
    refine ⟨text.takeWhile isWhitespace, List.takeWhile_append_dropWhile.symm,
      fun size' rest' hrest => ?_⟩
    rw [consume_apply, (Scanner.takeWhile_append_rest hrest).2, if_neg]
    obtain ⟨more, hmore⟩ := hrest
    cases rest' with
    | nil => simp
    | cons d rest' => simpa [← hmore] using hhead

theorem local_string : Scanner.Local string := by
  intro size text name rest h
  obtain ⟨hskip, hname⟩ := string_eq_ok h
  refine ⟨text.takeWhile isWhitespace ++ '"' :: (name ++ ['"']), ?_, fun size' rest' _ => ?_⟩
  · simp only [List.append_assoc, List.cons_append, List.nil_append]
    rw [← hskip, List.takeWhile_append_dropWhile]
  · simp only [List.append_assoc, List.cons_append, List.nil_append]
    exact string_ok hname (Scanner.dropWhile_append_cons hskip _)

theorem splitSign_of_ne {c : Char} {text : List Char} (hminus : c ≠ '-') (hplus : c ≠ '+') :
    splitSign (c :: text) = (1, c :: text) := by
  unfold splitSign
  split <;> simp_all

/-- The sign in front of a digit is the same whatever follows the digits. -/
theorem splitSign_append (text : List Char) :
    ∃ sign, text = sign ++ (splitSign text).2 ∧ ∀ d digits rest,
      (splitSign text).2.takeWhile Char.isDigit = d :: digits →
        splitSign (sign ++ (d :: digits ++ rest)) = ((splitSign text).1, d :: digits ++ rest) := by
  unfold splitSign
  split
  · exact ⟨['-'], rfl, fun _ _ _ _ => rfl⟩
  · exact ⟨['+'], rfl, fun _ _ _ _ => rfl⟩
  · refine ⟨[], rfl, fun d digits rest h => splitSign_of_ne ?_ ?_⟩
    all_goals
      rintro rfl
      have := List.mem_takeWhile_imp (h ▸ List.mem_cons_self)
      revert this
      decide

/-- What `strtoll` reads does not depend on what follows. -/
theorem strtoll_append {text rest : List Char} {value : ℤ} (h : strtoll text = (value, rest))
    (hread : rest.length ≠ text.length) :
    ∃ read, text = read ++ rest ∧ read ≠ [] ∧
      ∀ rest', rest' <+: rest → strtoll (read ++ rest') = (value, rest') := by
  simp only [strtoll] at h
  split at h
  · cases h
    exact absurd rfl hread
  rename_i hdigits
  obtain ⟨hvalue, hrest⟩ := Prod.mk.inj h
  obtain ⟨sign, htext, hsign⟩ := splitSign_append (text.dropWhile isspace)
  generalize hunsigned : (splitSign (text.dropWhile isspace)).2 = unsigned at *
  obtain ⟨d, digits, hd⟩ := List.exists_cons_of_ne_nil (mt List.isEmpty_iff.mpr hdigits)
  have hsplit : unsigned = d :: digits ++ rest := by
    rw [← hd, ← hrest, List.takeWhile_append_dropWhile]
  -- the space, the sign and the digits
  obtain ⟨c, signed, hc⟩ : ∃ c signed, sign ++ d :: digits = c :: signed :=
    List.exists_cons_of_ne_nil (by simp)
  have hstart (rest' : List Char) : (text.takeWhile isspace ++ (sign ++ d :: digits) ++
      rest').dropWhile isspace = sign ++ (d :: digits ++ rest') := by
    have hskip : text.dropWhile isspace = c :: (signed ++ rest) := by
      rw [htext, hsplit, ← List.append_assoc, hc, List.cons_append]
    rw [List.append_assoc, hc, List.cons_append, Scanner.dropWhile_append_cons hskip,
      ← List.cons_append, ← hc, List.append_assoc]
  refine ⟨text.takeWhile isspace ++ (sign ++ d :: digits), ?_, by simp, fun rest' hrest' => ?_⟩
  · rw [List.append_assoc, List.append_assoc, ← hsplit, ← htext, List.takeWhile_append_dropWhile]
  · rw [← hrest] at hrest'
    obtain ⟨htake, hdrop⟩ := Scanner.takeWhile_append_rest hrest'
    rw [hd] at htake hdrop
    simp only [strtoll, hstart, hsign d digits rest' hd, htake, hdrop]
    rw [← hvalue, hd]
    simp

theorem local_number : Scanner.Local number := by
  intro size text value rest h
  obtain ⟨hstrtoll, hread⟩ := number_eq_ok h
  obtain ⟨read, htext, hne, happend⟩ := strtoll_append hstrtoll hread
  obtain ⟨c, read, rfl⟩ := List.exists_cons_of_ne_nil hne
  rw [List.cons_append] at htext
  refine ⟨text.takeWhile isWhitespace ++ c :: read, ?_, fun size' rest' hrest' => ?_⟩
  · rw [List.append_assoc, List.cons_append, ← htext, List.takeWhile_append_dropWhile]
  · rw [List.append_assoc, List.cons_append]
    refine number_ok ?_ ?_
    · rw [Scanner.dropWhile_append_cons htext]
      exact happend rest' hrest'
    · rw [Scanner.dropWhile_append_cons htext, List.length_cons, List.length_append]
      omega

/-! ### Reading the values first -/

section values

variable {α σ : Type}

/-- The items of a loop, as a list. -/
def commaList (item : Cursor α) : Cursor (List α) := do
  let text ← Scanner.remaining
  Scanner.sepBy .exhausted item (consume ',') (text.length + 1)

/-- The items between two brackets. -/
def listOf (opening closing : Char) (item : Cursor α) : Cursor (List α) := do
  expect opening
  if ← consume closing then pure []
  else do
    let as ← commaList item
    expect closing
    pure as

def arrayOf (element : Cursor α) : Cursor (List α) := listOf '[' ']' element

def objectOf (member : List Char → Cursor α) : Cursor (List α) :=
  listOf '{' '}' do
    let key ← string
    expect ':'
    member key

variable {item : Cursor α} (update : σ → α → σ)

theorem commaLoop_run {body : StateT σ Cursor Unit}
    (hbody : ∀ s, body.run s = item >>= fun a => pure ((), update s a)) (s : σ) :
    (commaLoop body).run s = commaList item >>= fun as => pure ((), as.foldl update s) := by
  simp only [commaLoop, commaList, StateT.run_bind, StateT.run_monadLift, monadLift_self,
    bind_assoc, pure_bind]
  exact bind_congr fun text => Scanner.doWhile_eq hbody _ s

/-- **Arrays.** A callback that updates a state with each element can as well update it when
all elements are read. -/
theorem array_run (item : Cursor α) {body : StateT σ Cursor Unit}
    (hbody : ∀ s, body.run s = item >>= fun a => pure ((), update s a)) (s : σ) :
    (array body).run s = arrayOf item >>= fun as => pure ((), as.foldl update s) := by
  simp only [array, arrayOf, listOf, StateT.run_bind, StateT.run_monadLift, monadLift_self,
    bind_assoc, pure_bind]
  refine bind_congr fun _ => bind_congr fun closed => ?_
  cases closed with
  | true => simp
  | false => simp [commaLoop_run update hbody]

/-- **Objects.** The same for the members of an object. -/
theorem object_run {onMember : List Char → StateT σ Cursor Unit} {member : List Char → Cursor α}
    (hmember : ∀ key s, (onMember key).run s = member key >>= fun a => pure ((), update s a))
    (s : σ) :
    (object onMember).run s = objectOf member >>= fun as => pure ((), as.foldl update s) := by
  have hbody (s : σ) : (do
      let key ← (string : Cursor (List Char))
      expect ':'
      onMember key : StateT σ Cursor Unit).run s =
        (do
          let key ← string
          expect ':'
          member key) >>= fun a => pure ((), update s a) := by
    simp [hmember]
  simp only [object, objectOf, listOf, StateT.run_bind, StateT.run_monadLift, monadLift_self,
    bind_assoc, pure_bind]
  refine bind_congr fun _ => bind_congr fun closed => ?_
  cases closed with
  | true => simp
  | false => simp [commaLoop_run update hbody]

theorem local_commaList (hitem : Scanner.Local item) : Scanner.Local (commaList item) := by
  intro size text as rest h
  obtain ⟨read, rfl, hread⟩ := Scanner.Local.sepBy hitem (local_consume ',') consume_progress h
  refine ⟨read, rfl, fun size' rest' hrest => hread _ size' rest' hrest ?_⟩
  rw [List.length_append]
  omega

theorem local_listOf {opening closing : Char} (hitem : Scanner.Local item) :
    Scanner.Local (listOf opening closing item) := by
  refine (local_expect opening).bind fun _ => (local_consume closing).bind fun closed => ?_
  cases closed with
  | true => exact .pure []
  | false =>
    exact (local_commaList hitem).bind fun as => (local_expect closing).bind fun _ => .pure as

theorem local_objectOf {member : List Char → Cursor α}
    (hmember : ∀ key, Scanner.Local (member key)) :
    Scanner.Local (objectOf member) :=
  local_listOf (local_string.bind fun key => (local_expect ':').bind fun _ => hmember key)

theorem listOf_map {γ : Type} (f : α → γ) (opening closing : Char) :
    listOf opening closing (f <$> item) = List.map f <$> listOf opening closing item := by
  simp only [listOf, commaList, Scanner.sepBy_map, map_bind, bind_map_left, bind_assoc]
  refine bind_congr fun _ => bind_congr fun closed => ?_
  cases closed with
  | true => simp
  | false => simp

theorem forall_of_listOf {P : α → Prop} {opening closing : Char}
    (hitem : ∀ {size text a rest}, item size text = .ok (a, rest) → P a) {size : ℕ}
    {text rest : List Char} {as : List α}
    (h : listOf opening closing item size text = .ok (as, rest)) : ∀ a ∈ as, P a := by
  obtain ⟨_, _, -, h⟩ := Scanner.bind_eq_ok h
  obtain ⟨closed, _, -, h⟩ := Scanner.bind_eq_ok h
  cases closed with
  | true =>
    cases h
    exact nofun
  | false =>
    obtain ⟨as', _, has, h⟩ := Scanner.bind_eq_ok h
    obtain ⟨_, _, -, h⟩ := Scanner.bind_eq_ok h
    cases h
    exact Scanner.forall_of_sepBy hitem has

/-! ### The loops end -/

theorem avoids_expect (c : Char) : Scanner.Avoids .exhausted (expect c) := by
  have hpeek : Scanner.Avoids .exhausted peek := by
    refine Scanner.Avoids.bind nofun fun _ => Scanner.Avoids.bind nofun fun text => ?_
    cases text <;> exact nofun
  refine hpeek.bind fun d => ?_
  split <;> exact nofun

theorem avoids_consume (c : Char) : Scanner.Avoids .exhausted (consume c) := by
  intro size text h
  rw [consume_apply] at h
  split at h <;> cases h

theorem avoids_string : Scanner.Avoids .exhausted string := by
  refine (avoids_expect '"').bind fun _ => Scanner.Avoids.bind nofun fun text =>
    Scanner.Avoids.bind nofun fun rest => ?_
  split <;> exact nofun

theorem avoids_number : Scanner.Avoids .exhausted number := by
  refine Scanner.Avoids.bind nofun fun _ => Scanner.Avoids.bind nofun fun text => ?_
  split <;> exact nofun

theorem avoids_listOf {opening closing : Char} (hlocal : Scanner.Local item)
    (hitem : Scanner.Avoids .exhausted item) :
    Scanner.Avoids .exhausted (listOf opening closing item) := by
  have hloop : Scanner.Avoids .exhausted (commaList item) := fun size text =>
    Scanner.Avoids.sepBy hitem hlocal (avoids_consume ',') consume_progress (Nat.lt_succ_self _)
  refine (avoids_expect opening).bind fun _ => (avoids_consume closing).bind fun closed => ?_
  cases closed with
  | true => exact .pure _ _
  | false => exact hloop.bind fun as => (avoids_expect closing).bind fun _ => .pure _ _

theorem avoids_objectOf {member : List Char → Cursor α}
    (hlocal : ∀ key, Scanner.Local (member key))
    (hmember : ∀ key, Scanner.Avoids .exhausted (member key)) :
    Scanner.Avoids .exhausted (objectOf member) :=
  avoids_listOf (local_string.bind fun key => (local_expect ':').bind fun _ => hlocal key)
    (avoids_string.bind fun key => (avoids_expect ':').bind fun _ => hmember key)

end values

end Json

end Mos6502
