import Mos6502.Harness.RoundTrip
import Mos6502.Parsing.Acceptance

/-!
# The texts that the runner accepts

The reader takes more than the format: numbers may have a sign and any space of the C library
before it, they may be too large, members may be missing or be there twice, and anything may
follow the document. Here is the grammar of just the texts that are accepted.
-/

namespace Mos6502

open Parsing Parsing.Scanner

namespace Json

/-! ### Tokens -/

theorem takeWhile_blanks (text : List Char) : text.takeWhile isWhitespace ∈ blanks := by
  intro c hc
  have hspace := List.mem_takeWhile_imp hc
  simp only [isWhitespace, Bool.or_eq_true, decide_eq_true_eq] at hspace
  tauto

theorem mem_punct {c : Char} {text rest : List Char} (h : text.dropWhile isWhitespace = c :: rest) :
    ∃ front ∈ punct c, text = front ++ rest := by
  refine ⟨text.takeWhile isWhitespace ++ [c],
    Language.append_mem_mul (takeWhile_blanks text) rfl, ?_⟩
  rw [List.append_assoc, List.singleton_append, ← h, List.takeWhile_append_dropWhile]

theorem only_expect (c : Char) : Only (expect c) fun _ => punct c :=
  fun _ _ _ _ h => mem_punct (expect_eq_ok h)

theorem only_consume (c : Char) :
    Only (consume c) fun found => if found then punct c else blanks := by
  intro size text found rest h
  cases found with
  | true => exact mem_punct (consume_eq_true h)
  | false =>
    rw [consume_apply] at h
    split at h
    · cases h
    · cases h
      exact ⟨_, takeWhile_blanks text, List.takeWhile_append_dropWhile.symm⟩

/-- A string that can be written, which has no quotes. -/
def written (s : List Char) : Language Char := {text | '"' ∉ s ∧ text ∈ quoted s}

theorem only_string : Only string written := by
  intro size text s rest h
  obtain ⟨hskip, hs⟩ := string_eq_ok h
  refine ⟨text.takeWhile isWhitespace ++ '"' :: (s ++ ['"']),
    ⟨fun hmem => hs _ hmem rfl, Language.append_mem_mul (takeWhile_blanks text) rfl⟩, ?_⟩
  simp only [List.append_assoc, List.cons_append, List.nil_append]
  rw [← hskip, List.takeWhile_append_dropWhile]

theorem reads_written (s : List Char) : Reads Set.univ string (written s) s :=
  fun _ _ _ htext hrest => reads_string htext.1 htext.2 hrest

/-- The sign of a number, and the factor that it stands for. -/
def signs : List (ℤ × List Char) := [(1, []), (1, ['+']), (-1, ['-'])]

/-- What `strtoll` reads as a value. -/
def strtollText (value : ℤ) : Language Char :=
  {text | ∃ spaces sign n ds, (∀ c ∈ spaces, isspace c = true) ∧ sign ∈ signs ∧ ds ∈ digits n ∧
    clampLongLong (sign.1 * n) = value ∧ text = spaces ++ (sign.2 ++ ds)}

def signedNumber (value : ℤ) : Language Char := blanks * strtollText value

theorem splitSign_signs {sign : ℤ × List Char} (h : sign ∈ signs) {d : Char} {rest : List Char}
    (hd : d.isDigit = true) : splitSign (sign.2 ++ d :: rest) = (sign.1, d :: rest) := by
  simp only [signs, List.mem_cons, List.not_mem_nil, or_false] at h
  rcases h with rfl | rfl | rfl
  · refine splitSign_of_ne ?_ ?_ <;> rintro rfl <;> exact absurd hd (by decide)
  · rfl
  · rfl

theorem exists_sign (text : List Char) :
    ∃ sign ∈ signs, splitSign text = (sign.1, (splitSign text).2) ∧
      text = sign.2 ++ (splitSign text).2 := by
  unfold splitSign
  split
  · exact ⟨(-1, ['-']), by simp [signs], rfl, rfl⟩
  · exact ⟨(1, ['+']), by simp [signs], rfl, rfl⟩
  · exact ⟨(1, []), by simp [signs], rfl, rfl⟩

/-- Digits that no digit follows are read to their end. -/
theorem takeWhile_digits {n : ℕ} {ds rest : List Char} (hds : ds ∈ digits n)
    (hrest : rest ∈ noDigit) :
    (ds ++ rest).takeWhile Char.isDigit = ds ∧ (ds ++ rest).dropWhile Char.isDigit = rest := by
  rw [List.takeWhile_append_of_pos hds.2.1, List.dropWhile_append_of_pos hds.2.1]
  cases rest with
  | nil => simp
  | cons d rest =>
    have hd : ¬d.isDigit = true := by simp [hrest d rfl]
    rw [List.takeWhile_cons_of_neg hd, List.dropWhile_cons_of_neg hd, List.append_nil]
    exact ⟨rfl, rfl⟩

/-- The text of a number without the space before it begins with neither kind of space. -/
theorem head_signed {sign : ℤ × List Char} (hsign : sign ∈ signs) {n : ℕ} {ds : List Char}
    (hds : ds ∈ digits n) (rest : List Char) : ∃ c back,
      sign.2 ++ (ds ++ rest) = c :: back ∧ isWhitespace c = false ∧ isspace c = false := by
  obtain ⟨d, ds, rfl⟩ := List.exists_cons_of_ne_nil hds.1
  simp only [signs, List.mem_cons, List.not_mem_nil, or_false] at hsign
  rcases hsign with rfl | rfl | rfl
  · exact ⟨d, ds ++ rest, rfl, not_space_of_isDigit (hds.2.1 d List.mem_cons_self)⟩
  · exact ⟨'+', _, rfl, rfl, rfl⟩
  · exact ⟨'-', _, rfl, rfl, rfl⟩

theorem strtoll_of_signed {spaces : List Char} (hspaces : ∀ c ∈ spaces, isspace c = true)
    {sign : ℤ × List Char} (hsign : sign ∈ signs) {n : ℕ} {ds rest : List Char}
    (hds : ds ∈ digits n) (hrest : rest ∈ noDigit) :
    strtoll (spaces ++ (sign.2 ++ (ds ++ rest))) = (clampLongLong (sign.1 * n), rest) := by
  obtain ⟨c, back, hhead, -, hc⟩ := head_signed hsign hds rest
  have hskip : (spaces ++ (sign.2 ++ (ds ++ rest))).dropWhile isspace =
      sign.2 ++ (ds ++ rest) := by
    rw [List.dropWhile_append_of_pos hspaces, hhead, List.dropWhile_cons_of_neg (by simp [hc])]
  obtain ⟨d, ds', hd⟩ := List.exists_cons_of_ne_nil hds.1
  have hsplit : splitSign (sign.2 ++ (ds ++ rest)) = (sign.1, ds ++ rest) := by
    rw [hd]
    exact splitSign_signs hsign (hds.2.1 d (hd ▸ List.mem_cons_self))
  obtain ⟨htake, hdrop⟩ := takeWhile_digits hds hrest
  have hempty : ds.isEmpty = false := by rw [hd]; rfl
  simp only [strtoll, hskip, hsplit, htake, hdrop, hempty, Bool.false_eq_true, if_false, hds.2.2]

theorem reads_signedNumber (value : ℤ) : Reads noDigit number (signedNumber value) value := by
  intro size text rest htext hrest
  obtain ⟨front, hfront, _, ⟨spaces, sign, n, ds, hspaces, hsign, hds, rfl, rfl⟩, rfl⟩ :=
    Language.mem_mul.mp htext
  obtain ⟨c, back, hhead, hc, -⟩ := head_signed hsign hds rest
  -- white space at the start of the spaces is skipped first
  obtain ⟨spaces', hspaces', hskip⟩ : ∃ spaces', (∀ c ∈ spaces', isspace c = true) ∧
      (front ++ (spaces ++ (sign.2 ++ ds)) ++ rest).dropWhile isWhitespace =
        spaces' ++ (sign.2 ++ (ds ++ rest)) := by
    refine ⟨spaces.dropWhile isWhitespace, fun c hc =>
      hspaces c ((List.dropWhile_sublist _).subset hc), ?_⟩
    simp only [List.append_assoc]
    rw [dropWhile_blanks hfront, List.dropWhile_append, hhead,
      List.dropWhile_cons_of_neg (by simp [hc])]
    split
    · next hempty => rw [List.isEmpty_iff.mp hempty, List.nil_append]
    · rfl
  have hstrtoll := strtoll_of_signed hspaces' hsign hds hrest
  rw [← hskip] at hstrtoll
  refine number_ok hstrtoll ?_
  obtain ⟨d, ds, rfl⟩ := List.exists_cons_of_ne_nil hds.1
  rw [hskip]
  simp only [List.length_append, List.length_cons]
  omega

theorem only_number : Only number signedNumber := by
  intro size text value rest h
  obtain ⟨hstrtoll, hread⟩ := number_eq_ok h
  generalize hskipped : text.dropWhile isWhitespace = skipped at hstrtoll hread
  obtain ⟨sign, hsign, hsplit, hsigned⟩ := exists_sign (skipped.dropWhile isspace)
  generalize (splitSign (skipped.dropWhile isspace)).2 = unsigned at hsplit hsigned
  simp only [strtoll, hsplit] at hstrtoll
  split at hstrtoll
  · cases hstrtoll
    exact absurd rfl hread
  next hdigits =>
    obtain ⟨hvalue, hrest⟩ := Prod.mk.inj hstrtoll
    refine ⟨text.takeWhile isWhitespace ++ (skipped.takeWhile isspace ++
      (sign.2 ++ unsigned.takeWhile Char.isDigit)),
      Language.append_mem_mul (takeWhile_blanks text) ⟨_, sign, _, _,
        fun c hc => List.mem_takeWhile_imp hc, hsign,
        ⟨mt List.isEmpty_iff.mpr hdigits, fun c hc => List.mem_takeWhile_imp hc, rfl⟩,
        hvalue, rfl⟩, ?_⟩
    simp only [List.append_assoc]
    rw [← hrest, List.takeWhile_append_dropWhile, ← hsigned, List.takeWhile_append_dropWhile,
      ← hskipped, List.takeWhile_append_dropWhile]

/-! ### Lists -/

/-- White space may be put in front of the texts of the language. -/
def Absorbs (l : Language Char) : Prop := ∀ text ∈ blanks * l, text ∈ l

theorem absorbs_blanks (l : Language Char) : Absorbs (blanks * l) := by
  intro text htext
  obtain ⟨front, hfront, _, ⟨mid, hmid, back, hback, rfl⟩, rfl⟩ := Language.mem_mul.mp htext
  refine ⟨front ++ mid, fun c hc => ?_, back, hback, List.append_assoc ..⟩
  rcases List.mem_append.mp hc with hc | hc
  · exact hfront c hc
  · exact hmid c hc

theorem Absorbs.mul {l : Language Char} (h : Absorbs l) (m : Language Char) : Absorbs (l * m) := by
  intro text htext
  rw [← mul_assoc] at htext
  obtain ⟨front, hfront, back, hback, rfl⟩ := Language.mem_mul.mp htext
  exact Language.append_mem_mul (h front hfront) hback

section lists

variable {α : Type} {item : Cursor α} {l : α → Language Char}

theorem only_commaList (hitem : Only item l) : Only (commaList item) fun as =>
    {text | as ≠ [] ∧ text ∈ separated (punct ',') (as.map l) * blanks} :=
  fun _ text _ _ h =>
    Only.sepBy Stop.exhausted hitem (only_consume ',') (text.length + 1) h

/-- **Lists.** -/
theorem only_listOf (opening closing : Char) (hitem : Only item l)
    (habsorbs : ∀ a, Absorbs (l a)) :
    Only (listOf opening closing item) fun as => listing opening closing (as.map l) := by
  refine (only_expect opening).bind (m := fun _ as =>
    separated (punct ',') (as.map l) * punct closing) (fun _ => ?_)
    fun _ _ _ htext => by exact htext
  intro size text as rest h
  obtain ⟨closed, mid, hclosed, h⟩ := bind_eq_ok h
  obtain ⟨front, hfront, rfl⟩ := only_consume closing hclosed
  cases closed with
  | true =>
    cases h
    exact ⟨front, by simpa using hfront, rfl⟩
  | false =>
    obtain ⟨as', mid', hitems, h⟩ := bind_eq_ok h
    obtain ⟨_, mid'', hexpect, h⟩ := bind_eq_ok h
    cases h
    obtain ⟨items, ⟨hne, hseparated⟩, rfl⟩ := only_commaList hitem hitems
    obtain ⟨back, hback, rfl⟩ := only_expect closing hexpect
    obtain ⟨read, hread, space, hspace, rfl⟩ := Language.mem_mul.mp hseparated
    -- the white space that was looked through goes to the first item and to the bracket
    obtain ⟨a, as, rfl⟩ := List.exists_cons_of_ne_nil hne
    have hfirst : Absorbs (separated (punct ',') ((a :: as).map l)) := by
      cases as with
      | nil => simpa using habsorbs a
      | cons b as =>
        rw [List.map_cons, List.map_cons, separated_cons_cons]
        exact (habsorbs a).mul _
    refine ⟨(front ++ read) ++ (space ++ back), Language.append_mem_mul
      (hfirst _ (Language.append_mem_mul hfront hread))
      (absorbs_blanks _ _ (Language.append_mem_mul hspace hback)), ?_⟩
    simp only [List.append_assoc]

end lists

end Json

namespace Harness

open Json

/-! ### The grammar -/

/-- A number that is truncated to a word, or to a byte. -/
def wordText (w : U16) : Language Char :=
  {text | ∃ n, BitVec.ofInt 16 n = w ∧ text ∈ signedNumber n}

def byteText (b : U8) : Language Char :=
  {text | ∃ n, BitVec.ofInt 8 n = b ∧ text ∈ signedNumber n}

namespace Accepted

def ramEntry (e : U16 × U8) : Language Char := listing '[' ']' [wordText e.1, byteText e.2]

/-- Every kind of cycle but a write is a read. -/
def cycle (record : CycleRecord) : Language Char :=
  {text | ∃ kind, decide (kind = "write".toList) = record.isWrite ∧
    text ∈ listing '[' ']' [wordText record.addr, byteText record.value, written kind]}

def stateMember : StateMember → Language Char
  | .pc value => entry "pc" (wordText value)
  | .s value => entry "s" (byteText value)
  | .a value => entry "a" (byteText value)
  | .x value => entry "x" (byteText value)
  | .y value => entry "y" (byteText value)
  | .p value => entry "p" (byteText value)
  | .ram entries => entry "ram" (listing '[' ']' (entries.map ramEntry))

def state (members : List StateMember) : Language Char :=
  listing '{' '}' (members.map stateMember)

def caseMember : CaseMember → Language Char
  | .name chars => entry "name" (written chars)
  | .initial members => entry "initial" (state members)
  | .final members => entry "final" (state members) + entry "expected" (state members)
  | .cycles records => entry "cycles" (listing '[' ']' (records.map cycle))

def case (members : List CaseMember) : Language Char :=
  listing '{' '}' (members.map caseMember)

def document (cases : List (List CaseMember)) : Language Char :=
  listing '[' ']' (cases.map case)

end Accepted

/-! ### What is accepted is well formed -/

theorem only_word : Only readWord wordText :=
  only_number.map fun n _ htext => ⟨n, rfl, htext⟩

theorem only_byte : Only readByte byteText :=
  only_number.map fun n _ htext => ⟨n, rfl, htext⟩

theorem only_readRamEntry : Only readRamEntry Accepted.ramEntry := by
  intro size text e rest h
  obtain ⟨_, _, hopen, h⟩ := bind_eq_ok h
  obtain ⟨_, _, hreadAddr, h⟩ := bind_eq_ok h
  obtain ⟨_, _, hfirst, h⟩ := bind_eq_ok h
  obtain ⟨_, _, hreadValue, h⟩ := bind_eq_ok h
  obtain ⟨_, _, hclose, h⟩ := bind_eq_ok h
  cases h
  obtain ⟨opening, hopening, rfl⟩ := only_expect _ hopen
  obtain ⟨addr, haddr, rfl⟩ := only_word hreadAddr
  obtain ⟨comma, hcomma, rfl⟩ := only_expect _ hfirst
  obtain ⟨value, hvalue, rfl⟩ := only_byte hreadValue
  obtain ⟨closing, hclosing, rfl⟩ := only_expect _ hclose
  refine ⟨opening ++ ((addr ++ (comma ++ value)) ++ closing), ?_, by simp⟩
  rw [Accepted.ramEntry, listing, separated_cons_cons, separated_singleton]
  exact Language.append_mem_mul hopening (Language.append_mem_mul (Language.append_mem_mul haddr
    (Language.append_mem_mul hcomma hvalue)) hclosing)

theorem only_readCycle : Only readCycle Accepted.cycle := by
  intro size text record rest h
  obtain ⟨_, _, hopen, h⟩ := bind_eq_ok h
  obtain ⟨_, _, hreadAddr, h⟩ := bind_eq_ok h
  obtain ⟨_, _, hfirst, h⟩ := bind_eq_ok h
  obtain ⟨_, _, hreadValue, h⟩ := bind_eq_ok h
  obtain ⟨_, _, hsecond, h⟩ := bind_eq_ok h
  obtain ⟨chars, _, hreadKind, h⟩ := bind_eq_ok h
  obtain ⟨_, _, hclose, h⟩ := bind_eq_ok h
  cases h
  obtain ⟨opening, hopening, rfl⟩ := only_expect _ hopen
  obtain ⟨addr, haddr, rfl⟩ := only_word hreadAddr
  obtain ⟨comma, hcomma, rfl⟩ := only_expect _ hfirst
  obtain ⟨value, hvalue, rfl⟩ := only_byte hreadValue
  obtain ⟨comma', hcomma', rfl⟩ := only_expect _ hsecond
  obtain ⟨kind, hkind, rfl⟩ := only_string hreadKind
  obtain ⟨closing, hclosing, rfl⟩ := only_expect _ hclose
  refine ⟨opening ++ ((addr ++ (comma ++ (value ++ (comma' ++ kind)))) ++ closing),
    ⟨chars, rfl, ?_⟩, by simp⟩
  rw [listing, separated_cons_cons, separated_cons_cons, separated_singleton]
  exact Language.append_mem_mul hopening (Language.append_mem_mul (Language.append_mem_mul haddr
    (Language.append_mem_mul hcomma (Language.append_mem_mul hvalue
      (Language.append_mem_mul hcomma' hkind)))) hclosing)

section members

variable {α γ : Type} {p : Cursor α} {v : α → Language Char} {l : γ → Language Char}

/-- The texts that a key makes members of the language. -/
def under (key : List Char) (l : Language Char) : Language Char :=
  {text | ∀ front ∈ written key, ∀ colon ∈ punct ':', front ++ (colon ++ text) ∈ l}

/-- A value under its key is a member. -/
theorem only_value {key : String} {f : α → γ} (hp : Only p v)
    (h : ∀ a, ∀ text ∈ entry key (v a), text ∈ l (f a)) :
    Only (f <$> p) fun b => under key.toList (l b) :=
  hp.map fun a _ hvalue _ hkey _ hcolon => h a _
    (Language.append_mem_mul hkey.2 (Language.append_mem_mul hcolon hvalue))

/-- The members are those of the keys that are known. -/
theorem only_member {member : List Char → Cursor γ}
    (h : ∀ key, Only (member key) fun b => under key (l b)) :
    Only (do
      let key ← string
      expect ':'
      member key) l := by
  intro size text b rest hok
  obtain ⟨key, _, hkey, hok⟩ := bind_eq_ok hok
  obtain ⟨_, _, hcolon, hok⟩ := bind_eq_ok hok
  obtain ⟨back, hback, rfl⟩ := h key hok
  obtain ⟨front, hfront, rfl⟩ := only_string hkey
  obtain ⟨colon, hmid, rfl⟩ := only_expect _ hcolon
  exact ⟨front ++ (colon ++ back), hback front hfront colon hmid, by simp⟩

end members

theorem absorbs_listing (opening closing : Char) (items : List (Language Char)) :
    Absorbs (listing opening closing items) := (absorbs_blanks _).mul _

theorem absorbs_entry (key : String) (value : Language Char) : Absorbs (entry key value) :=
  (absorbs_blanks _).mul _

theorem only_ram : Only (arrayOf readRamEntry) fun entries =>
    listing '[' ']' (entries.map Accepted.ramEntry) :=
  only_listOf '[' ']' only_readRamEntry fun _ => absorbs_listing _ _ _

theorem only_cycles : Only (arrayOf readCycle) fun records =>
    listing '[' ']' (records.map Accepted.cycle) := by
  refine only_listOf '[' ']' only_readCycle fun record => ?_
  rintro text ⟨front, hfront, back, ⟨kind, hkind, hback⟩, rfl⟩
  exact ⟨kind, hkind, absorbs_listing _ _ _ _ (Language.append_mem_mul hfront hback)⟩

theorem only_stateMember : Only (do
    let key ← string
    expect ':'
    readStateMember key) Accepted.stateMember := by
  refine only_member fun key => ?_
  unfold readStateMember
  split_ifs with hpc hs ha hx hy hp hram
  · exact hpc ▸ only_value only_word fun _ _ htext => htext
  · exact hs ▸ only_value only_byte fun _ _ htext => htext
  · exact ha ▸ only_value only_byte fun _ _ htext => htext
  · exact hx ▸ only_value only_byte fun _ _ htext => htext
  · exact hy ▸ only_value only_byte fun _ _ htext => htext
  · exact hp ▸ only_value only_byte fun _ _ htext => htext
  · exact hram ▸ only_value only_ram fun _ _ htext => htext
  · exact .throws fun _ _ => ⟨_, rfl⟩

theorem only_readState : Only readState Accepted.state := by
  refine only_listOf '{' '}' only_stateMember fun m => ?_
  cases m <;> exact absorbs_entry _ _

theorem only_caseMember : Only (do
    let key ← string
    expect ':'
    readCaseMember key) Accepted.caseMember := by
  refine only_member fun key => ?_
  unfold readCaseMember
  split_ifs with hname hinitial hfinal hcycles
  · exact hname ▸ only_value only_string fun _ _ htext => htext
  · exact hinitial ▸ only_value only_readState fun _ _ htext => htext
  · simp only [Bool.or_eq_true, decide_eq_true_eq] at hfinal
    rcases hfinal with rfl | rfl
    · exact only_value only_readState fun _ _ htext => .inl htext
    · exact only_value only_readState fun _ _ htext => .inr htext
  · exact hcycles ▸ only_value only_cycles fun _ _ htext => htext
  · exact .throws fun _ _ => ⟨_, rfl⟩

theorem only_readCase : Only readCase Accepted.case := by
  refine only_listOf '{' '}' only_caseMember fun m => ?_
  cases m with
  | final members =>
    rintro text ⟨front, hfront, back, hback | hback, rfl⟩
    · exact .inl (absorbs_entry _ _ _ (Language.append_mem_mul hfront hback))
    · exact .inr (absorbs_entry _ _ _ (Language.append_mem_mul hfront hback))
  | _ => exact absorbs_entry _ _

theorem only_document : Only (arrayOf readCase) Accepted.document :=
  only_listOf '[' ']' only_readCase fun _ => absorbs_listing _ _ _

/-! ### What is well formed is accepted -/

theorem reads_wordText (w : U16) : Reads noDigit readWord (wordText w) w := by
  rintro size text rest ⟨n, rfl, htext⟩ hrest
  exact (reads_signedNumber n).map (BitVec.ofInt 16) htext hrest

theorem reads_byteText (b : U8) : Reads noDigit readByte (byteText b) b := by
  rintro size text rest ⟨n, rfl, htext⟩ hrest
  exact (reads_signedNumber n).map (BitVec.ofInt 8) htext hrest

theorem reads_ramEntry (e : U16 × U8) :
    Reads Set.univ readRamEntry (Accepted.ramEntry e) e := by
  have htext : Accepted.ramEntry e =
      punct '[' * (wordText e.1 * (punct ',' * (byteText e.2 * (punct ']' * 1)))) := by
    simp [Accepted.ramEntry, listing, mul_assoc]
  rw [htext]
  refine (reads_expect (by decide)).andThen ((reads_wordText e.1).bind ?_ (guards_punct rfl rfl _))
  refine (reads_expect (by decide)).andThen ((reads_byteText e.2).bind ?_ (guards_punct rfl rfl _))
  exact (reads_expect (by decide)).andThen (.pure e)

theorem reads_cycle (record : CycleRecord) :
    Reads Set.univ readCycle (Accepted.cycle record) record := by
  rintro size text rest ⟨kind, hkind, htext⟩ hrest
  have hparts : listing '[' ']' [wordText record.addr, byteText record.value, written kind] =
      punct '[' * (wordText record.addr * (punct ',' * (byteText record.value *
        (punct ',' * (written kind * (punct ']' * 1)))))) := by
    simp [listing, mul_assoc]
  have hrecord : record = ⟨record.addr, record.value, decide (kind = "write".toList)⟩ := by
    rw [hkind]
  rw [hparts] at htext
  refine Reads.andThen (reads_expect (by decide)) (Reads.bind (reads_wordText _) ?_
    (guards_punct rfl rfl _)) htext hrest
  refine (reads_expect (by decide)).andThen ((reads_byteText _).bind ?_ (guards_punct rfl rfl _))
  refine (reads_expect (by decide)).andThen ((reads_written kind).andThen ?_)
  refine (reads_expect (by decide)).andThen ?_
  rw [← hrecord]
  exact .pure record

theorem led_cycle (record : CycleRecord) : Led '[' (Accepted.cycle record) := by
  rintro text ⟨kind, hkind, htext⟩
  obtain ⟨back, hskip, hback⟩ := led_listing rfl _ _ text htext
  exact ⟨back, hskip, kind, hkind, hback⟩

theorem reads_stateEntry (m : StateMember) :
    Reads noDigit (do
      let key ← string
      expect ':'
      readStateMember key) (Accepted.stateMember m) m := by
  cases m with
  | pc value => exact reads_entry (by decide) ((reads_wordText value).map StateMember.pc)
  | s value => exact reads_entry (by decide) ((reads_byteText value).map StateMember.s)
  | a value => exact reads_entry (by decide) ((reads_byteText value).map StateMember.a)
  | x value => exact reads_entry (by decide) ((reads_byteText value).map StateMember.x)
  | y value => exact reads_entry (by decide) ((reads_byteText value).map StateMember.y)
  | p value => exact reads_entry (by decide) ((reads_byteText value).map StateMember.p)
  | ram entries =>
    have hram : Reads Set.univ (arrayOf readRamEntry)
        (listing '[' ']' (entries.map Accepted.ramEntry)) entries :=
      reads_listOf '[' rfl rfl rfl (by decide) (by decide) local_readRamEntry
        (fun _ _ => led_listing rfl _ _) fun e _ => Reads.of_univ (reads_ramEntry e)
    exact reads_entry (by decide) (Reads.of_univ (hram.map StateMember.ram))

theorem reads_state (members : List StateMember) :
    Reads Set.univ readState (Accepted.state members) members := by
  refine reads_listOf '"' rfl rfl rfl (by decide) (by decide) ?_ (fun m _ => ?_)
    fun m _ => reads_stateEntry m
  · exact local_string.bind fun key => (local_expect ':').bind fun _ => local_readStateMember key
  · cases m <;> exact led_entry _ _

theorem reads_caseEntry (m : CaseMember) :
    Reads noDigit (do
      let key ← string
      expect ':'
      readCaseMember key) (Accepted.caseMember m) m := by
  cases m with
  | name chars =>
    exact reads_entry (by decide) (Reads.of_univ ((reads_written chars).map CaseMember.name))
  | initial members =>
    exact reads_entry (by decide) (Reads.of_univ ((reads_state members).map CaseMember.initial))
  | final members =>
    have hstate : Reads noDigit _ _ _ :=
      Reads.of_univ ((reads_state members).map CaseMember.final)
    exact (reads_entry (by decide) hstate).add (reads_entry (by decide) hstate)
  | cycles records =>
    have hcycles : Reads Set.univ (arrayOf readCycle)
        (listing '[' ']' (records.map Accepted.cycle)) records :=
      reads_listOf '[' rfl rfl rfl (by decide) (by decide) local_readCycle
        (fun r _ => led_cycle r) fun r _ => Reads.of_univ (reads_cycle r)
    exact reads_entry (by decide) (Reads.of_univ (hcycles.map CaseMember.cycles))

theorem reads_case (members : List CaseMember) :
    Reads Set.univ readCase (Accepted.case members) members := by
  refine reads_listOf '"' rfl rfl rfl (by decide) (by decide) ?_ (fun m _ => ?_)
    fun m _ => reads_caseEntry m
  · exact local_string.bind fun key => (local_expect ':').bind fun _ => local_readCaseMember key
  · cases m with
    | final members => exact (led_entry _ _).add (led_entry _ _)
    | _ => exact led_entry _ _

theorem reads_accepted (cases : List (List CaseMember)) :
    Reads Set.univ (arrayOf readCase) (Accepted.document cases) cases :=
  reads_listOf '{' rfl rfl rfl (by decide) (by decide) local_readCase
    (fun _ _ => led_listing rfl _ _) fun members _ => Reads.of_univ (reads_case members)

/-! ### Files -/

/-- The test cases of a document: each is parsed into the object that held the one before. -/
def testsFrom (test : TestCase) : List (List CaseMember) → List TestCase
  | [] => []
  | members :: cases => test.update members :: testsFrom (test.update members) cases

theorem length_testsFrom (test : TestCase) (cases : List (List CaseMember)) :
    (testsFrom test cases).length = cases.length := by
  induction cases generalizing test with
  | nil => rfl
  | cons members cases ih => rw [testsFrom, List.length_cons, List.length_cons, ih]

theorem foldl_fileRun (V : Variant) (cases : List (List CaseMember)) (run : FileRun) :
    cases.foldl (FileRun.next V) run =
      (testsFrom run.test cases).foldl (fun run test => checkCase V { run with test }) run := by
  induction cases generalizing run with
  | nil => rfl
  | cons members cases ih =>
    rw [List.foldl_cons, testsFrom, List.foldl_cons, ih, FileRun.next, (checkCase_eq V _).1]

/-- A document at the start of a text is read, and its cases are counted. -/
theorem runFile_of_document (V : Variant) {text : List Char} {cases : List (List CaseMember)}
    (h : ∃ front ∈ Accepted.document cases, front <+: text) :
    runFile V text = .ok {
      passed := Int32.ofNat ((testsFrom {} cases).countP (verdict V))
      failed := Int32.ofNat ((testsFrom {} cases).countP fun test => !verdict V test) } := by
  obtain ⟨front, hfront, rest, rfl⟩ := h
  rw [runFile, runCases_run, Scanner.bind_apply,
    reads_accepted cases hfront (Set.mem_univ rest), ← foldl_checkCase_start]
  exact congrArg (fun run => Except.ok run.result) (foldl_fileRun V cases {})

/-- **The grammar of the runner.** A file is accepted exactly when a document of the grammar
stands at its start, whatever comes after it; and of a document with fewer than 2^31 cases, what
is counted are the verdicts on these. -/
theorem runFile_ok_iff (V : Variant) (text : List Char) :
    ((∃ result, runFile V text = .ok result) ↔
      ∃ cases, ∃ front ∈ Accepted.document cases, front <+: text) ∧
    ∀ cases, (∃ front ∈ Accepted.document cases, front <+: text) → cases.length < 2 ^ 31 →
      ∃ result, runFile V text = .ok result ∧
        result.passed.toInt = (testsFrom {} cases).countP (verdict V) ∧
        result.failed.toInt = (testsFrom {} cases).countP fun test => !verdict V test := by
  refine ⟨⟨?_, fun ⟨cases, hdocument⟩ => ⟨_, runFile_of_document V hdocument⟩⟩,
    fun cases hdocument hfew => ⟨_, runFile_of_document V hdocument, ?_⟩⟩
  · rintro ⟨result, h⟩
    rw [runFile, runCases_run, Scanner.bind_apply] at h
    cases hread : arrayOf readCase text.length text with
    | error e =>
      rw [hread] at h
      cases h
    | ok parsed =>
      obtain ⟨cases, rest⟩ := parsed
      obtain ⟨front, hfront, htext⟩ := only_document hread
      exact ⟨cases, front, hfront, rest, htext.symm⟩
  · rw [← length_testsFrom {} cases] at hfew
    exact ⟨toInt_countP hfew _, toInt_countP hfew _⟩

/-- A case without members, and a text that goes on. -/
theorem runFile_ok_iff_nothing :
    ∃ result, runFile Nmos6502 "[\x7b\x7d],".toList = .ok result ∧ result.passed.toInt = 0 ∧
      result.failed.toInt = 1 := by
  have hpunct (c : Char) : [c] ∈ punct c :=
    Language.append_mem_mul (takeWhile_blanks []) rfl
  have hcase : ['{', '}'] ∈ Accepted.case [] :=
    Language.append_mem_mul (hpunct '{') (Language.append_mem_mul Language.nil_mem_one (hpunct '}'))
  have hdocument : '[' :: (['{', '}'] ++ [']']) ∈ Accepted.document [[]] := by
    rw [Accepted.document, List.map_singleton, listing, separated_singleton]
    exact Language.append_mem_mul (hpunct '[') (Language.append_mem_mul hcase (hpunct ']'))
  obtain ⟨result, hrun, hpassed, hfailed⟩ := (runFile_ok_iff Nmos6502 "[\x7b\x7d],".toList).2 [[]]
    ⟨_, hdocument, [','], by decide⟩ (by decide)
  exact ⟨result, hrun, hpassed.trans (by decide +kernel), hfailed.trans (by decide +kernel)⟩

end Harness

end Mos6502
