import Mathlib.Data.Char
import Mathlib.Data.List.Lex
import Mos6502.Harness.Report
import Mos6502.RunKlaus

/-!
# The runner of the suite

The runner selects files by its arguments: a directory stands for the JSON files in it, a bare
opcode for a file of the default directory, and anything else is a path. It passes when all
files do. No exception is caught, so a file that is no test file ends the whole run.
-/

namespace Mos6502.Harness

open Json

abbrev Path := List Char

/-- What reading a file gives. -/
inductive Reading
  | cannotOpen
  /-- The size that `ftell` gives is none that a string can have. -/
  | noSize
  | shortRead
  | text (chars : List Char)

/-- What a path is found to be. A path that does not exist is `other`. -/
inductive Status
  | directory
  | other
  /-- This cannot be found out. -/
  | failed
  deriving DecidableEq, Repr

/-- An entry of a directory, by its name there. -/
structure Entry where
  name : Path
  isRegular : Bool

/-- The files as the runner sees them. -/
structure Disk where
  status : Path → Status
  /-- The entries of a directory, in the order in which they are iterated over, if the iteration
  does not break off. -/
  entries : Path → Option (List Entry)
  read : Path → Reading

structure Environment where
  harteDir : Option Path := none
  maxReports : Option (List Char) := none

namespace Suite

/-- The exceptions of a run. -/
inductive Exception
  | cursor (stop : Stop)
  | filesystemError
  | lengthError
  deriving DecidableEq, Repr

/-- `fs::is_directory`, with an error code that is ignored. -/
def isDirectory (disk : Disk) (path : Path) : Bool := decide (disk.status path = .directory)

/-- `fs::is_directory`, without one. -/
def isDirectoryThrowing (disk : Disk) (path : Path) : Except Exception Bool :=
  match disk.status path with
  | .directory => .ok true
  | .other => .ok false
  | .failed => .error .filesystemError

/-! ### Selecting the files -/

/-- `fs::path::operator/`, for a name. -/
def join (directory name : Path) : Path :=
  if directory = [] ∨ directory.getLast? = some '/' then directory ++ name
  else directory ++ '/' :: name

/-- `fs::path::extension`, of a file name: from the last dot on, unless that is its first
character. -/
def extension (name : Path) : Path :=
  if name = ['.', '.'] then []
  else
    let stem := (name.reverse.dropWhile (· != '.')).reverse.dropLast
    if stem = [] then [] else name.drop stem.length

example : extension "a9.json".toList = ".json".toList ∧ extension ".json".toList = [] ∧
    extension "json".toList = [] ∧ extension "a.b.txt".toList = ".txt".toList := by decide

def kCandidates : List Path :=
  ["Harte-65x02/6502/v1".toList, "../Harte-65x02/6502/v1".toList,
    "../../Harte-65x02/6502/v1".toList, "6502/v1".toList, "../6502/v1".toList]

/-- The default directory, which is empty if there is none, and what is said on the way. -/
def findDefaultDirectory (disk : Disk) (env : Environment) :
    Except Exception (Path × List String) :=
  match env.harteDir with
  | some fromEnv =>
    match isDirectoryThrowing disk fromEnv with
    | .ok true => .ok (fromEnv, [])
    | .ok false => .ok ([], ["HARTE_DIR=" ++ String.ofList fromEnv ++ " is not a directory\n"])
    | .error e => .error e
  | none => .ok ((kCandidates.find? (isDirectory disk)).getD [], [])

/-- The names of the JSON files among the entries of a directory. -/
def jsonNames (entries : List Entry) : List Path :=
  (entries.filter fun entry => entry.isRegular && extension entry.name == ".json".toList).map
    Entry.name

/-- Every JSON file in the directory, in name order. -/
def jsonFilesIn (disk : Disk) (directory : Path) : Except Exception (List Path) :=
  match disk.entries directory with
  | some entries =>
    .ok (((jsonNames entries).mergeSort fun a b => decide (a ≤ b)).map (join directory))
  | none => .error .filesystemError

def looksLikeOpcode (text : List Char) : Bool :=
  !(text.isEmpty || 2 < text.length) && text.all fun c => RunKlaus.digitValue c < 16

/-- The file of an opcode: the format `%02x.json`. -/
def opcodeFile (text : List Char) : Path :=
  let value := text.foldl (fun n c => 16 * n + RunKlaus.digitValue c) 0
  [Nat.digitChar (value / 16), Nat.digitChar (value % 16)] ++ ".json".toList

/-- Why the files cannot be selected: the message about an opcode, or an exception. -/
inductive Failure
  | message (text : String)
  | exception (e : Exception)
  deriving DecidableEq, Repr

/-- The files that the arguments name. -/
def selectFiles (disk : Disk) (defaultDirectory : Path) : List Path → Except Failure (List Path)
  | [] => .ok []
  | argument :: arguments =>
    if isDirectory disk argument then
      match jsonFilesIn disk argument with
      | .ok found => (found ++ ·) <$> selectFiles disk defaultDirectory arguments
      | .error e => .error (.exception e)
    else if looksLikeOpcode argument then
      if defaultDirectory = [] then
        .error (.message ("cannot resolve opcode '" ++ String.ofList argument ++
          "': no test directory found (set HARTE_DIR)\n"))
      else
        (join defaultDirectory (opcodeFile argument) :: ·) <$>
          selectFiles disk defaultDirectory arguments
    else (argument :: ·) <$> selectFiles disk defaultDirectory arguments

/-! ### Running them -/

/-- The format `%-28s`. -/
def paddedPath (path : Path) : String := String.ofList (path.rightpad 28 ' ')

def runFile (disk : Disk) (maxReports : ℤ) (path : Path) :
    Except Exception (FileResult × List String) :=
  match disk.read path with
  | .cannotOpen => .ok ({ failed := 1 }, [paddedPath path ++ " CANNOT OPEN\n"])
  | .noSize => .error .lengthError
  | .shortRead => .ok ({ failed := 1 }, [paddedPath path ++ " SHORT READ\n"])
  | .text chars =>
    match runFileReporting Nmos6502 maxReports path chars with
    | .ok result => .ok result
    | .error e => .error (.cursor e)

def runFiles (disk : Disk) (maxReports : ℤ) : List Path → FileResult × List String →
    Except Exception (FileResult × List String)
  | [], done => .ok done
  | path :: files, (total, printed) =>
    match runFile disk maxReports path with
    | .ok (one, printed') =>
      runFiles disk maxReports files
        (⟨total.passed + one.passed, total.failed + one.failed⟩, printed ++ printed')
    | .error e => .error e

/-- How the program ends. -/
inductive Exit
  | status (code : ℕ)
  | terminated (exception : Exception)
  deriving DecidableEq, Repr

/-- What the program prints, and how it ends. Of a run that an exception cuts off, the lines for
the files are left out. -/
structure Outcome where
  out : List String := []
  err : List String := []
  exit : Exit

/-- `std::atoi`. -/
def atoi (text : List Char) : ℤ := (BitVec.ofInt 32 (strtoll text).1).toInt

def totalLine (files : ℕ) (total : FileResult) : String :=
  "\n" ++ toString files ++ " file" ++ (if files = 1 then "" else "s") ++ " - TOTAL: " ++
    toString total.passed.toInt ++ " passed, " ++ toString total.failed.toInt ++ " failed\n"

/-- What is done once the files are selected. -/
def runSelected (disk : Disk) (env : Environment) (intro err : List String) (files : List Path) :
    Outcome :=
  match runFiles disk (env.maxReports.elim 3 atoi) files ({}, []) with
  | .ok (total, printed) =>
    { out := intro ++ printed ++ [totalLine files.length total], err
      exit := .status (if total.failed = 0 then 0 else 1) }
  | .error e => { err, exit := .terminated e }

def usage (program : Path) : String :=
  "no test directory found.\n" ++
    "  run from the project root, or set HARTE_DIR to a directory\n" ++
    "  of per-opcode JSON files (e.g. Harte-65x02/6502/v1).\n\n" ++
    "usage: " ++ String.ofList program ++ " [opcode | file.json | directory ...]\n"

def main (disk : Disk) (env : Environment) (program : Path) (arguments : List Path) : Outcome :=
  match findDefaultDirectory disk env with
  | .error e => { exit := .terminated e }
  | .ok (defaultDirectory, warnings) =>
    if arguments = [] then
      if defaultDirectory = [] then { err := warnings ++ [usage program], exit := .status 2 }
      else
        match jsonFilesIn disk defaultDirectory with
        | .error e => { err := warnings, exit := .terminated e }
        | .ok [] =>
          { err := warnings ++ ["no .json files in " ++ String.ofList defaultDirectory ++ "\n"]
            exit := .status 2 }
        | .ok files =>
          runSelected disk env
            ["running " ++ toString files.length ++ " opcode files from " ++
              String.ofList defaultDirectory ++ "\n\n"] warnings files
    else
      match selectFiles disk defaultDirectory arguments with
      | .error (.message message) => { err := warnings ++ [message], exit := .status 2 }
      | .error (.exception e) => { err := warnings, exit := .terminated e }
      | .ok files => runSelected disk env [] warnings files

/-! ### What is selected -/

/-- A file in a directory that is taken for a test file. -/
def JsonFile (disk : Disk) (directory path : Path) : Prop :=
  ∃ entries, disk.entries directory = some entries ∧ ∃ entry ∈ entries,
    entry.isRegular = true ∧ extension entry.name = ".json".toList ∧
      join directory entry.name = path

/-- The files that an argument stands for. -/
inductive Selects (disk : Disk) (defaultDirectory : Path) : Path → Path → Prop
  | directory {argument path} (hdir : isDirectory disk argument = true)
      (hfile : JsonFile disk argument path) : Selects disk defaultDirectory argument path
  | opcode {argument} (hdir : isDirectory disk argument = false)
      (hopcode : looksLikeOpcode argument = true) :
      Selects disk defaultDirectory argument (join defaultDirectory (opcodeFile argument))
  | path {argument} (hdir : isDirectory disk argument = false)
      (hopcode : looksLikeOpcode argument = false) :
      Selects disk defaultDirectory argument argument

/-- An argument that only the default directory can resolve. -/
def BareOpcode (disk : Disk) (argument : Path) : Prop :=
  isDirectory disk argument = false ∧ looksLikeOpcode argument = true

/-- The files that an argument stands for can be found. -/
structure Resolves (disk : Disk) (defaultDirectory argument : Path) : Prop where
  opcode : BareOpcode disk argument → defaultDirectory ≠ []
  directory : isDirectory disk argument = true → disk.entries argument ≠ none

variable {disk : Disk} {env : Environment} {defaultDirectory path argument : Path}
  {arguments files : List Path}

theorem mem_jsonFilesIn {directory : Path} (h : jsonFilesIn disk directory = .ok files) :
    path ∈ files ↔ JsonFile disk directory path := by
  rw [jsonFilesIn] at h
  cases hentries : disk.entries directory with
  | none =>
    rw [hentries] at h
    cases h
  | some entries =>
    rw [hentries] at h
    cases h
    simp only [JsonFile, hentries, jsonNames, Option.some.injEq, exists_eq_left', List.mem_map,
      List.mem_mergeSort, List.mem_filter, Bool.and_eq_true, beq_iff_eq]
    constructor
    · rintro ⟨_, ⟨entry, ⟨hentry, hregular, hext⟩, rfl⟩, rfl⟩
      exact ⟨entry, hentry, hregular, hext, rfl⟩
    · rintro ⟨entry, hentry, hregular, hext, rfl⟩
      exact ⟨_, ⟨entry, ⟨hentry, hregular, hext⟩, rfl⟩, rfl⟩

theorem selects_of_directory (hdir : isDirectory disk argument = true) :
    Selects disk defaultDirectory argument path ↔ JsonFile disk argument path := by
  constructor
  · rintro (⟨-, hfile⟩ | ⟨hdir', -⟩ | ⟨hdir', -⟩)
    · exact hfile
    all_goals simp [hdir] at hdir'
  · exact .directory hdir

theorem selects_of_opcode (hdir : isDirectory disk argument = false)
    (hopcode : looksLikeOpcode argument = true) :
    Selects disk defaultDirectory argument path ↔
      path = join defaultDirectory (opcodeFile argument) := by
  constructor
  · rintro (⟨hdir', -⟩ | - | ⟨-, hopcode'⟩)
    · simp [hdir] at hdir'
    · rfl
    · simp [hopcode] at hopcode'
  · rintro rfl
    exact .opcode hdir hopcode

theorem selects_of_path (hdir : isDirectory disk argument = false)
    (hopcode : looksLikeOpcode argument = false) :
    Selects disk defaultDirectory argument path ↔ path = argument := by
  constructor
  · rintro (⟨hdir', -⟩ | ⟨-, hopcode'⟩ | -)
    · simp [hdir] at hdir'
    · simp [hopcode] at hopcode'
    · rfl
  · rintro rfl
    exact .path hdir hopcode

/-- What a single argument adds to the selection. -/
theorem selectFiles_cons (arguments : List Path) (h : Resolves disk defaultDirectory argument) :
    ∃ front, (∀ path, path ∈ front ↔ Selects disk defaultDirectory argument path) ∧
      selectFiles disk defaultDirectory (argument :: arguments) =
        (front ++ ·) <$> selectFiles disk defaultDirectory arguments := by
  cases hdir : isDirectory disk argument with
  | true =>
    obtain ⟨entries, hentries⟩ := Option.ne_none_iff_exists'.mp (h.directory hdir)
    obtain ⟨front, hfront⟩ : ∃ front, jsonFilesIn disk argument = .ok front := by
      rw [jsonFilesIn, hentries]
      exact ⟨_, rfl⟩
    exact ⟨front, fun path => by rw [mem_jsonFilesIn hfront, selects_of_directory hdir],
      by simp [selectFiles, hdir, hfront]⟩
  | false =>
    cases hopcode : looksLikeOpcode argument with
    | true =>
      exact ⟨[join defaultDirectory (opcodeFile argument)],
        fun path => by rw [List.mem_singleton, selects_of_opcode hdir hopcode],
        by simp [selectFiles, hdir, hopcode, h.opcode ⟨hdir, hopcode⟩]⟩
    | false =>
      exact ⟨[argument], fun path => by rw [List.mem_singleton, selects_of_path hdir hopcode],
        by simp [selectFiles, hdir, hopcode]⟩

theorem selectFiles_ok (h : ∀ argument ∈ arguments, Resolves disk defaultDirectory argument) :
    ∃ files, selectFiles disk defaultDirectory arguments = .ok files ∧
      ∀ path, path ∈ files ↔
        ∃ argument ∈ arguments, Selects disk defaultDirectory argument path := by
  induction arguments with
  | nil => exact ⟨[], rfl, by simp⟩
  | cons argument arguments ih =>
    obtain ⟨hargument, harguments⟩ := List.forall_mem_cons.mp h
    obtain ⟨front, hfront, hselect⟩ := selectFiles_cons arguments hargument
    obtain ⟨files, hfiles, hmem⟩ := ih harguments
    refine ⟨front ++ files, by rw [hselect, hfiles]; rfl, fun path => ?_⟩
    rw [List.mem_append, hfront, hmem, List.exists_mem_cons_iff]

/-- An argument that does not resolve ends the selection. -/
theorem resolves_of_selectFiles (h : selectFiles disk defaultDirectory arguments = .ok files) :
    ∀ argument ∈ arguments, Resolves disk defaultDirectory argument := by
  induction arguments generalizing files with
  | nil => exact nofun
  | cons argument arguments ih =>
    have hargument : Resolves disk defaultDirectory argument := by
      constructor
      · rintro ⟨hdir, hopcode⟩ rfl
        simp [selectFiles, hdir, hopcode] at h
      · intro hdir hnone
        simp [selectFiles, hdir, jsonFilesIn, hnone] at h
    obtain ⟨front, -, hselect⟩ := selectFiles_cons arguments hargument
    cases hrest : selectFiles disk defaultDirectory arguments with
    | error e =>
      rw [hselect, hrest] at h
      cases h
    | ok rest => exact List.forall_mem_cons.mpr ⟨hargument, ih hrest⟩

/-! ### What passes -/

/-- The document at the start of the file consists of cases that all describe the programmer's
model. -/
def Conforms (disk : Disk) (path : Path) : Prop :=
  ∃ chars cases, disk.read path = .text chars ∧ casesOf chars = .ok cases ∧
    ∀ c ∈ cases, c.2.Describes Nmos6502

/-- What a file adds to the counters: its cases, or one if it cannot be read. -/
def caseCount (disk : Disk) (path : Path) : ℕ :=
  match disk.read path with
  | .cannotOpen | .shortRead => 1
  | .noSize => 0
  | .text chars =>
    match casesOf chars with
    | .ok cases => cases.length
    | .error _ => 0

/-- A file adds a number of failures that is zero exactly if it conforms. -/
theorem runFile_failed {maxReports : ℤ} {one : FileResult} {printed : List String}
    (h : runFile disk maxReports path = .ok (one, printed)) :
    ∃ failed ≤ caseCount disk path, one.failed = Int32.ofNat failed ∧
      (failed = 0 ↔ Conforms disk path) := by
  unfold runFile at h
  unfold caseCount Conforms
  cases hread : disk.read path with
  | cannotOpen | shortRead =>
    rw [hread] at h
    cases h
    exact ⟨1, le_rfl, rfl, by simp⟩
  | noSize =>
    rw [hread] at h
    cases h
  | text chars =>
    rw [hread] at h
    simp only [runFileReporting_eq] at h
    cases hcases : casesOf chars with
    | error e =>
      rw [hcases] at h
      cases h
    | ok cases =>
      rw [hcases] at h
      cases h
      have hle := List.countP_le_length (p := fun test => decide ¬TestCase.Describes Nmos6502 test)
        (l := cases.map Prod.snd)
      rw [List.length_map] at hle
      exact ⟨_, by simpa [hcases] using hle, rfl, by simp [List.countP_eq_zero, hcases]⟩

theorem not_conforms_of_error {maxReports : ℤ} {e : Exception}
    (h : runFile disk maxReports path = .error e) : ¬Conforms disk path := by
  rintro ⟨chars, cases, hread, hcases, -⟩
  simp only [runFile, hread, runFileReporting_eq, hcases] at h
  cases h

theorem ofNat_eq_zero_iff {n : ℕ} (hn : n < 2 ^ 31) : Int32.ofNat n = 0 ↔ n = 0 := by
  constructor
  · intro h
    have hint : (Int32.ofNat n).toInt = 0 := by rw [h, Int32.toInt_zero]
    rw [Int32.toInt_ofNat_of_lt hn] at hint
    exact Int.ofNat_eq_zero.mp hint
  · rintro rfl
    rfl

/-- The failures of a list of files, on top of those before. -/
theorem runFiles_passes_iff (disk : Disk) (files : List Path) (maxReports : ℤ)
    (total : FileResult) (printed : List String) {failed : ℕ}
    (htotal : total.failed = Int32.ofNat failed)
    (hfew : failed + (files.map (caseCount disk)).sum < 2 ^ 31) :
    (∃ total' printed', runFiles disk maxReports files (total, printed) = .ok (total', printed') ∧
        total'.failed = 0) ↔ failed = 0 ∧ ∀ path ∈ files, Conforms disk path := by
  induction files generalizing total printed failed with
  | nil =>
    have hzero := ofNat_eq_zero_iff (Nat.lt_of_le_of_lt (Nat.le_add_right failed _) hfew)
    simp [runFiles, htotal, hzero]
  | cons path files ih =>
    rw [List.forall_mem_cons, runFiles]
    cases hfile : runFile disk maxReports path with
    | error e => simp [not_conforms_of_error hfile]
    | ok result =>
      obtain ⟨one, printed'⟩ := result
      obtain ⟨failed', hle, hone, hzero⟩ := runFile_failed hfile
      rw [List.map_cons, List.sum_cons] at hfew
      have hsum : total.failed + one.failed = Int32.ofNat (failed + failed') := by
        rw [htotal, hone, Int32.ofNat_add]
      rw [ih ⟨_, _⟩ _ hsum (by omega), Nat.add_eq_zero_iff, hzero, and_assoc]

theorem runSelected_passes_iff (intro err : List String)
    (hfew : (files.map (caseCount disk)).sum < 2 ^ 31) :
    (runSelected disk env intro err files).exit = .status 0 ↔
      ∀ path ∈ files, Conforms disk path := by
  have hfiles := runFiles_passes_iff disk files (env.maxReports.elim 3 atoi) {} []
    (show ({} : FileResult).failed = Int32.ofNat 0 from rfl) (by rwa [Nat.zero_add])
  rw [eq_self, true_and] at hfiles
  rw [runSelected, ← hfiles]
  cases hrun : runFiles disk (env.maxReports.elim 3 atoi) files ({}, []) with
  | error e => simp
  | ok result =>
    obtain ⟨total, printed⟩ := result
    by_cases hfailed : total.failed = 0 <;> simp [hfailed]

/-- The files that a run reads, in order. -/
def filesOf (disk : Disk) (env : Environment) (arguments : List Path) :
    Except Failure (List Path) :=
  match findDefaultDirectory disk env with
  | .error e => .error (.exception e)
  | .ok (defaultDirectory, _) =>
    if arguments = [] then
      match jsonFilesIn disk defaultDirectory with
      | .ok files => .ok files
      | .error e => .error (.exception e)
    else selectFiles disk defaultDirectory arguments

/-- A run without arguments. -/
theorem main_nil_passes_iff (program : Path) {directory : Path} {warnings : List String}
    (hfind : findDefaultDirectory disk env = .ok (directory, warnings))
    (hfew : ∀ files, jsonFilesIn disk directory = .ok files →
      (files.map (caseCount disk)).sum < 2 ^ 31) :
    (main disk env program []).exit = .status 0 ↔
      directory ≠ [] ∧ (∃ path, JsonFile disk directory path) ∧
        ∀ path, JsonFile disk directory path → Conforms disk path := by
  simp only [main, hfind, if_true]
  by_cases hnone : directory = []
  · simp [hnone]
  · rw [if_neg hnone]
    cases hfiles : jsonFilesIn disk directory with
    | error e =>
      have hentries : disk.entries directory = none := by
        by_contra hsome
        obtain ⟨entries, hentries⟩ := Option.ne_none_iff_exists'.mp hsome
        simp [jsonFilesIn, hentries] at hfiles
      refine ⟨nofun, ?_⟩
      rintro ⟨-, ⟨path, entries, hsome, -⟩, -⟩
      cases hentries.symm.trans hsome
    | ok files =>
      simp only [← mem_jsonFilesIn hfiles]
      cases files with
      | nil => simp
      | cons path files =>
        simp only [runSelected_passes_iff _ _ (hfew _ hfiles)]
        exact ⟨fun h => ⟨hnone, ⟨path, List.mem_cons_self⟩, h⟩, fun h => h.2.2⟩

/-- A run with arguments. -/
theorem main_cons_passes_iff (program : Path) {directory : Path} {warnings : List String}
    (hfind : findDefaultDirectory disk env = .ok (directory, warnings)) (hsome : arguments ≠ [])
    (hfew : ∀ files, selectFiles disk directory arguments = .ok files →
      (files.map (caseCount disk)).sum < 2 ^ 31) :
    (main disk env program arguments).exit = .status 0 ↔
      ∀ argument ∈ arguments, Resolves disk directory argument ∧
        ∀ path, Selects disk directory argument path → Conforms disk path := by
  simp only [main, hfind, if_neg hsome]
  by_cases hresolves : ∀ argument ∈ arguments, Resolves disk directory argument
  · obtain ⟨files, hselect, hmem⟩ := selectFiles_ok hresolves
    simp only [hselect, runSelected_passes_iff _ _ (hfew _ hselect), hmem]
    exact ⟨fun h argument hargument => ⟨hresolves argument hargument,
        fun path hpath => h path ⟨argument, hargument, hpath⟩⟩,
      fun h path ⟨argument, hargument, hpath⟩ => (h argument hargument).2 path hpath⟩
  · refine ⟨fun h => ?_, fun h => absurd (fun a ha => (h a ha).1) hresolves⟩
    cases hselect : selectFiles disk directory arguments with
    | ok files => exact absurd (resolves_of_selectFiles hselect) hresolves
    | error failure =>
      rw [hselect] at h
      cases failure <;> cases h

/-- **The verdict of the suite.** With fewer than 2^31 cases in its files, the runner ends with
status zero exactly when it can tell its default directory and resolve its arguments, finds a
file if it has none, and every file that they stand for starts with a document of cases that all
describe the programmer's model. An argument that stands for no file passes. -/
theorem suite_passes_iff (disk : Disk) (env : Environment) (program : Path)
    (arguments : List Path) (hfew : ∀ files, filesOf disk env arguments = .ok files →
      (files.map (caseCount disk)).sum < 2 ^ 31) :
    (main disk env program arguments).exit = .status 0 ↔
      ∃ directory warnings, findDefaultDirectory disk env = .ok (directory, warnings) ∧
        if arguments = [] then
          directory ≠ [] ∧ (∃ path, JsonFile disk directory path) ∧
            ∀ path, JsonFile disk directory path → Conforms disk path
        else
          ∀ argument ∈ arguments, Resolves disk directory argument ∧
            ∀ path, Selects disk directory argument path → Conforms disk path := by
  cases hfind : findDefaultDirectory disk env with
  | error e => simp [main, hfind]
  | ok found =>
    obtain ⟨directory, warnings⟩ := found
    simp only [filesOf, hfind] at hfew
    have hexists (P : Path → Prop) : (∃ directory' warnings',
        (.ok (directory, warnings) : Except Exception _) = .ok (directory', warnings') ∧
          P directory') ↔ P directory := by simp
    rw [hexists]
    by_cases harguments : arguments = []
    · subst harguments
      rw [if_pos rfl]
      exact main_nil_passes_iff program hfind fun files hfiles => hfew files (by simp [hfiles])
    · rw [if_neg harguments] at hfew ⊢
      exact main_cons_passes_iff program hfind harguments hfew

/-- A file with a single `NOP`, by its path. -/
theorem suite_passes_iff_nop :
    let chars := "[\x7b\"initial\":\x7b\"pc\":512,\"ram\":[[512,234]]\x7d,".toList ++
      "\"final\":\x7b\"pc\":513\x7d,".toList ++
      "\"cycles\":[[512,234,\"read\"],[513,0,\"read\"]]\x7d]".toList
    let disk : Disk := { status := fun _ => .other, entries := fun _ => none
                         read := fun _ => .text chars }
    (main disk {} [] ["nop.json".toList]).exit = .status 0 := by
  intro chars disk
  have hcases : casesOf chars = .ok [(chars.tail.dropLast, {
      initial := { pc := 512, ram := [(512, 234)] }, final := { pc := 513 }
      cycles := [⟨512, 234, false⟩, ⟨513, 0, false⟩] })] := by decide +kernel
  have hdir : isDirectory disk "nop.json".toList = false := rfl
  have hopcode : looksLikeOpcode "nop.json".toList = false := by decide
  refine (suite_passes_iff disk {} [] ["nop.json".toList] fun files hfiles => ?_).mpr
    ⟨[], [], rfl, ?_⟩
  · have hone : files = ["nop.json".toList] := by
      have hselected : filesOf disk {} ["nop.json".toList] = .ok ["nop.json".toList] := by
        decide +kernel
      exact Except.ok.inj (hfiles.symm.trans hselected)
    have hcount : caseCount disk "nop.json".toList = 1 := by
      simp only [caseCount, disk, hcases]
      rfl
    rw [hone, List.map_singleton, List.sum_singleton, hcount]
    decide
  · rw [if_neg (by decide), List.forall_mem_singleton]
    refine ⟨⟨fun h => absurd h.2 (by rw [hopcode]; decide), fun h => ?_⟩, fun path hpath => ?_⟩
    · rw [hdir] at h
      cases h
    · exact ⟨chars, _, rfl, hcases, by decide +kernel⟩

/-! ### The order of the suite -/

/-- The opcodes as arguments, in order: the format `%02x`. -/
def opcodeTexts : List Path :=
  (List.range 256).map fun k => [Nat.digitChar (k / 16), Nat.digitChar (k % 16)]

def opcodeName (text : Path) : Path := text ++ ".json".toList

/-- In name order, the files of the opcodes are in opcode order. -/
theorem opcodeNames_sorted : (opcodeTexts.map opcodeName).Pairwise (· ≤ ·) :=
  List.isChain_iff_pairwise.mp (by decide +kernel)

theorem opcodeFile_opcodeTexts : ∀ text ∈ opcodeTexts,
    looksLikeOpcode text = true ∧ opcodeFile text = opcodeName text := by
  decide +kernel

/-- Sorting brings names into the one order that they can have. -/
theorem mergeSort_eq_of_perm {names sorted : List Path} (hperm : names.Perm sorted)
    (hsorted : sorted.Pairwise (· ≤ ·)) :
    names.mergeSort (fun a b => decide (a ≤ b)) = sorted := by
  have hpairwise : (names.mergeSort fun a b => decide (a ≤ b)).Pairwise
      fun a b => decide (a ≤ b) = true := by
    refine List.pairwise_mergeSort (fun a b c hab hbc => ?_) (fun a b => ?_) names
    · rw [decide_eq_true_eq] at *
      exact le_trans hab hbc
    · simpa using le_total a b
  refine ((List.mergeSort_perm names _).trans hperm).eq_of_pairwise
    (fun a b _ _ hab hba => le_antisymm hab hba) ?_ hsorted
  simpa only [decide_eq_true_eq] using hpairwise

theorem selectFiles_opcodes (hdefault : defaultDirectory ≠ [])
    (hopcodes : ∀ text ∈ files, looksLikeOpcode text = true ∧ opcodeFile text = opcodeName text)
    (hdir : ∀ text ∈ files, isDirectory disk text = false) :
    selectFiles disk defaultDirectory files =
      .ok (files.map fun text => join defaultDirectory (opcodeName text)) := by
  induction files with
  | nil => rfl
  | cons text files ih =>
    obtain ⟨⟨hopcode, hfile⟩, hopcodes⟩ := List.forall_mem_cons.mp hopcodes
    obtain ⟨htext, hdir⟩ := List.forall_mem_cons.mp hdir
    simp only [selectFiles, htext, hopcode, hdefault, Bool.false_eq_true, if_false, if_true,
      ih hopcodes hdir, hfile]
    rfl

/-- **The whole suite.** When the JSON files of the default directory are those of the 256
opcodes, in whatever order it lists them and whatever else it lists, and no directory has the
name of an opcode, a run without arguments is that of all opcodes from `00` to `ff`, file by
file, with one more line at its start. -/
theorem whole_suite (disk : Disk) (env : Environment) (program : Path) {directory : Path}
    {warnings : List String} {entries : List Entry}
    (hfind : findDefaultDirectory disk env = .ok (directory, warnings)) (hsome : directory ≠ [])
    (hentries : disk.entries directory = some entries)
    (hfiles : (jsonNames entries).Perm (opcodeTexts.map opcodeName))
    (hdir : ∀ text ∈ opcodeTexts, isDirectory disk text = false) :
    let files := opcodeTexts.map fun text => join directory (opcodeName text)
    main disk env program opcodeTexts = runSelected disk env [] warnings files ∧
      main disk env program [] = runSelected disk env
        ["running 256 opcode files from " ++ String.ofList directory ++ "\n\n"] warnings files := by
  intro files
  have hjson : jsonFilesIn disk directory = .ok files := by
    rw [jsonFilesIn, hentries]
    simp only [mergeSort_eq_of_perm hfiles opcodeNames_sorted, List.map_map]
    rfl
  have hselect : selectFiles disk directory opcodeTexts = .ok files :=
    selectFiles_opcodes hsome opcodeFile_opcodeTexts hdir
  have hcount : opcodeTexts.length = 256 := by rw [opcodeTexts, List.length_map, List.length_range]
  have hlength : files.length = 256 := by rw [List.length_map, hcount]
  have harguments : opcodeTexts ≠ [] := List.ne_nil_of_length_eq_add_one hcount
  refine ⟨by simp only [main, hfind, hselect, if_neg harguments], ?_⟩
  simp only [main, hfind, hjson, if_true, if_neg hsome]
  obtain ⟨path, rest, hcons⟩ := List.exists_cons_of_length_eq_add_one hlength
  rw [hcons] at hlength ⊢
  simp only [hlength]
  rfl

/-- A directory that lists its files backwards, and the directory that holds it. -/
theorem whole_suite_backwards :
    let disk : Disk := {
      status := fun path => if path = "6502/v1".toList then .directory else .other
      entries := fun _ => some (⟨"src.json".toList, false⟩ ::
        (opcodeTexts.map fun text => ⟨opcodeName text, true⟩).reverse)
      read := fun _ => .text "[]".toList }
    let files := opcodeTexts.map fun text => join "6502/v1".toList (opcodeName text)
    main disk {} [] [] =
      runSelected disk {} ["running 256 opcode files from 6502/v1\n\n"] [] files := by
  intro disk files
  have hfind : findDefaultDirectory disk {} = .ok ("6502/v1".toList, []) := by decide +kernel
  have hnames : jsonNames (⟨"src.json".toList, false⟩ ::
      (opcodeTexts.map fun text => ⟨opcodeName text, true⟩).reverse) =
        (opcodeTexts.map opcodeName).reverse := by decide +kernel
  refine (whole_suite disk {} [] hfind (by decide) rfl ?_ ?_).2
  · exact (List.Perm.of_eq hnames).trans (List.reverse_perm _)
  · decide +kernel

end Suite

end Mos6502.Harness
