import SeqScan.LogFilter
import SeqScan.Proofs.CommandLines
import SeqScan.Proofs.Printed
import SeqScan.Proofs.Reader

/-
  The two commands that read a file.

  Both look the path up and both scan what they find, so they end alike: the file cannot be
  read, or something is wrong with its text, or nothing is. Nothing is printed of a file
  before all of it is read. The commands differ in what they print and in what they say of a
  text without faults.

  A path is a word of the command line, so it must not look like an option unless it stands
  after `--`. There are more reasons why a path gives no text than that it leads nowhere, to a
  directory or to bytes that are no text: a file may be there and be kept from being read.

  What is proved:
    1. `fileRuns_readable`, `fileRuns_unreadable`: the two runs for a path that gives a text
       and for one that does not.
    2. `gives_iff`, `refused_iff`: which paths give a text, and what is said of the others.
    3. `read_path`, `read_escaped`: how a path is read, by any parser that is what is
       documented.
    4. `exit_of_locked_file`: a file that may not be read, and a path that is taken for an
       option.
    5. `fileCommands_ofArguments`: the two command lines for every path and all files.
-/

namespace SeqScan

/-- The run `a` of the command that prints tokens and the run `b` of the one that only
reports, for a path that gives the texts of `gives` and of which `refused` is said, where the
log writes with `line` and may be off. -/
structure FileRuns (gives refused : String → Prop) (path : String) (off : Prop)
    (line : Nat → Event → String) (a b : Run) : Prop where
  exit_eq : a.exit = b.exit
  unreadable : a.exit = 66 ↔ ∃ message, refused message
  faulty : a.exit = 65 ↔ ∃ source, gives source ∧ (scan source).diagnostics ≠ []
  clean : a.exit = 0 ↔ ∃ source, gives source ∧ (scan source).diagnostics = []
  /-- Of a path that gives no text both say the same, in one message, and print nothing. -/
  message : ∀ message, refused message → a.stdout = "" ∧ b.stdout = "" ∧
    (off → a.stderr line = message ++ "\n" ∧ b.stderr line = message ++ "\n")
  /-- Of a text both report the diagnostics, in their order, a line each. -/
  reported : ∀ source, gives source → off →
    a.stderr line = String.join ((scan source).diagnostics.map (·.text ++ "\n")) ∧
      b.stderr line = String.join ((scan source).diagnostics.map (·.text ++ "\n")) ++
        if b.exit = 0 then "OK: " ++ path ++ "\n" else ""
  /-- One prints a line for each token, that of the end last, and how it went. -/
  printed : ∀ source, gives source →
    (scan source).tokens.getLast?.map Token.text = some "EOF  null" ∧
      a.stdout = String.join ((scan source).tokens.map (·.text ++ "\n")) ++
        if a.exit = 0 then "\nSUCCESS!\n" else "\nFailure!\n"
  /-- The other prints nothing. -/
  silent : b.stdout = ""

/-- What a path leads to is a file that holds a text. -/
def Gives (found : Except ReadFault (List UInt8)) (source : String) : Prop :=
  found = .ok (Text.encode source.toList)

/-- What a path leads to gives no text, and what is said of that. -/
inductive Refused (path : String) : Except ReadFault (List UInt8) → String → Prop
  | missing : Refused path (.error .missing) ("Error: file not found: " ++ path)
  | directory : Refused path (.error .directory)
    ("Error reading " ++ path ++ ": Is a directory (os error 21)")
  | notText {bytes : List UInt8} : (∀ text, bytes ≠ Text.encode text) →
    Refused path (.ok bytes) ("Error reading " ++ path ++ ": stream did not contain valid UTF-8")
  | invalid : Refused path (.error .notText)
    ("Error reading " ++ path ++ ": stream did not contain valid UTF-8")
  /-- It is there and cannot be read, for a reason that the system gives. -/
  | other {reason : String} : Refused path (.error (.other reason))
    ("Error reading " ++ path ++ ": " ++ reason)

/-- The two commands for a path. The word `--` says that what follows it is the path,
whatever it looks like. -/
structure FileCommands (libraries : Libraries) (around : Surroundings) (path : String) :
    Prop where
  runs : FileRuns (Gives (around.files path)) (Refused path (around.files path)) path
    (libraries.logging.log around.setting).Off libraries.logging.line
    (.ofArguments libraries around ["scan", "--", path])
    (.ofArguments libraries around ["check", "--", path])
  /-- A path that does not look like an option needs no such word. -/
  plain : looksLikeOption path = false →
    Run.ofArguments libraries around ["scan", path] =
        .ofArguments libraries around ["scan", "--", path] ∧
      Run.ofArguments libraries around ["check", path] =
        .ofArguments libraries around ["check", "--", path]
  /-- Whatever words follow, a path or not, the exit codes are the same. -/
  exit_eq : ∀ words, (Run.ofArguments libraries around ("scan" :: words)).exit =
    (Run.ofArguments libraries around ("check" :: words)).exit

/-! The two runs -/

namespace Run

section

variable {gives refused : String → Prop} {path source : String}

theorem fileRuns_readable {files : Files} {input : List UInt8} (log : Log)
    (line : Nat → Event → String) (hfile : files.source path = .ok source)
    (hsource : ∀ other, gives other ↔ other = source) (hrefused : ∀ message, ¬ refused message) :
    FileRuns gives refused path log.Off line (ofCommand log files input (.file .scan path))
      (ofCommand log files input (.file .check path)) := by
  have hscan : ofCommand log files input (.file .scan path) = scanned log path source :=
    ofCommand_scan hfile
  have hcheck : ofCommand log files input (.file .check path) = checked log path source := by
    simp only [ofCommand, hfile, onSource]
  have hexit : (checked log path source).exit = (scanned log path source).exit := rfl
  exact {
    exit_eq := by rw [hscan, hcheck, hexit]
    unreadable := by
      rw [hscan]
      obtain ⟨hexit, -⟩ | ⟨hexit, -⟩ := exit_scanned log path source <;> simp [hexit, hrefused]
    faulty := by
      rw [hscan]
      obtain ⟨hexit, h⟩ | ⟨hexit, h⟩ := exit_scanned log path source <;> simp [hexit, hsource, h]
    clean := by
      rw [hscan]
      obtain ⟨hexit, h⟩ | ⟨hexit, h⟩ := exit_scanned log path source <;> simp [hexit, hsource, h]
    message := fun message h => absurd h (hrefused message)
    reported := by
      intro other h hoff
      obtain rfl := (hsource other).mp h
      rw [stderr_ofCommand hoff, stderr_ofCommand hoff, hscan, hcheck, complaints_scanned,
        complaints_checked]
      exact ⟨rfl, rfl⟩
    printed := by
      intro other h
      obtain rfl := (hsource other).mp h
      rw [hscan, stdout_scanned_exit]
      refine ⟨?_, rfl⟩
      rw [scan, Scan.ofSource, Scan.getLast?_tokens]
      rfl
    silent := by rw [hcheck, stdout_checked] }

theorem fileRuns_unreadable {fault : ReadFault} (off : Prop) (line : Nat → Event → String)
    (hgives : ∀ source, ¬ gives source)
    (hrefused : ∀ message, refused message ↔ message = fault.message path) :
    FileRuns gives refused path off line (unreadable path fault) (unreadable path fault) where
  exit_eq := rfl
  unreadable := by simp [hrefused, unreadable, exitUnreadable]
  faulty := by simp [hgives, unreadable, exitUnreadable]
  clean := by simp [hgives, unreadable, exitUnreadable]
  message message h := by
    obtain rfl := (hrefused message).mp h
    have hstderr : (unreadable path fault).stderr line = fault.message path ++ "\n" :=
      String.append_empty
    exact ⟨rfl, rfl, fun _ => ⟨hstderr, hstderr⟩⟩
  reported source h := absurd h (hgives source)
  printed source h := absurd h (hgives source)
  silent := rfl

end

end Run

/-! Paths -/

section

variable (files : Files) (path : String)

/-- The paths that give a text lead to its file. -/
theorem gives_iff (source : String) :
    Gives (files path) source ↔ files.source path = .ok source := by
  unfold Gives Files.source
  cases files path with
  | error fault => simp
  | ok bytes =>
    dsimp only
    rw [Except.ok.injEq, ← Text.decode?_eq_some_iff]
    cases Text.decode? bytes <;> simp

theorem refused_iff (message : String) :
    Refused path (files path) message ↔
      ∃ fault, files.source path = .error fault ∧ message = fault.message path := by
  unfold Files.source
  generalize files path = found
  constructor
  · intro h
    cases h with
    | missing => exact ⟨.missing, rfl, rfl⟩
    | directory => exact ⟨.directory, rfl, rfl⟩
    | invalid => exact ⟨.notText, rfl, rfl⟩
    | other => exact ⟨.other _, rfl, rfl⟩
    | @notText bytes hnot =>
      have hdecode : Text.decode? bytes = none := by
        cases htext : Text.decode? bytes with
        | none => rfl
        | some text => exact absurd (Text.decode?_eq_some_iff.mp htext) (hnot _)
      exact ⟨.notText, by simp [hdecode], rfl⟩
  · intro ⟨fault, hfault, hmessage⟩
    subst hmessage
    cases found with
    | error found =>
      obtain rfl : found = fault := by simpa using hfault
      cases found with
      | missing => exact .missing
      | directory => exact .directory
      | notText => exact .invalid
      | other reason => exact .other
    | ok bytes =>
      dsimp only at hfault
      cases htext : Text.decode? bytes with
      | some text => simp [htext] at hfault
      | none =>
        obtain rfl : ReadFault.notText = fault := by simpa [htext] using hfault
        refine .notText ?_
        intro text hbytes
        rw [hbytes, Text.decode?_encode] at htext
        cases htext

end

theorem Run.fileRuns_ofCommand (log : Log) (line : Nat → Event → String) (files : Files)
    (input : List UInt8) (path : String) :
    FileRuns (Gives (files path)) (Refused path (files path)) path log.Off line
      (ofCommand log files input (.file .scan path))
      (ofCommand log files input (.file .check path)) := by
  cases hsource : files.source path with
  | ok source =>
    apply fileRuns_readable log line hsource
    · intro other
      rw [gives_iff, hsource, Except.ok.injEq, eq_comm]
    · intro message
      rw [refused_iff, hsource]
      simp
  | error fault =>
    simp only [ofCommand, hsource]
    apply fileRuns_unreadable
    · intro source
      rw [gives_iff, hsource]
      simp
    · intro message
      rw [refused_iff, hsource]
      simp

/-! Command lines -/

/-- **The commands that read a file**, for every path and all files. -/
theorem fileCommands_ofArguments {libraries : Libraries} (h : libraries.parser.Documented)
    (around : Surroundings) (path : String) : FileCommands libraries around path := by
  have hscan : Run.ofArguments libraries around ["scan", "--", path] = .ofCommand _ _ _ _ :=
    Run.ofArguments_of_run (Request.read_escaped h .scan path)
  have hcheck : Run.ofArguments libraries around ["check", "--", path] = .ofCommand _ _ _ _ :=
    Run.ofArguments_of_run (Request.read_escaped h .check path)
  have hruns := fun path => Run.fileRuns_ofCommand (libraries.logging.log around.setting)
    libraries.logging.line around.files around.input path
  refine ⟨?_, fun hplain => ⟨?_, ?_⟩, fun words => ?_⟩
  · rw [hscan, hcheck]
    exact hruns path
  · rw [hscan]
    exact Run.ofArguments_of_run (Request.read_path h .scan hplain)
  · rw [hcheck]
    exact Run.ofArguments_of_run (Request.read_path h .check hplain)
  · obtain ⟨path, hrun⟩ | hrun | hrun := Run.afterWord_cases h around words
    · calc (Run.ofArguments libraries around ("scan" :: words)).exit
        _ = _ := congrArg Run.exit (hrun .scan)
        _ = _ := (hruns path).exit_eq
        _ = _ := (congrArg Run.exit (hrun .check)).symm
    · exact (congrArg Run.exit (hrun .scan)).trans (congrArg Run.exit (hrun .check)).symm
    · exact (congrArg Run.exit (hrun .scan)).trans (congrArg Run.exit (hrun .check)).symm

/-- A file that has a fault in it, under a path that is only a dash, with a log. -/
theorem fileCommands_ofArguments_dash :
    FileCommands ⟨reader, logFilter⟩ ⟨some "debug", Run.fileOf (Text.encode "x #".toList), []⟩
      "-" :=
  fileCommands_ofArguments documented_reader _ "-"

/-- What a path leads to is nothing, a directory, or bytes that are no text. -/
def NoText (found : Except ReadFault (List UInt8)) : Prop :=
  found = .error .missing ∨ found = .error .directory ∨
    ∃ bytes, found = .ok bytes ∧ ∀ text, bytes ≠ Text.encode text

/-- Files that are there and may not be read. -/
def lockedFiles : Files := fun _ => .error (.other "Permission denied (os error 13)")

def noFiles : Files := fun _ => .error .missing

/-- **The exit code is 66 for other reasons too, and not for every path**: a file may be kept
from being read, and a word that looks like an option is not taken for a path. -/
theorem exit_of_locked_file :
    ¬ ((Run.ofArguments ⟨reader, logFilter⟩ ⟨none, lockedFiles, []⟩ ["scan", "a.seq"]).exit = 66 ↔
        NoText (lockedFiles "a.seq")) ∧
      ¬ ((Run.ofArguments ⟨reader, logFilter⟩ ⟨none, noFiles, []⟩ ["scan", "-x"]).exit = 66 ↔
        NoText (noFiles "-x")) := by
  have hlocked : (Run.ofArguments ⟨reader, logFilter⟩ ⟨none, lockedFiles, []⟩
      ["scan", "a.seq"]).exit = 66 := by decide +kernel
  have hoption : (Run.ofArguments ⟨reader, logFilter⟩ ⟨none, noFiles, []⟩
      ["scan", "-x"]).exit = 64 := by decide +kernel
  constructor
  · simp [hlocked, NoText, lockedFiles]
  · simp [hoption, NoText, noFiles]

end SeqScan
