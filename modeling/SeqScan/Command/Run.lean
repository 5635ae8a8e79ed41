import SeqScan.Command.Parser
import SeqScan.Logging
import SeqScan.Source

/-
  Runs of the program.

  A run is its exit code and everything it writes, in order: text for standard output, text
  for standard error, and events that the log shows, which share standard error. It is given
  words, and what it finds around it: a setting for the log, files, and standard input. The
  parser of the words and the log come from libraries.

    `cmd_scan`, `cmd_check`     `Run.scanned`, `Run.checked`; `read_source` before them in
                                `Run.ofCommand`
    `cmd_repl`                  `Run.session`, line by line `Run.answer`
    `token_lines`, `report`     `Run.printed`, `Run.reported`
    `main`                      `Run.ofArguments`

  What is proved:
    1. `stdout_append`, `stderrFrom_append`: what is written in turn is seen in turn.
    2. `ofCommand_scan`: a file that gives a text is scanned.
    3. `replWrites_append`: a session goes on as if the lines before had not been.
-/

namespace SeqScan

/-- Something a run writes. -/
inductive Write where
  | out (text : String)
  | err (text : String)
  | log (event : Event)
  deriving DecidableEq, Repr

namespace Write

/-- What standard output gets. -/
def outText : Write → String
  | out text => text
  | err _ | log _ => ""

/-- What standard error gets at a moment. -/
def errText (line : Nat → Event → String) (moment : Nat) : Write → String
  | out _ => ""
  | err text => text
  | log event => line moment event ++ "\n"

/-- Everything that standard output gets. -/
def stdout (writes : List Write) : String := String.join (writes.map outText)

/-- Everything that standard error gets, from a moment on. -/
def stderrFrom (line : Nat → Event → String) : Nat → List Write → String
  | _, [] => ""
  | moment, w :: writes => w.errText line moment ++ stderrFrom line (moment + 1) writes

theorem stdout_append (a b : List Write) : stdout (a ++ b) = stdout a ++ stdout b := by
  simp [stdout]

theorem stderrFrom_append (line : Nat → Event → String) (moment : Nat) (a b : List Write) :
    stderrFrom line moment (a ++ b) =
      stderrFrom line moment a ++ stderrFrom line (moment + a.length) b := by
  induction a generalizing moment with
  | nil => simp [stderrFrom]
  | cons w a ih =>
    rw [List.cons_append, stderrFrom, ih, stderrFrom, String.append_assoc, List.length_cons,
      Nat.add_comm a.length 1, Nat.add_assoc]

end Write

/-- A run: how it ended and what it wrote. -/
structure Run where
  exit : Nat
  writes : List Write
  deriving DecidableEq, Repr

/-- What the program has from libraries. -/
structure Libraries where
  parser : ArgumentParser
  logging : Logging

/-- What a run finds around it. -/
structure Surroundings where
  /-- The setting for the log (`RUST_LOG`), if there is one. -/
  setting : Option String
  files : Files
  input : List UInt8

namespace Run

/-- What a run writes to standard output. -/
def stdout (r : Run) : String := Write.stdout r.writes

/-- What a run writes to standard error. -/
def stderr (r : Run) (line : Nat → Event → String) : String := Write.stderrFrom line 0 r.writes

/-! Exit codes -/

/-- The command line makes no sense. -/
def exitMisuse : Nat := 64

/-- Something is wrong with the text. -/
def exitFaulty : Nat := 65

/-- The file cannot be read. -/
def exitUnreadable : Nat := 66

/-! What a scan writes -/

def told (log : Log) (events : List Event) : List Write := (events.filter log).map Write.log

/-- The log of a scan. -/
def logged (log : Log) (source : String) : List Write :=
  told log (Scan.events .standard source.toList)

def printed (s : Scan) : List Write := s.tokens.map fun t => .out (t.text ++ "\n")

def reported (s : Scan) : List Write := s.diagnostics.map fun d => .err (d.text ++ "\n")

def exitOf (s : Scan) : Nat := if s.hasFaults then exitFaulty else 0

def unreadable (path : String) (fault : ReadFault) : Run :=
  ⟨exitUnreadable, [.err (fault.message path ++ "\n")]⟩

/-- The run that scans a text and prints its tokens. -/
def scanned (log : Log) (path source : String) : Run :=
  let result := scan source
  let verdict := if result.hasFaults then "\nFailure!\n" else "\nSUCCESS!\n"
  { exit := exitOf result
    writes := told log [.scanningFile path source.utf8ByteSize] ++ logged log source ++
      printed result ++ reported result ++ [.out verdict] }

/-- The run that scans a text and only reports what is wrong. -/
def checked (log : Log) (path source : String) : Run :=
  let result := scan source
  { exit := exitOf result
    writes := logged log source ++ reported result ++
      (if result.hasFaults then [] else [.err ("OK: " ++ path ++ "\n")]) }

/-! The lines of a session -/

/-- What invites a line. -/
def prompt : Write := .out "> "

/-- What is written for one line. -/
def lineWrites (log : Log) (line : String) : List Write :=
  logged log line ++ printed (scan line) ++ reported (scan line)

/-- What is said of a line that is no text. -/
def notTextWrite : Write := .err "Error reading input: stream did not contain valid UTF-8\n"

/-- What is written for the bytes of a line, and whether the session goes on after it. A line
that is no text ends it. -/
def answer (log : Log) (line : List UInt8) : List Write × Bool :=
  match Text.decode? line with
  | some text => (lineWrites log text, true)
  | none => ([notTextWrite], false)

theorem answer_of_text {log : Log} {line : List UInt8} {text : String}
    (h : Text.decode? line = some text) : answer log line = (lineWrites log text, true) := by
  rw [answer, h]

theorem answer_of_not_text {log : Log} {line : List UInt8} (h : Text.decode? line = none) :
    answer log line = ([notTextWrite], false) := by
  rw [answer, h]

/-- What a session writes for the lines it reads. -/
def replWrites (log : Log) : List (List UInt8) → List Write
  | [] => [prompt]
  | line :: rest =>
    prompt :: ((answer log line).1 ++ if (answer log line).2 then replWrites log rest else [])

def session (log : Log) (input : List UInt8) : Run := ⟨0, replWrites log (Text.byteLines input)⟩

/-! Whole runs -/

def onSource (log : Log) (path source : String) : FileCommand → Run
  | .scan => scanned log path source
  | .check => checked log path source

def ofCommand (log : Log) (files : Files) (input : List UInt8) : Command → Run
  | .file command path =>
    match files.source path with
    | .ok source => onSource log path source command
    | .error fault => unreadable path fault
  | .repl => session log input

theorem ofCommand_scan {log : Log} {files : Files} {input : List UInt8} {path source : String}
    (h : files.source path = .ok source) :
    ofCommand log files input (.file .scan path) = scanned log path source := by
  simp only [ofCommand, h, onSource]

def stopText (p : ArgumentParser) (words : List String) : Stop → String
  | .help topic => p.helpText tagscan topic
  | .version => p.versionText tagscan
  | .misuse => p.misuseText tagscan words

/-- The run of a command line that asks for no command. -/
def stopped (p : ArgumentParser) (words : List String) (stop : Stop) : Run :=
  if stop.isFailure then ⟨exitMisuse, [.err (stopText p words stop)]⟩
  else ⟨0, [.out (stopText p words stop)]⟩

/-- Run the program on its arguments. -/
def ofArguments (libraries : Libraries) (around : Surroundings) (words : List String) : Run :=
  match Request.read libraries.parser words with
  | .run command =>
    ofCommand (libraries.logging.log around.setting) around.files around.input command
  | .stop stop => stopped libraries.parser words stop

/-! A session has no memory -/

theorem replWrites_ne_nil (log : Log) (lines : List (List UInt8)) : replWrites log lines ≠ [] := by
  unfold replWrites
  split <;> simp

theorem replWrites_append (log : Log) {lines : List (List UInt8)}
    (h : ∀ line ∈ lines, (Text.decode? line).isSome) (rest : List (List UInt8)) :
    replWrites log (lines ++ rest) = (replWrites log lines).dropLast ++ replWrites log rest := by
  induction lines with
  | nil => rfl
  | cons line others ih =>
    obtain ⟨text, htext⟩ := Option.isSome_iff_exists.mp (h line List.mem_cons_self)
    rw [List.cons_append, replWrites, replWrites, answer_of_text htext,
      ih fun l hl => h l (List.mem_cons_of_mem _ hl)]
    show _ = ((prompt :: lineWrites log text) ++ replWrites log others).dropLast ++ _
    rw [List.dropLast_append_of_ne_nil (replWrites_ne_nil log others)]
    simp

end Run

end SeqScan
