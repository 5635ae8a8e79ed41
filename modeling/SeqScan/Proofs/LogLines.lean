import Mathlib.Data.List.Basic
import Mathlib.Data.List.Flatten
import Mathlib.Data.List.TakeWhile
import SeqScan.LogFilter
import SeqScan.Proofs.CommandLines
import SeqScan.Proofs.Reader
import SeqScan.Proofs.Recorded
import SeqScan.Proofs.Writes

/-
  What a log adds to a run.

  The log shares standard error with the program. A run tells it, for every scan, what it has
  to tell before it gives the tokens and reports what is wrong, and does nothing else with the
  setting. So a setting changes nothing that is printed, nor the exit code, and on standard
  error it only puts lines before the diagnostics of each scan.

  Which events a setting shows is assumed, for the settings of the common form
  (`Logging.Filters`); how a line looks is left open, and may change from moment to moment.

  What is proved:
    1. `exit_ofCommand`, `stdout_writes`: what does not depend on the log.
    2. `exists_closing`: what a run writes is what it writes for each of its scans, and then
       something that is not for the log.
    3. `exists_interleaved`: what standard error gets of the scans.
    4. `filters_logFilter`: the program's own log reads settings as is assumed.
    5. `logApart_run`: the whole law, for every command line, all files and every input.
-/

namespace SeqScan

/-! Scans within a run -/

/-- A scan within a run. -/
structure Turn where
  /-- What invites the text. -/
  invite : List String
  /-- What the log is told before the scan. -/
  announced : List Event
  source : String
  /-- The tokens that are printed. -/
  printed : List Token

namespace Turn

def ofFile (path source : String) : FileCommand → Turn
  | .scan => ⟨[], [.scanningFile path source.utf8ByteSize], source, (scan source).tokens⟩
  | .check => ⟨[], [], source, []⟩

def ofLine (line : String) : Turn := ⟨["> "], [], line, (scan line).tokens⟩

/-- All that is written, in order, where the log shows `shown`. -/
def writes (t : Turn) (shown : List Event) : List Write :=
  t.invite.map (fun text => .out text) ++ (shown.map Write.log ++
    (t.printed.map (fun token => .out (token.text ++ "\n")) ++
      (scan t.source).diagnostics.map fun d => .err (d.text ++ "\n")))

/-- All that the log is told, in order: what is announced, and then a record of the scan, of
which only the last entry, which sums up, is for debugging and the rest for tracing. -/
def Tells (t : Turn) (events : List Event) : Prop :=
  ∃ scanned, events = t.announced ++ scanned ∧
    Recorded .standard t.source.toList (scan t.source) (scanned.map Event.entry) ∧
    ∀ e ∈ scanned, e.target = "tagscan_lexer::scanner" ∧
      e.level = if e.message = "scan finished" then .debug else .trace

end Turn

/-- The lines that a session reads as texts: all before the first that is none. -/
def textsRead : List (List UInt8) → List String
  | [] => []
  | line :: rest =>
    match Text.decode? line with
    | some text => text :: textsRead rest
    | none => []

def turns (files : Files) (input : List UInt8) : Request → List Turn
  | .run (.file command path) =>
    match files.source path with
    | .ok source => [.ofFile path source command]
    | .error _ => []
  | .run .repl => (textsRead (Text.byteLines input)).map .ofLine
  | .stop _ => []

/-! What standard error gets -/

/-- Lines for events, in their order, each written at some moment. -/
inductive LogText (line : Nat → Event → String) : List Event → String → Prop
  | nil : LogText line [] ""
  | cons {e : Event} {events : List Event} {text : String} (moment : Nat) :
    LogText line events text → LogText line (e :: events) (line moment e ++ "\n" ++ text)

/-- Of each scan the lines of the log, and then those of the diagnostics. -/
inductive Interleaved (line : Nat → Event → String) (shown : Turn → List Event) :
    List Turn → String → Prop
  | nil : Interleaved line shown [] ""
  | cons {t : Turn} {ts : List Turn} {logged rest : String} : LogText line (shown t) logged →
    Interleaved line shown ts rest → Interleaved line shown (t :: ts)
      (logged ++ String.join ((scan t.source).diagnostics.map (·.text ++ "\n")) ++ rest)

/-- The scans `ts` of a run, of which the log is told `told`, and what is written after them. -/
structure LogLines (logging : Logging) (ts : List Turn) (told : Turn → List Event)
    (closing : List Write) (run : Option String → Run) : Prop where
  tells : ∀ t ∈ ts, t.Tells (told t)
  closed : ∀ e, .log e ∉ closing
  /-- Without a setting the log shows nothing. -/
  unset : (run none).writes = ts.flatMap (·.writes []) ++ closing ∧
    (run none).stderr logging.line = String.join (ts.map fun t =>
      String.join ((scan t.source).diagnostics.map (·.text ++ "\n"))) ++ Write.complaints closing
  /-- A setting shows the events of which the target begins with its own, up to its level: of
  each scan before any of its results, and after all that is written for the scans before it. -/
  set : ∀ setting target level, Sets setting target level →
    (run (some setting)).writes =
        ts.flatMap (fun t => t.writes ((told t).filter (Log.upTo target level))) ++ closing ∧
      ∃ text, Interleaved logging.line (fun t => (told t).filter (Log.upTo target level)) ts text ∧
        (run (some setting)).stderr logging.line = text ++ Write.complaints closing
  /-- What is shown at a level is shown at a more verbose one too, in the same order. -/
  sublist : ∀ target level level', Level.verbosity level ≤ Level.verbosity level' →
    (ts.flatMap fun t => (told t).filter (Log.upTo target level)).Sublist
      (ts.flatMap fun t => (told t).filter (Log.upTo target level'))

/-- A command line on some files and an input, with the log on and off. -/
structure LogApart (libraries : Libraries) (files : Files) (input : List UInt8)
    (words : List String) : Prop where
  exit_eq : ∀ setting, (Run.ofArguments libraries ⟨setting, files, input⟩ words).exit =
    (Run.ofArguments libraries ⟨none, files, input⟩ words).exit
  stdout_eq : ∀ setting, (Run.ofArguments libraries ⟨setting, files, input⟩ words).stdout =
    (Run.ofArguments libraries ⟨none, files, input⟩ words).stdout
  logLines : ∃ told closing, LogLines libraries.logging
    (turns files input (Request.read libraries.parser words)) told closing
    fun setting => Run.ofArguments libraries ⟨setting, files, input⟩ words

/-! What does not depend on the log -/

theorem Run.exit_ofCommand (log log' : Log) (files : Files) (input : List UInt8)
    (command : Command) :
    (ofCommand log files input command).exit = (ofCommand log' files input command).exit := by
  cases command with
  | repl => rfl
  | file command path =>
    simp only [ofCommand]
    cases files.source path with
    | error fault => rfl
    | ok source => cases command <;> rfl

theorem Placed.mem_events {table : ReservedWords} {p : Placed} {e : Event}
    (h : e ∈ p.events table) : (∃ kind line, e = .reservedWord kind line) ∨
      (∃ t, e = .token t) ∨ ∃ d, e = .diagnostic d := by
  simp only [events, List.mem_append, Option.mem_toList, Option.map_eq_some_iff] at h
  obtain (h | ⟨t, -, rfl⟩) | ⟨d, -, rfl⟩ := h
  · unfold reserved? at h
    split at h
    · cases hclass : p.piece.nameClass table <;> rw [hclass] at h <;> cases h
      exact .inl ⟨_, _, rfl⟩
    · cases h
  · exact .inr (.inl ⟨t, rfl⟩)
  · exact .inr (.inr ⟨d, rfl⟩)

namespace Turn

def told (t : Turn) : List Event := t.announced ++ Scan.events .standard t.source.toList

theorem tells_told (t : Turn) : t.Tells t.told := by
  refine ⟨_, rfl, Scan.recorded .standard t.source, fun e he => ?_⟩
  rw [Scan.events, List.mem_append, List.mem_singleton, List.mem_flatMap] at he
  obtain ⟨p, _, hp⟩ | rfl := he
  · obtain ⟨kind, line, rfl⟩ | ⟨token, rfl⟩ | ⟨d, rfl⟩ := Placed.mem_events hp
    · exact ⟨rfl, rfl⟩
    · exact ⟨rfl, rfl⟩
    · exact ⟨rfl, rfl⟩
  · exact ⟨rfl, rfl⟩

theorem stdout_writes (t : Turn) (shown : List Event) :
    Write.stdout (t.writes shown) = Write.stdout (t.writes []) := by
  have hlog : Write.stdout (shown.map Write.log) = "" := by
    apply Write.join_eq_empty
    intro w hw
    obtain ⟨e, _, rfl⟩ := List.mem_map.mp hw
    rfl
  rw [writes, writes, Write.stdout_append, Write.stdout_append, Write.stdout_append, hlog,
    List.map_nil, List.nil_append, String.empty_append, Write.stdout_append, Write.stdout_append]

theorem stdout_flatMap (ts : List Turn) (shown : Turn → List Event) :
    Write.stdout (ts.flatMap fun t => t.writes (shown t)) =
      Write.stdout (ts.flatMap (·.writes [])) := by
  induction ts with
  | nil => rfl
  | cons t ts ih =>
    rw [List.flatMap_cons, List.flatMap_cons, Write.stdout_append, Write.stdout_append, ih,
      stdout_writes]

end Turn

/-! What a run writes -/

theorem exists_closing_repl (lines : List (List UInt8)) :
    ∃ closing, (∀ e, Write.log e ∉ closing) ∧ ∀ log, Run.replWrites log lines =
      ((textsRead lines).map Turn.ofLine).flatMap (fun t => t.writes (t.told.filter log)) ++
        closing := by
  induction lines with
  | nil => exact ⟨[Run.prompt], by simp [Run.prompt], fun _ => rfl⟩
  | cons line rest ih =>
    cases htext : Text.decode? line with
    | none =>
      refine ⟨[Run.prompt, Run.notTextWrite], by simp [Run.prompt, Run.notTextWrite], ?_⟩
      intro log
      rw [Run.replWrites, Run.answer_of_not_text htext, textsRead, htext]
      rfl
    | some text =>
      obtain ⟨closing, hclosing, hrest⟩ := ih
      refine ⟨closing, hclosing, fun log => ?_⟩
      rw [Run.replWrites, Run.answer_of_text htext, textsRead, htext]
      simp [hrest, Turn.writes, Turn.told, Turn.ofLine, Run.lineWrites, Run.logged, Run.told,
        Run.printed, Run.reported, Run.prompt]

theorem exists_closing_command (files : Files) (input : List UInt8) (command : Command) :
    ∃ closing, (∀ e, Write.log e ∉ closing) ∧ ∀ log,
      (Run.ofCommand log files input command).writes =
        (turns files input (.run command)).flatMap (fun t => t.writes (t.told.filter log)) ++
          closing := by
  cases command with
  | repl => exact exists_closing_repl (Text.byteLines input)
  | file command path =>
    simp only [Run.ofCommand, turns]
    cases files.source path with
    | error fault => exact ⟨_, by simp, fun _ => rfl⟩
    | ok source =>
      cases command with
      | scan =>
        refine ⟨[.out (if (scan source).hasFaults then "\nFailure!\n" else "\nSUCCESS!\n")],
          by simp, fun log => ?_⟩
        simp [Run.onSource, Run.scanned, Run.logged, Run.told, Run.printed, Run.reported,
          Turn.ofFile, Turn.writes, Turn.told, List.filter_cons]
      | check =>
        refine ⟨if (scan source).hasFaults then [] else [.err ("OK: " ++ path ++ "\n")], ?_,
          fun log => ?_⟩
        · split <;> simp
        · simp [Run.onSource, Run.checked, Run.logged, Run.told, Run.reported, Turn.ofFile,
            Turn.writes, Turn.told]

/-- **What a run writes** is what it writes for its scans, and then something that is not for
the log. -/
theorem exists_closing (libraries : Libraries) (files : Files) (input : List UInt8)
    (words : List String) :
    ∃ closing, (∀ e, Write.log e ∉ closing) ∧ ∀ setting,
      (Run.ofArguments libraries ⟨setting, files, input⟩ words).writes =
        (turns files input (Request.read libraries.parser words)).flatMap
          (fun t => t.writes (t.told.filter (libraries.logging.log setting))) ++ closing := by
  simp only [Run.ofArguments]
  cases Request.read libraries.parser words with
  | run command =>
    obtain ⟨closing, hclosing, hwrites⟩ := exists_closing_command files input command
    exact ⟨closing, hclosing, fun setting => hwrites _⟩
  | stop stop =>
    refine ⟨(Run.stopped libraries.parser words stop).writes, fun e => ?_, fun _ => rfl⟩
    cases stop <;> simp [Run.stopped, Stop.isFailure]

/-! Text by text -/

section

variable (line : Nat → Event → String)

theorem exists_logText (events : List Event) (moment : Nat) :
    LogText line events (Write.stderrFrom line moment (events.map .log)) := by
  induction events generalizing moment with
  | nil => exact .nil
  | cons e events ih => exact .cons moment (ih (moment + 1))

theorem stderrFrom_outs {α : Type} (text : α → String) (xs : List α) (moment : Nat) :
    Write.stderrFrom line moment (xs.map fun x => .out (text x)) = "" := by
  induction xs generalizing moment with
  | nil => rfl
  | cons x xs ih =>
    rw [List.map_cons, Write.stderrFrom, ih]
    rfl

theorem stderrFrom_errs {α : Type} (text : α → String) (xs : List α) (moment : Nat) :
    Write.stderrFrom line moment (xs.map fun x => .err (text x)) =
      String.join (xs.map text) := by
  induction xs generalizing moment with
  | nil => rfl
  | cons x xs ih =>
    rw [List.map_cons, Write.stderrFrom, ih, List.map_cons, String.join_cons]
    rfl

/-- **One scan.** Standard error gets the lines of the log and then the diagnostics. -/
theorem Turn.exists_logged (t : Turn) (shown : List Event) (moment : Nat) :
    ∃ logged, LogText line shown logged ∧ Write.stderrFrom line moment (t.writes shown) =
      logged ++ String.join ((scan t.source).diagnostics.map (·.text ++ "\n")) := by
  rw [writes, Write.stderrFrom_append, Write.stderrFrom_append, Write.stderrFrom_append,
    stderrFrom_outs, stderrFrom_outs, stderrFrom_errs, String.empty_append, String.empty_append]
  exact ⟨_, exists_logText line shown _, rfl⟩

/-- **All scans**, one after the other. -/
theorem exists_interleaved (ts : List Turn) (shown : Turn → List Event) (moment : Nat) :
    Interleaved line shown ts
      (Write.stderrFrom line moment (ts.flatMap fun t => t.writes (shown t))) := by
  induction ts generalizing moment with
  | nil => exact .nil
  | cons t ts ih =>
    rw [List.flatMap_cons, Write.stderrFrom_append]
    obtain ⟨logged, hlogged, htext⟩ := t.exists_logged line (shown t) moment
    rw [htext]
    exact .cons hlogged (ih _)

/-- Without events there are only diagnostics. -/
theorem Interleaved.eq_of_silent {line : Nat → Event → String} {ts : List Turn} {text : String}
    (h : Interleaved line (fun _ => []) ts text) : text = String.join (ts.map fun t =>
      String.join ((scan t.source).diagnostics.map (·.text ++ "\n"))) := by
  induction h with
  | nil => rfl
  | cons hlogged _ ih =>
    cases hlogged
    rw [List.map_cons, String.join_cons, ← ih, String.empty_append]

end

/-! Reading a setting -/

namespace LogFilter

/-- A level has no equals sign in it. -/
theorem equals_notMem_of_readLevel? {text : List Char} {level : Option Level}
    (h : readLevel? text = some level) : '=' ∉ text := by
  intro hmem
  have hlower : '=' ∈ (String.ofList (text.map Char.toLower)).toList := by
    rw [String.toList_ofList]
    exact List.mem_map.mpr ⟨'=', hmem, rfl⟩
  unfold readLevel? at h
  generalize String.ofList (text.map Char.toLower) = word at h hlower
  split at h
  all_goals first
    | exact absurd hlower (by decide)
    | cases h

theorem readLevel?_of_isWord {level : Option Level} {word : String}
    (h : Level.IsWord level word) : readLevel? word.toList = some level := by
  rcases h with h | rfl
  · have hlower : String.ofList (word.toList.map Char.toLower) = Level.settingName level := by
      rw [← h, ← String.toList_map, String.ofList_toList]
    rw [readLevel?, hlower]
    rcases level with _ | level
    · rfl
    · cases level <;> rfl
  · rcases level with _ | level
    · decide +kernel
    · cases level <;> decide +kernel

theorem read_of_isWord {level : Option Level} {word : String} (h : Level.IsWord level word) :
    read word = ⟨"", level⟩ := by
  have hword := readLevel?_of_isWord h
  have hno := Shape.bne_of_notMem (equals_notMem_of_readLevel? hword)
  have hbefore : word.toList.takeWhile (· != '=') = word.toList :=
    List.takeWhile_eq_self_iff.mpr hno
  have hafter : word.toList.dropWhile (· != '=') = [] := List.dropWhile_eq_nil_iff.mpr hno
  simp only [read, hbefore, hafter, hword]

/-- A setting is split at its first equals sign. -/
theorem read_append {a b : List Char} (ha : '=' ∉ a) :
    read (String.ofList (a ++ '=' :: b)) = ⟨String.ofList a, (readLevel? b).join⟩ := by
  have hno := Shape.bne_of_notMem ha
  have hbefore : (a ++ '=' :: b).takeWhile (· != '=') = a := by
    rw [List.takeWhile_append_of_pos hno]
    simp
  have hafter : (a ++ '=' :: b).dropWhile (· != '=') = '=' :: b := by
    rw [List.dropWhile_append_of_pos hno]
    simp
  simp only [read, String.toList_ofList, hbefore, hafter]

theorem read_of_sets {setting target : String} {level : Option Level}
    (h : Sets setting target level) : read setting = ⟨target, level⟩ := by
  cases h with
  | level hword => exact read_of_isWord hword
  | @target _ word _ htarget hword =>
    have hsetting : target ++ "=" ++ word =
        String.ofList (target.toList ++ '=' :: word.toList) := by
      apply String.toList_inj.mp
      simp
    have hequals : '=' ∉ target.toList := by
      intro hmem
      obtain h | h | ⟨h, -⟩ := htarget.2 '=' hmem
      · exact absurd h (by decide)
      · exact absurd h (by decide)
      · exact absurd h (by decide)
    rw [hsetting, read_append hequals, readLevel?_of_isWord hword, String.ofList_toList]
    rfl

example : read "tagscan_lexer=Debug" = ⟨"tagscan_lexer", some .debug⟩ := by decide +kernel

end LogFilter

theorem filters_logFilter : logFilter.Filters := by
  intro setting target level h e
  show Log.upTo (LogFilter.read setting).target (LogFilter.read setting).level e = _
  rw [LogFilter.read_of_sets h]

/-! The whole law -/

theorem Log.upTo_mono {target : String} {level level' : Option Level}
    (h : Level.verbosity level ≤ Level.verbosity level') {e : Event}
    (he : upTo target level e = true) : upTo target level' e = true := by
  rw [upTo, Bool.and_eq_true, decide_eq_true_iff] at he ⊢
  exact ⟨he.1, Nat.le_trans he.2 h⟩

/-- **The log keeps apart**: whatever the setting is, a run prints the same and ends the same,
and standard error gets the same with lines put in. This holds for every command line, all
files and every input. -/
theorem logApart_run {libraries : Libraries} (h : libraries.logging.Filters) (files : Files)
    (input : List UInt8) (words : List String) : LogApart libraries files input words := by
  obtain ⟨closing, hclosing, hwrites⟩ := exists_closing libraries files input words
  have hunset : (Run.ofArguments libraries ⟨none, files, input⟩ words).writes =
      (turns files input (Request.read libraries.parser words)).flatMap (·.writes []) ++
        closing := by
    rw [hwrites none]
    simp [Logging.log]
  have hstderr : ∀ writes, Write.stderrFrom libraries.logging.line 0 (writes ++ closing) =
      Write.stderrFrom libraries.logging.line 0 writes ++ Write.complaints closing := by
    intro writes
    rw [Write.stderrFrom_append, Write.stderrFrom_of_log_notMem hclosing]
  refine ⟨fun setting => ?_, fun setting => ?_, Turn.told, closing, ?_⟩
  · simp only [Run.ofArguments]
    cases Request.read libraries.parser words with
    | run command => exact Run.exit_ofCommand _ _ files input command
    | stop stop => rfl
  · rw [Run.stdout, Run.stdout, hunset, hwrites, Write.stdout_append, Write.stdout_append,
      Turn.stdout_flatMap]
  · refine ⟨fun t _ => t.tells_told, hclosing, ⟨hunset, ?_⟩, ?_, ?_⟩
    · rw [Run.stderr, hunset, hstderr]
      rw [(exists_interleaved libraries.logging.line _ _ 0).eq_of_silent]
    · intro setting target level hsets
      have hset : (Run.ofArguments libraries ⟨some setting, files, input⟩ words).writes =
          (turns files input (Request.read libraries.parser words)).flatMap
            (fun t => t.writes (t.told.filter (Log.upTo target level))) ++ closing := by
        have hshown : libraries.logging.log (some setting) = Log.upTo target level :=
          funext (h setting target level hsets)
        rw [hwrites, hshown]
      refine ⟨hset, _, exists_interleaved libraries.logging.line _ _ 0, ?_⟩
      rw [Run.stderr, hset, hstderr]
    · intro target level level' hle
      apply List.Sublist.flatMap_right
      intro t _
      apply List.monotone_filter_right
      intro e he
      exact Log.upTo_mono hle he

/-- A session with a line that is no text, where the log is set by a target. -/
theorem logApart_run_session :
    LogApart ⟨reader, logFilter⟩ (fun _ => .error .missing) [120, 10, 255, 10] ["repl"] :=
  logApart_run filters_logFilter _ _ _

end SeqScan
