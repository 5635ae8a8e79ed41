import SeqScan.Event
import SeqScan.Text.Visible

/-
  Logs, and what a setting makes of them.

  The program tells a log what it does. Which events the log shows, and how it writes them, is
  up to a library, which reads a setting for it. Both are parameters here; of the first it is
  documented how a setting of the common form is read.

    `init_tracing`    `Logging.log`: without a setting nothing is shown
    `EnvFilter`       `Logging.enables`, with `Logging.Filters`
    `fmt::layer`      `Logging.line`
-/

namespace SeqScan

/-- A log: the events that it shows. -/
abbrev Log := Event → Bool

/-- The log shows nothing. -/
def Log.Off (log : Log) : Prop := ∀ e, log e = false

/-- What is done with events: which of them a setting shows, and the line for one, which may
depend on the moment. -/
structure Logging where
  enables : String → Log
  line : Nat → Event → String

/-- The log of a run. -/
def Logging.log (logging : Logging) : Option String → Log
  | none => fun _ => false
  | some setting => logging.enables setting

/-! Settings -/

namespace Level

/-- The level, or `off`, as a setting has it. -/
def settingName : Option Level → String
  | none => "off"
  | some .error => "error"
  | some .warn => "warn"
  | some .info => "info"
  | some .debug => "debug"
  | some .trace => "trace"

/-- How verbose a level is, where `off` is not at all. -/
def verbosity (level : Option Level) : Nat := level.elim 0 rank

/-- A word for a level: its name in any case of letters, or its number. -/
def IsWord (level : Option Level) (word : String) : Prop :=
  word.map Char.toLower = settingName level ∨ word = Nat.repr (verbosity level)

end Level

/-- A name of modules: none of its characters is a blank or has a meaning in a setting. -/
def IsTarget (target : String) : Prop :=
  target ≠ "" ∧ ∀ c ∈ target.toList,
    c.isAlphanum = true ∨ c ∈ ['_', ':', '-'] ∨ 127 < c.toNat ∧ Text.isVisible c = true

/-- A setting that is a level, for all targets, or a target with a level. -/
inductive Sets : String → String → Option Level → Prop
  | level {word : String} {level : Option Level} : Level.IsWord level word → Sets word "" level
  | target {target word : String} {level : Option Level} : IsTarget target →
    Level.IsWord level word → Sets (target ++ "=" ++ word) target level

/-- The log shows what comes from a target with that beginning, up to a level. -/
def Log.upTo (target : String) (level : Option Level) : Log := fun e =>
  target.toList.isPrefixOf e.target.toList && e.level.rank ≤ Level.verbosity level

/-- A setting shows the events whose target begins with its own, up to its level. -/
def Logging.Filters (logging : Logging) : Prop :=
  ∀ setting target level, Sets setting target level →
    ∀ e, logging.enables setting e = Log.upTo target level e

end SeqScan
