import SeqScan.Logging
import SeqScan.Text.Quoted

/-
  Log filters, and the lines of a log.

  A filter is read from a setting and lets an event through if the event's target begins with
  the filter's and the event is not more verbose than the filter's level. A line shows all of
  an event, without the moment. The program runs with this.
-/

namespace SeqScan

/-- A target and a level, where no level means that the log is off. -/
structure LogFilter where
  target : String
  level : Option Level
  deriving DecidableEq, Repr

namespace LogFilter

/-- Read a level setting: its name in any case of letters, or its rank. -/
def readLevel? (text : List Char) : Option (Option Level) :=
  match String.ofList (text.map Char.toLower) with
  | "off" | "0" => some none
  | "error" | "1" => some (some .error)
  | "warn" | "2" => some (some .warn)
  | "info" | "3" => some (some .info)
  | "debug" | "4" => some (some .debug)
  | "trace" | "5" => some (some .trace)
  | _ => none

/-- Read a filter. A word that is no level is a target, shown with all its events; no word at
all, or a target with something other than a level after it, shows nothing. -/
def read (text : String) : LogFilter :=
  let before := text.toList.takeWhile (· != '=')
  match text.toList.dropWhile (· != '='), readLevel? before with
  | [], some level => ⟨"", level⟩
  | [], none => ⟨text, if text = "" then none else some .trace⟩
  | _ :: after, _ => ⟨String.ofList before, (readLevel? after).join⟩

end LogFilter

def FieldValue.text : FieldValue → String
  | count n => Nat.repr n
  | shown text => text
  | quoted text => Text.quote text

/-- An event as a line of the log. -/
def Event.text (e : Event) : String :=
  let shown := e.fields.map fun field => " " ++ field.1 ++ "=" ++ field.2.text
  e.level.name ++ " " ++ e.target ++ ": " ++ e.message ++ String.join shown

/-- The log that the program runs with. -/
def logFilter : Logging where
  enables setting := Log.upTo (LogFilter.read setting).target (LogFilter.read setting).level
  line _ := Event.text

end SeqScan
