/-
  What the program tells the parser of its command line about itself: its name, its commands
  and their arguments.

    `Cli`, `Command`              `tagscan`, its `subcommands`
    `path` of `Scan`, `Check`     `pathArgument`
    `DEFAULT_SOURCE`              `defaultPath`
-/

namespace SeqScan

/-- A value that a command takes from its place among the words. -/
structure Argument where
  name : String
  about : String
  default? : Option String
  deriving DecidableEq, Repr

structure Subcommand where
  name : String
  about : String
  arguments : List Argument
  deriving DecidableEq, Repr

structure Declaration where
  name : String
  version : String
  about : String
  subcommands : List Subcommand
  needsSubcommand : Bool
  deriving DecidableEq, Repr

namespace Declaration

def subcommand? (d : Declaration) (name : String) : Option Subcommand :=
  d.subcommands.find? (·.name = name)

/-- Some words have to be there: a subcommand, or a value without a default. -/
def Demands (d : Declaration) : Prop :=
  d.needsSubcommand = true ∨ ∃ sub ∈ d.subcommands, ∃ a ∈ sub.arguments, a.default? = none

end Declaration

/-- The file that is read if no path is given. -/
def defaultPath : String := "file.txt"

def pathArgument : Argument := ⟨"path", "Input source file", some defaultPath⟩

def tagscan : Declaration where
  name := "tagscan"
  version := "0.1.0"
  about := "tagscan: lexical scanner for sequence definitions"
  subcommands :=
    [⟨"scan", "Scan a file and print its tokens", [pathArgument]⟩,
      ⟨"check", "Scan a file and only report diagnostics", [pathArgument]⟩,
      ⟨"repl", "Scan lines typed at an interactive prompt", []⟩]
  needsSubcommand := false

theorem not_demands_tagscan : ¬ tagscan.Demands := by
  intro h
  obtain h | ⟨sub, hsub, a, ha, hnone⟩ := h
  · cases h
  · simp only [tagscan, List.mem_cons, List.not_mem_nil, or_false] at hsub
    obtain rfl | rfl | rfl := hsub
    all_goals simp only [List.mem_cons, List.not_mem_nil, or_false] at ha
    all_goals simp [ha, pathArgument] at hnone

end SeqScan
