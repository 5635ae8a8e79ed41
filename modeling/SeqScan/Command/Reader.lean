import SeqScan.Command.Parser

/-
  A parser of command lines that is what is documented, and the texts it writes.

  The program runs with it, and what is proved for every documented parser holds for it. The
  words are read by a machine with a state; a word `--` ends the options. Help texts list what
  the declaration says; what a misuse is called by name is left out.
-/

namespace SeqScan

namespace Reader

/-! Words -/

/-- Whether a word is a flag of one letter, perhaps with more letters after it. -/
def isFlag (letter : Char) (word : String) : Bool := ['-', letter].isPrefixOf word.toList

def asksHelp (word : String) : Bool := isFlag 'h' word || word = "--help"

def asksVersion (word : String) : Bool := isFlag 'V' word || word = "--version"

/-! The words after a subcommand's name -/

/-- The words taken as values so far, and whether the options are over. -/
structure Taken where
  words : List String
  ended : Bool
  deriving DecidableEq, Repr

def take (arguments : List Argument) (t : Taken) (word : String) : Except Halt Taken :=
  if t.words.length < arguments.length then .ok { t with words := t.words ++ [word] }
  else .error .misuse

def stepArguments (arguments : List Argument) (t : Taken) (word : String) : Except Halt Taken :=
  if t.ended then take arguments t word
  else if asksHelp word then .error .help
  else if word = "--" then .ok { t with ended := true }
  else if looksLikeOption word then .error .misuse
  else take arguments t word

/-- The value of an argument: the word at its place, or else the default. -/
def value (a : Argument) : Option String → Except Halt String
  | some word => .ok word
  | none =>
    match a.default? with
    | some value => .ok value
    | none => .error .misuse

def values : List Argument → List String → Except Halt Values
  | [], _ => .ok []
  | a :: arguments, words => do
    let first ← value a words.head?
    let rest ← values arguments words.tail
    return (a.name, first) :: rest

def parseArguments (arguments : List Argument) (words : List String) : Except Halt Values := do
  values arguments (← words.foldlM (stepArguments arguments) ⟨[], false⟩).words

/-! Whole command lines -/

/-- What is known after some words. -/
inductive Reading where
  /-- No subcommand has been named. -/
  | start (ended : Bool)
  | arguments (sub : Subcommand) (taken : Taken)
  /-- A wish for help, and what about if that has been said. -/
  | help (topic : Option Topic)
  deriving DecidableEq, Repr

/-- Why the words after a name stop the whole command line. -/
def stopOf (name : String) : Halt → Stop
  | .help => .help (.subcommand name)
  | .misuse => .misuse

def topic? (d : Declaration) (word : String) : Option Topic :=
  if word = "help" then some .help
  else (d.subcommand? word).map fun sub => .subcommand sub.name

def step (d : Declaration) : Reading → String → Except Stop Reading
  | .start false, word =>
    if asksHelp word then .error (.help .program)
    else if asksVersion word then .error .version
    else if word = "--" then .ok (.start true)
    else match d.subcommand? word with
      | some sub => .ok (.arguments sub ⟨[], false⟩)
      | none => if word = "help" then .ok (.help none) else .error .misuse
  | .start true, _ => .error .misuse
  | .arguments sub taken, word =>
    match stepArguments sub.arguments taken word with
    | .ok taken => .ok (.arguments sub taken)
    | .error halt => .error (stopOf sub.name halt)
  | .help none, word =>
    match topic? d word with
    | some topic => .ok (.help (some topic))
    | none => .error .misuse
  | .help (some _), _ => .error .misuse

/-- What the words come to if there are no more. -/
def finish (d : Declaration) : Reading → Except Stop Match
  | .start _ => if d.needsSubcommand then .error .misuse else .ok none
  | .arguments sub taken => Match.under sub.name (values sub.arguments taken.words)
  | .help topic => .error (.help (topic.getD .program))

def parse (d : Declaration) (words : List String) : Except Stop Match := do
  finish d (← words.foldlM (step d) (.start false))

/-! Texts -/

def usage (a : Argument) : String :=
  if a.default?.isSome then "[" ++ a.name.toUpper ++ "]" else "<" ++ a.name.toUpper ++ ">"

/-- The lines of a list of names, each with what is said about it in one column. -/
def columns (entries : List (String × String)) : List String :=
  let width := (entries.map fun entry => entry.1.length).foldl max 0
  entries.map fun entry =>
    entry.1 ++ String.ofList (List.replicate (width + 2 - entry.1.length) ' ') ++ entry.2

def helpOption : String × String := ("-h, --help", "Print help")

def helpAbout : String := "Print this message or the help of the given subcommand(s)"

/-- A help text: what a command is about, how it is called, and parts with a heading each. -/
def pageText (about usage : String) (parts : List (String × List (String × String))) : String :=
  about ++ "\n\nUsage: " ++ usage ++ "\n" ++ String.join (parts.map fun part =>
    "\n" ++ part.1 ++ "\n" ++ String.join ((columns part.2).map fun line => "  " ++ line ++ "\n"))

def argumentEntry (a : Argument) : String × String :=
  (usage a, a.about ++ match a.default? with
    | some value => " [default: " ++ value ++ "]"
    | none => "")

def subcommandText (d : Declaration) (sub : Subcommand) : String :=
  pageText sub.about (String.join ([d.name, " ", sub.name] ++ sub.arguments.map (" " ++ usage ·)))
    ((if sub.arguments.isEmpty then [] else [("Arguments:", sub.arguments.map argumentEntry)]) ++
      [("Options:", [helpOption])])

def helpText (d : Declaration) : Topic → String
  | .program =>
    pageText d.about (d.name ++ if d.needsSubcommand then " <COMMAND>" else " [COMMAND]")
      [("Commands:", d.subcommands.map (fun sub => (sub.name, sub.about)) ++ [("help", helpAbout)]),
        ("Options:", [helpOption, ("-V, --version", "Print version")])]
  | .subcommand name =>
    match d.subcommand? name with
    | some sub => subcommandText d sub
    | none => ""
  | .help =>
    pageText helpAbout (d.name ++ " help [COMMAND]...")
      [("Arguments:", [("[COMMAND]...", "Print help for the subcommand(s)")])]

end Reader

/-- The parser that the program runs with. -/
def reader : ArgumentParser where
  parse := Reader.parse
  parseArguments := Reader.parseArguments
  helpText := Reader.helpText
  versionText d := d.name ++ " " ++ d.version ++ "\n"
  misuseText _ _ := "error: the arguments make no sense\n\nFor more information, try '--help'.\n"

end SeqScan
