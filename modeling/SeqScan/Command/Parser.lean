import SeqScan.Command.Declaration

/-
  Command lines, and what they ask for.

  The words of a command line are taken apart by a parser from a library, of which only the
  declaration is the program's own. So the parser is a parameter here, with what its
  documentation promises: it reads words in order, it gives the words after a subcommand's
  name to the arguments of that subcommand, and a word is the value of the argument at its
  place unless it looks like an option.

    `Cli::try_parse`     `ArgumentParser.parse` of `tagscan`
    `Cli`, `Command`     `Command.ofMatch?`, from a match to a command
    `into_command`       `Request.read`, where no subcommand is named
-/

namespace SeqScan

inductive FileCommand where
  | scan
  | check
  deriving DecidableEq, Repr

inductive Command where
  | file (command : FileCommand) (path : String)
  | repl
  deriving DecidableEq, Repr

inductive Topic where
  | program
  | subcommand (name : String)
  /-- The command `help` itself. -/
  | help
  deriving DecidableEq, Repr

/-- What is said instead of carrying out a command. -/
inductive Stop where
  | help (topic : Topic)
  | version
  | misuse
  deriving DecidableEq, Repr

/-- Only misuse is said on standard error, and fails. -/
def Stop.isFailure : Stop → Bool
  | help _ | version => false
  | misuse => true

/-! Parsers of command lines -/

abbrev Values := List (String × String)

/-- The subcommand that was named, if any, and the values of its arguments. -/
abbrev Match := Option (String × Values)

/-- Why the words after a subcommand's name give no values. -/
inductive Halt where
  | help
  | misuse
  deriving DecidableEq, Repr

/-- A parser of command lines, with the texts that it writes about a declaration. What it says
of a misuse may depend on all the words. -/
structure ArgumentParser where
  parse : Declaration → List String → Except Stop Match
  parseArguments : List Argument → List String → Except Halt Values
  helpText : Declaration → Topic → String
  versionText : Declaration → String
  misuseText : Declaration → List String → String

/-- A dash with something after it. -/
def looksLikeOption (word : String) : Bool := ['-'].isPrefixOf word.toList && word ≠ "-"

/-- What the words after a subcommand's name come to for the whole command line. -/
def Match.under (name : String) : Except Halt Values → Except Stop Match
  | .ok values => .ok (some (name, values))
  | .error .help => .error (.help (.subcommand name))
  | .error .misuse => .error .misuse

/-- Words are read in order: each goes into what is known so far, unless it is the first that
asks for help or for the version or is in error, and that word ends the reading. If no word
does, only what had to be there can be missing, or else the words ask for help by name. -/
def ReadsInOrder (d : Declaration) (parse : List String → Except Stop Match) : Prop :=
  ∃ (State : Type) (start : State) (step : State → String → Except Stop State)
    (finish : State → Except Stop Match),
    (∀ words : List String, parse words = words.foldlM step start >>= finish) ∧
    ∀ (words : List String) state stop, words.foldlM step start = .ok state →
      finish state = .error stop → words.head? = some "help" ∨ d.Demands

/-- What is documented of the parser. -/
structure ArgumentParser.Documented (p : ArgumentParser) : Prop where
  inOrder : ∀ d, ReadsInOrder d (p.parse d)
  /-- What is matched was declared, and what has a default has a value. -/
  declared : ∀ d words name values, p.parse d words = .ok (some (name, values)) →
    ∃ sub ∈ d.subcommands, sub.name = name ∧
      ∀ a ∈ sub.arguments, a.default?.isSome → (values.lookup a.name).isSome
  /-- The words after a subcommand's name are for its own arguments. -/
  ownArguments : ∀ d name sub words, d.subcommand? name = some sub →
    looksLikeOption name = false → name ≠ "help" →
      p.parse d (name :: words) = Match.under name (p.parseArguments sub.arguments words)
  /-- A word that does not look like an option is the value of the argument at its place. -/
  places : ∀ arguments words, words.length = arguments.length →
    (∀ word ∈ words, looksLikeOption word = false) →
      p.parseArguments arguments words = .ok ((arguments.map Argument.name).zip words)
  /-- After `--` any word is. -/
  escaped : ∀ arguments words, words.length = arguments.length →
    p.parseArguments arguments ("--" :: words) = .ok ((arguments.map Argument.name).zip words)

/-! Requests -/

/-- What a command line asks for. -/
inductive Request where
  | run (command : Command)
  | stop (stop : Stop)
  deriving DecidableEq, Repr

def Command.ofMatch? (name : String) (values : Values) : Option Command :=
  match name with
  | "scan" => (values.lookup pathArgument.name).map (.file .scan)
  | "check" => (values.lookup pathArgument.name).map (.file .check)
  | "repl" => some .repl
  | _ => none

namespace Request

/-- Without a subcommand the default file is scanned. -/
def ofMatch : Match → Request
  | none => run (.file .scan defaultPath)
  | some (name, values) =>
    match Command.ofMatch? name values with
    | some command => run command
    | none => stop .misuse

def read (p : ArgumentParser) (words : List String) : Request :=
  match p.parse tagscan words with
  | .ok m => ofMatch m
  | .error s => stop s

end Request

end SeqScan
