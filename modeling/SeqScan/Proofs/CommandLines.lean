import SeqScan.Command.Run

/-
  What command lines ask for, with any parser that is what is documented.

  The two commands that read a file are declared with the same argument, and it has a default.
  So the same words after either name come to the same: to a path, to a wish for help, or to a
  misuse.

  What is proved:
    1. `read_word`: the words after the name of a command that reads a file.
    2. `afterWord_cases`: what they come to, the same for either.
    3. `read_path`, `read_escaped`, `read_repl`: command lines that run a command.
-/

namespace SeqScan

def FileCommand.word : FileCommand → String
  | scan => "scan"
  | check => "check"

namespace Request

theorem ofMatch_word (command : FileCommand) {values : Values} {path : String}
    (hpath : values.lookup pathArgument.name = some path) :
    ofMatch (some (command.word, values)) = run (.file command path) := by
  have hmatch : Command.ofMatch? command.word values = some (.file command path) := by
    cases command <;> simp only [Command.ofMatch?, FileCommand.word, hpath, Option.map_some]
  simp only [ofMatch, hmatch]

variable {p : ArgumentParser} (h : p.Documented)
include h

theorem parse_word (command : FileCommand) (words : List String) :
    p.parse tagscan (command.word :: words) =
      Match.under command.word (p.parseArguments [pathArgument] words) := by
  cases command with
  | scan => exact h.ownArguments tagscan _ ⟨"scan", _, _⟩ words rfl (by decide) (by decide)
  | check => exact h.ownArguments tagscan _ ⟨"check", _, _⟩ words rfl (by decide) (by decide)

/-- **The words after the name** of a command that reads a file come to the same for either. -/
theorem read_word (command : FileCommand) (words : List String) :
    read p (command.word :: words) =
      match p.parseArguments [pathArgument] words with
      | .ok values => ofMatch (some (command.word, values))
      | .error .help => stop (.help (.subcommand command.word))
      | .error .misuse => stop .misuse := by
  rw [read, parse_word h]
  cases p.parseArguments [pathArgument] words with
  | ok values => rfl
  | error halt => cases halt <;> rfl

theorem exists_path {words : List String} {values : Values}
    (hparse : p.parseArguments [pathArgument] words = .ok values) :
    ∃ path, values.lookup pathArgument.name = some path := by
  have hmatch : p.parse tagscan ("scan" :: words) = .ok (some ("scan", values)) := by
    rw [show "scan" = FileCommand.scan.word from rfl, parse_word h, hparse]
    rfl
  obtain ⟨sub, hsub, hname, hvalues⟩ := h.declared tagscan _ _ _ hmatch
  have harguments : sub.arguments = [pathArgument] := by
    simp only [tagscan, List.mem_cons, List.not_mem_nil, or_false] at hsub
    obtain rfl | rfl | rfl := hsub
    · rfl
    · rfl
    · exact absurd hname (by decide)
  apply Option.isSome_iff_exists.mp
  exact hvalues pathArgument (by simp [harguments]) rfl

/-- **What the words after the name may come to.** -/
theorem afterWord_cases (words : List String) :
    (∃ path, ∀ command : FileCommand, read p (command.word :: words) = run (.file command path)) ∨
      (∀ command : FileCommand,
        read p (command.word :: words) = stop (.help (.subcommand command.word))) ∨
      ∀ command : FileCommand, read p (command.word :: words) = stop .misuse := by
  cases hparse : p.parseArguments [pathArgument] words with
  | ok values =>
    obtain ⟨path, hpath⟩ := exists_path h hparse
    refine .inl ⟨path, fun command => ?_⟩
    rw [read_word h, hparse]
    exact ofMatch_word command hpath
  | error halt =>
    cases halt with
    | help => exact .inr (.inl fun command => by rw [read_word h, hparse])
    | misuse => exact .inr (.inr fun command => by rw [read_word h, hparse])

theorem read_of_parseArguments {words : List String} {path : String} (command : FileCommand)
    (hparse : p.parseArguments [pathArgument] words = .ok [(pathArgument.name, path)]) :
    read p (command.word :: words) = run (.file command path) := by
  rw [read_word h, hparse]
  exact ofMatch_word command List.lookup_cons_self

/-- A word that does not look like an option is the path. -/
theorem read_path (command : FileCommand) {path : String} (hplain : looksLikeOption path = false) :
    read p [command.word, path] = run (.file command path) := by
  apply read_of_parseArguments h
  exact h.places [pathArgument] [path] rfl (by simpa using hplain)

/-- Any word is the path after `--`. -/
theorem read_escaped (command : FileCommand) (path : String) :
    read p [command.word, "--", path] = run (.file command path) := by
  apply read_of_parseArguments h
  exact h.escaped [pathArgument] [path] rfl

theorem read_repl : read p ["repl"] = run .repl := by
  have hparse : p.parseArguments [] [] = .ok [] := h.places [] [] rfl (by simp)
  have hrepl : p.parse tagscan ["repl"] = Match.under "repl" (p.parseArguments [] []) :=
    h.ownArguments tagscan _ ⟨"repl", _, _⟩ [] rfl (by decide) (by decide)
  rw [read, hrepl, hparse]
  rfl

end Request

/-! Runs -/

namespace Run

variable {libraries : Libraries} {around : Surroundings} {words : List String}

theorem ofArguments_of_run {command : Command}
    (hread : Request.read libraries.parser words = .run command) :
    ofArguments libraries around words =
      ofCommand (libraries.logging.log around.setting) around.files around.input command := by
  rw [ofArguments, hread]

theorem ofArguments_of_stop {stop : Stop}
    (hread : Request.read libraries.parser words = .stop stop) :
    ofArguments libraries around words = stopped libraries.parser words stop := by
  rw [ofArguments, hread]

/-- The runs after the word for a command that reads a file. -/
theorem afterWord_cases (h : libraries.parser.Documented) (around : Surroundings)
    (words : List String) :
    (∃ path, ∀ command : FileCommand, ofArguments libraries around (command.word :: words) =
        ofCommand (libraries.logging.log around.setting) around.files around.input
          (.file command path)) ∨
      (∀ command : FileCommand, ofArguments libraries around (command.word :: words) =
        stopped libraries.parser (command.word :: words) (.help (.subcommand command.word))) ∨
      ∀ command : FileCommand, ofArguments libraries around (command.word :: words) =
        stopped libraries.parser (command.word :: words) .misuse := by
  obtain ⟨path, hread⟩ | hread | hread := Request.afterWord_cases h words
  · exact .inl ⟨path, fun command => ofArguments_of_run (hread command)⟩
  · exact .inr (.inl fun command => ofArguments_of_stop (hread command))
  · exact .inr (.inr fun command => ofArguments_of_stop (hread command))

end Run

end SeqScan
