import SeqScan.Command.Reader

/-
  The program's own parser of command lines is what is documented.

  Its machine reads word by word and has three kinds of states, of which each keeps to itself
  once the first word is read. So after a subcommand's name the machine is that of the
  subcommand's arguments, and only there or at the beginning can something be missing when the
  words are over.

  What is proved:
    1. `values_eq_zip`, `isSome_lookup_values`: which values arguments get.
    2. `parse_subcommand`: the words after a subcommand's name.
    3. `documented_reader`: all that is documented.
-/

namespace SeqScan

namespace Reader

/-! Words -/

variable {word : String}

theorem isFlag_of_not_looksLikeOption (h : looksLikeOption word = false) (letter : Char) :
    isFlag letter word = false := by
  rw [← Bool.not_eq_true]
  intro hflag
  obtain ⟨rest, hrest⟩ := List.isPrefixOf_iff_prefix.mp hflag
  have hne : word ≠ "-" := by
    intro hword
    rw [hword] at hrest
    simp at hrest
  have hlooks : looksLikeOption word = true := by simp [looksLikeOption, ← hrest, hne]
  rw [h] at hlooks
  cases hlooks

theorem plain_word (h : looksLikeOption word = false) :
    asksHelp word = false ∧ asksVersion word = false ∧ word ≠ "--" := by
  have hne : ∀ other, looksLikeOption other = true → word ≠ other := by
    intro other hother hword
    rw [← hword, h] at hother
    cases hother
  have hhelp := hne "--help" (by decide)
  have hversion := hne "--version" (by decide)
  refine ⟨?_, ?_, hne "--" (by decide)⟩
  · simp [asksHelp, isFlag_of_not_looksLikeOption h, hhelp]
  · simp [asksVersion, isFlag_of_not_looksLikeOption h, hversion]

/-! Values -/

theorem values_eq_zip {arguments : List Argument} {words : List String}
    (h : words.length = arguments.length) :
    values arguments words = .ok ((arguments.map Argument.name).zip words) := by
  induction arguments generalizing words with
  | nil => rfl
  | cons a arguments ih =>
    cases words with
    | nil => cases h
    | cons word words =>
      rw [values, List.tail_cons, ih (by simpa using h)]
      rfl

theorem exists_values_cons {a : Argument} {arguments : List Argument} {words : List String}
    {found : Values} (h : values (a :: arguments) words = .ok found) :
    ∃ first rest, values arguments words.tail = .ok rest ∧ found = (a.name, first) :: rest := by
  rw [values] at h
  cases hfirst : value a words.head? with
  | error halt => rw [hfirst] at h; cases h
  | ok first =>
    cases hrest : values arguments words.tail with
    | error halt => rw [hfirst, hrest] at h; cases h
    | ok rest =>
      rw [hfirst, hrest] at h
      exact ⟨first, rest, rfl, (Except.ok.inj h).symm⟩

theorem isSome_lookup_values {arguments : List Argument} {words : List String} {found : Values}
    (h : values arguments words = .ok found) {a : Argument} (ha : a ∈ arguments) :
    (found.lookup a.name).isSome := by
  induction arguments generalizing words found with
  | nil => cases ha
  | cons b arguments ih =>
    obtain ⟨first, rest, hrest, rfl⟩ := exists_values_cons h
    rw [List.lookup_cons]
    split
    · rfl
    · rename_i hname
      obtain rfl | ha := List.mem_cons.mp ha
      · simp at hname
      · exact ih hrest ha

theorem exists_demanded {arguments : List Argument} {words : List String} {halt : Halt}
    (h : values arguments words = .error halt) : ∃ a ∈ arguments, a.default? = none := by
  induction arguments generalizing words with
  | nil => cases h
  | cons a arguments ih =>
    cases hfirst : value a words.head? with
    | error other =>
      refine ⟨a, List.mem_cons_self, ?_⟩
      unfold value at hfirst
      split at hfirst
      · cases hfirst
      · split at hfirst
        · cases hfirst
        · assumption
    | ok first =>
      rw [values, hfirst] at h
      cases hrest : values arguments words.tail with
      | ok rest => rw [hrest] at h; cases h
      | error other =>
        rw [hrest] at h
        obtain ⟨b, hb, hnone⟩ := ih (hrest.trans h)
        exact ⟨b, List.mem_cons_of_mem a hb, hnone⟩

/-! Arguments -/

variable {arguments : List Argument}

theorem foldlM_take {words : List String} {ended : Bool} {before : List String}
    (h : before.length + words.length ≤ arguments.length)
    (hplain : ended = true ∨ ∀ word ∈ words, looksLikeOption word = false) :
    words.foldlM (stepArguments arguments) ⟨before, ended⟩ = .ok ⟨before ++ words, ended⟩ := by
  induction words generalizing before with
  | nil => simp [pure, Except.pure]
  | cons word words ih =>
    have hlt : before.length < arguments.length := by
      rw [List.length_cons] at h
      omega
    have hstep : stepArguments arguments ⟨before, ended⟩ word = .ok ⟨before ++ [word], ended⟩ := by
      obtain rfl | hwords := hplain
      · simp [stepArguments, take, hlt]
      · obtain ⟨hhelp, -, hend⟩ := plain_word (hwords word List.mem_cons_self)
        cases ended <;>
          simp [stepArguments, take, hlt, hhelp, hend, hwords word List.mem_cons_self]
    rw [List.foldlM_cons, hstep]
    show words.foldlM _ _ = _
    rw [ih (by simpa [Nat.add_assoc, Nat.add_comm 1] using h)
      (hplain.imp_right fun hwords w hw => hwords w (List.mem_cons_of_mem word hw))]
    simp

/-! The words after a subcommand's name -/

variable {d : Declaration} {sub : Subcommand}

/-- From a subcommand's name on the machine is that of its arguments. -/
theorem foldlM_arguments (taken : Taken) (words : List String) :
    words.foldlM (step d) (.arguments sub taken) =
      match words.foldlM (stepArguments sub.arguments) taken with
      | .ok taken => .ok (.arguments sub taken)
      | .error halt => .error (stopOf sub.name halt) := by
  induction words generalizing taken with
  | nil => rfl
  | cons word words ih =>
    rw [List.foldlM_cons, List.foldlM_cons, step]
    cases stepArguments sub.arguments taken word with
    | error halt => rfl
    | ok taken => exact ih taken

theorem parse_subcommand {name : String} (hsub : d.subcommand? name = some sub)
    (hplain : looksLikeOption name = false) (words : List String) :
    parse d (name :: words) = Match.under name (parseArguments sub.arguments words) := by
  obtain ⟨hhelp, hversion, hend⟩ := plain_word hplain
  have hname : sub.name = name := by simpa using List.find?_some hsub
  have hstep : step d (.start false) name = .ok (.arguments sub ⟨[], false⟩) := by
    simp [step, hhelp, hversion, hend, hsub]
  rw [parse, List.foldlM_cons, hstep]
  show words.foldlM (step d) (.arguments sub ⟨[], false⟩) >>= finish d = _
  rw [foldlM_arguments, parseArguments, ← hname]
  cases words.foldlM (stepArguments sub.arguments) ⟨[], false⟩ with
  | error halt => cases halt <;> rfl
  | ok taken => rfl

/-! Whole command lines -/

/-- What is known after words of which `first` is the first. -/
inductive After (d : Declaration) (first : String) : Reading → Prop
  | start : After d first (.start true)
  | arguments {sub : Subcommand} {taken : Taken} : sub ∈ d.subcommands →
    After d first (.arguments sub taken)
  | help {topic : Option Topic} : first = "help" → After d first (.help topic)

theorem after_first {first : String} {r : Reading} (h : step d (.start false) first = .ok r) :
    After d first r := by
  simp only [step] at h
  split at h
  · cases h
  split at h
  · cases h
  split at h
  · cases h
    exact .start
  split at h
  · rename_i sub hsub
    cases h
    exact .arguments (List.mem_of_find?_eq_some hsub)
  split at h
  · cases h
    exact .help ‹_›
  · cases h

theorem After.step {first word : String} {r r' : Reading} (h : After d first r)
    (hstep : step d r word = .ok r') : After d first r' := by
  cases h with
  | start => cases hstep
  | arguments hsub =>
    simp only [Reader.step] at hstep
    split at hstep
    · cases hstep
      exact .arguments hsub
    · cases hstep
  | @help topic hfirst =>
    cases topic with
    | some topic => cases hstep
    | none =>
      simp only [Reader.step] at hstep
      split at hstep
      · cases hstep
        exact .help hfirst
      · cases hstep

theorem After.foldlM {first : String} {words : List String} {r r' : Reading}
    (h : After d first r) (hwords : words.foldlM (Reader.step d) r = .ok r') :
    After d first r' := by
  induction words generalizing r with
  | nil =>
    cases hwords
    exact h
  | cons word words ih =>
    rw [List.foldlM_cons] at hwords
    cases hstep : Reader.step d r word with
    | error stop => rw [hstep] at hwords; cases hwords
    | ok next =>
      rw [hstep] at hwords
      exact ih (h.step hstep) hwords

/-- What is known after some words: nothing yet, or what their first one allows. -/
theorem reading_cases {words : List String} {r : Reading}
    (h : words.foldlM (step d) (.start false) = .ok r) :
    r = .start false ∨ ∃ first, words.head? = some first ∧ After d first r := by
  cases words with
  | nil =>
    cases h
    exact .inl rfl
  | cons first words =>
    rw [List.foldlM_cons] at h
    cases hstep : step d (.start false) first with
    | error stop => rw [hstep] at h; cases h
    | ok next =>
      rw [hstep] at h
      exact .inr ⟨first, rfl, (after_first hstep).foldlM h⟩

theorem demands_of_finish {words : List String} {r : Reading} {stop : Stop}
    (h : words.foldlM (step d) (.start false) = .ok r) (hstop : finish d r = .error stop) :
    words.head? = some "help" ∨ d.Demands := by
  have hneeds : ∀ ended, finish d (.start ended) = .error stop → d.Demands := by
    intro ended hstop
    simp only [finish] at hstop
    split at hstop
    · exact .inl ‹_›
    · cases hstop
  obtain rfl | ⟨first, hhead, hafter⟩ := reading_cases h
  · exact .inr (hneeds _ hstop)
  · cases hafter with
    | start => exact .inr (hneeds _ hstop)
    | help hfirst => exact .inl (hfirst ▸ hhead)
    | @arguments sub taken hsub =>
      cases hvalues : values sub.arguments taken.words with
      | ok found => rw [finish, hvalues] at hstop; cases hstop
      | error halt =>
        obtain ⟨a, ha, hnone⟩ := exists_demanded hvalues
        exact .inr (.inr ⟨sub, hsub, a, ha, hnone⟩)

theorem declared_of_parse {words : List String} {name : String} {found : Values}
    (h : parse d words = .ok (some (name, found))) :
    ∃ sub ∈ d.subcommands, sub.name = name ∧
      ∀ a ∈ sub.arguments, (found.lookup a.name).isSome := by
  rw [parse] at h
  cases hr : words.foldlM (step d) (.start false) with
  | error stop => rw [hr] at h; cases h
  | ok r =>
    rw [hr] at h
    have hfinish : finish d r = .ok (some (name, found)) := h
    have hstart : ∀ ended, finish d (.start ended) ≠ .ok (some (name, found)) := by
      intro ended
      simp only [finish]
      split <;> simp
    obtain rfl | ⟨first, -, hafter⟩ := reading_cases hr
    · exact absurd hfinish (hstart _)
    · cases hafter with
      | start => exact absurd hfinish (hstart _)
      | help => cases hfinish
      | @arguments sub taken hsub =>
        cases hvalues : values sub.arguments taken.words with
        | error halt =>
          rw [finish, hvalues] at hfinish
          cases halt <;> cases hfinish
        | ok values =>
          rw [finish, hvalues] at hfinish
          cases hfinish
          exact ⟨sub, hsub, rfl, fun a ha => isSome_lookup_values hvalues ha⟩

end Reader

/-- **The reader is what is documented** of a parser of command lines. -/
theorem documented_reader : reader.Documented where
  inOrder d := ⟨Reader.Reading, .start false, Reader.step d, Reader.finish d, fun _ => rfl,
    fun _ _ _ h hstop => Reader.demands_of_finish h hstop⟩
  declared d words name values h := by
    obtain ⟨sub, hsub, hname, hvalues⟩ := Reader.declared_of_parse h
    exact ⟨sub, hsub, hname, fun a ha _ => hvalues a ha⟩
  ownArguments d name sub words hsub hplain _ := Reader.parse_subcommand hsub hplain words
  places arguments words hlength hplain := by
    show Reader.parseArguments arguments words = _
    rw [Reader.parseArguments, Reader.foldlM_take (by simp [hlength]) (.inr hplain)]
    exact Reader.values_eq_zip hlength
  escaped arguments words hlength := by
    show Reader.parseArguments arguments ("--" :: words) = _
    have hend : Reader.stepArguments arguments ⟨[], false⟩ "--" = .ok ⟨[], true⟩ := rfl
    rw [Reader.parseArguments, List.foldlM_cons, hend]
    show (words.foldlM _ _ >>= fun taken : Reader.Taken => Reader.values arguments taken.words) = _
    rw [Reader.foldlM_take (by simp [hlength]) (.inl rfl)]
    exact Reader.values_eq_zip hlength

end SeqScan
