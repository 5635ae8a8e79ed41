import SeqScan.Proofs.CommandLines
import SeqScan.Proofs.LineByLine

/-
  Sessions carry nothing from one line to the next.

  A session invites a line, reads it, scans it on its own, and invites the next. So when the
  lines up to some point have all ended and are texts, what comes after is treated as if it
  were the whole input. The first line that is no text ends the session: it is invited as the
  others are, one message is written for it, and the rest is not looked at.

  What is proved:
    1. `isText_append_return`: the carriage return that ends a line does not decide whether
       it is a text.
    2. `byteLines_append`, `byteLines_ended`: the lines of bytes that are put together.
    3. `exists_first_fault`: an input with a line that is no text has a first one.
    4. `writes_session_line`, `writes_session_append`, `writes_session_of_fault`: what a session
       writes in turn.
    5. `forgetful_session`: sessions on every input.
-/

namespace SeqScan

/-- Bytes that are a text. -/
def IsText (bytes : List UInt8) : Prop := ∃ text, bytes = Text.encode text

/-- Lines that have all ended, and are texts. -/
structure Ended (bytes : List UInt8) : Prop where
  ended : bytes = [] ∨ bytes.getLast? = some 10
  texts : ∀ line ∈ Text.byteLines bytes, IsText line

/-- The end of the input, or a line feed with more bytes after it. -/
def AtLineEnd (bytes : List UInt8) : Prop := bytes = [] ∨ bytes.head? = some 10

/-- The lines of the log say nothing about the moment. -/
def Steady (line : Nat → Event → String) : Prop := ∀ m n, line m = line n

/-- A session on an input. -/
structure Forgetful (input : List UInt8) : Prop where
  command : ∀ libraries setting files, libraries.parser.Documented →
    Run.ofArguments libraries ⟨setting, files, input⟩ ["repl"] =
      Run.session (libraries.logging.log setting) input
  exit_eq : ∀ log, (Run.session log input).exit = 0
  /-- The lines of the input: a line feed ends a line and takes one carriage return with it,
  and a last line that is not ended is kept. -/
  lines : ∀ ls, Text.Divided 13 10 input ls ↔ Text.byteLines input = ls
  /-- When its lines are texts, all of them are shown and reported, in their order. -/
  processed : ∀ lines : List String,
    Text.byteLines input = lines.map (fun line => Text.encode line.toList) → ∀ log,
      (Run.session log input).stdout = String.join (lines.map fun line =>
          "> " ++ String.join ((scan line).tokens.map (·.text ++ "\n"))) ++ "> " ∧
        (log.Off → ∀ line, (Run.session log input).stderr line = String.join (lines.map fun line =>
          String.join ((scan line).diagnostics.map (·.text ++ "\n"))))
  /-- What comes after lines of text that have ended is treated as the whole input. -/
  append : ∀ a b, input = a ++ b → Ended a → ∀ log,
    (∃ front, (Run.session log a).writes = front ++ [.out "> "] ∧
        (Run.session log input).writes = front ++ (Run.session log b).writes) ∧
      (∃ front, (Run.session log a).stdout = front ++ "> " ∧
        (Run.session log input).stdout = front ++ (Run.session log b).stdout) ∧
      ∀ line, log.Off ∨ Steady line → (Run.session log input).stderr line =
        (Run.session log a).stderr line ++ (Run.session log b).stderr line
  /-- The first line that is no text gives one message. What is shown and reported is that of
  the lines before it, whatever comes after it. -/
  stops : (∃ line ∈ Text.byteLines input, ¬ IsText line) →
    ∃ a bad rest, input = a ++ (bad ++ rest) ∧ Ended a ∧ 10 ∉ bad ∧ ¬ IsText bad ∧
      AtLineEnd rest ∧ ∀ other, AtLineEnd other → ∀ log,
        (Run.session log (a ++ (bad ++ other))).stdout = (Run.session log a).stdout ∧
          ∀ line, (Run.session log (a ++ (bad ++ other))).stderr line =
            (Run.session log a).stderr line ++
              "Error reading input: stream did not contain valid UTF-8\n"

/-! Texts -/

theorem isText_nil : IsText [] := ⟨[], rfl⟩

theorem IsText.isSome_decode? {bytes : List UInt8} (h : IsText bytes) :
    (Text.decode? bytes).isSome := by
  obtain ⟨text, rfl⟩ := h
  rw [Text.decode?_encode]
  rfl

theorem decode?_of_not_isText {bytes : List UInt8} (h : ¬ IsText bytes) :
    Text.decode? bytes = none := by
  cases hd : Text.decode? bytes with
  | none => rfl
  | some text => exact absurd ⟨_, Text.decode?_eq_some_iff.mp hd⟩ h

theorem encode_concat (text : List Char) (c : Char) :
    Text.encode (text ++ [c]) = Text.encode text ++ String.utf8EncodeChar c := by
  simp [Text.encode]

/-- A carriage return among the bytes of a character is all of them. -/
theorem encodeChar_of_return {c : Char} (h : 13 ∈ String.utf8EncodeChar c) :
    String.utf8EncodeChar c = [13] := by
  have hc : c = '\r' := Char.toNat_inj.mp (Text.toNat_of_mem_encodeChar h (by decide))
  rw [hc]
  rfl

/-- A carriage return after bytes does not decide whether they are a text. -/
theorem isText_append_return {line ret : List UInt8} (hret : ret = [] ∨ ret = [13]) :
    IsText (line ++ ret) ↔ IsText line := by
  obtain rfl | rfl := hret
  · rw [List.append_nil]
  constructor
  · rintro ⟨text, htext⟩
    obtain rfl | ⟨front, c, rfl⟩ := List.eq_nil_or_concat text
    · exact absurd htext (by simp [Text.encode])
    · rw [List.concat_eq_append, encode_concat] at htext
      -- the last byte is one of the last character
      have hlast := congrArg List.getLast? htext
      rw [List.getLast?_concat, List.getLast?_append,
        List.getLast?_eq_some_getLast String.utf8EncodeChar_ne_nil, Option.some_or,
        Option.some.injEq] at hlast
      rw [encodeChar_of_return (hlast ▸ List.getLast_mem _)] at htext
      exact ⟨front, List.append_cancel_right htext⟩
  · rintro ⟨text, rfl⟩
    exact ⟨text ++ ['\r'], (encode_concat text '\r').symm⟩

/-! Lines -/

namespace Text

theorem byteLines_append {a : List UInt8} (h : a = [] ∨ a.getLast? = some 10) (b : List UInt8) :
    byteLines (a ++ b) = byteLines a ++ byteLines b := by
  obtain rfl | h := h
  · rfl
  · obtain ⟨front, rfl⟩ := List.getLast?_eq_some_iff.mp h
    rw [byteLines, List.append_assoc, List.singleton_append, lines_append]
    rfl

theorem byteLines_ended {w : List UInt8} (hw : 10 ∉ w) :
    ∃ line, (IsText line ↔ IsText w) ∧
      ∀ rest, byteLines (w ++ 10 :: rest) = line :: byteLines rest := by
  obtain ⟨line, ret, rfl, hret⟩ := exists_return (13 : UInt8) w
  refine ⟨line, (isText_append_return (hret.imp_left And.left)).symm, fun rest => ?_⟩
  exact lines_ended (by decide) (fun hm => hw (List.mem_append_left ret hm)) hret rest

end Text

theorem ended_nil : Ended [] := ⟨.inl rfl, by simp [Text.byteLines, Text.lines]⟩

theorem Ended.cons {w bytes : List UInt8} (hw : 10 ∉ w) (htext : IsText w) (h : Ended bytes) :
    Ended (w ++ 10 :: bytes) where
  ended := by
    obtain rfl | hlast := h.ended
    · simp
    · simp [List.getLast?_cons, hlast]
  texts := by
    obtain ⟨line, hline, hlines⟩ := Text.byteLines_ended hw
    rw [hlines]
    exact List.forall_mem_cons.mpr ⟨hline.mpr htext, h.texts⟩

/-- **An input with a line that is no text has a first one.** -/
theorem exists_first_fault {input : List UInt8}
    (h : ∃ line ∈ Text.byteLines input, ¬ IsText line) :
    ∃ a bad rest, input = a ++ (bad ++ rest) ∧ Ended a ∧ 10 ∉ bad ∧ ¬ IsText bad ∧
      AtLineEnd rest := by
  induction hn : input.length using Nat.strongRecOn generalizing input with
  | ind n ih =>
    obtain ⟨line, hmem, hnot⟩ := h
    by_cases hlf : 10 ∈ input
    · obtain ⟨w, rest, rfl, hw⟩ := List.eq_append_cons_of_mem hlf
      by_cases htext : IsText w
      · -- the line is behind the first, which is a text
        obtain ⟨first, hfirst, hlines⟩ := Text.byteLines_ended hw
        rw [hlines, List.mem_cons] at hmem
        obtain rfl | hmem := hmem
        · exact absurd (hfirst.mpr htext) hnot
        have hlt : rest.length < n := by
          simp only [List.length_append, List.length_cons] at hn
          omega
        obtain ⟨a, bad, others, rfl, ha, hbad, hno, hend⟩ :=
          ih rest.length hlt ⟨line, hmem, hnot⟩ rfl
        exact ⟨w ++ 10 :: a, bad, others, by simp, ha.cons hw htext, hbad, hno, hend⟩
      · exact ⟨[], w, 10 :: rest, rfl, ended_nil, hw, htext, .inr rfl⟩
    · refine ⟨[], input, [], by simp, ended_nil, hlf, ?_, .inl rfl⟩
      have hne : input ≠ [] := by
        rintro rfl
        cases hmem
      rw [Text.byteLines, Text.lines_of_notMem hlf hne, List.mem_singleton] at hmem
      exact hmem ▸ hnot

/-! What a session writes -/

theorem exists_texts {lines : List (List UInt8)} (h : ∀ line ∈ lines, IsText line) :
    ∃ texts : List String, lines = texts.map fun text => Text.encode text.toList := by
  induction lines with
  | nil => exact ⟨[], rfl⟩
  | cons line lines ih =>
    obtain ⟨⟨text, rfl⟩, hlines⟩ := List.forall_mem_cons.mp h
    obtain ⟨texts, rfl⟩ := ih hlines
    exact ⟨String.ofList text :: texts, by simp⟩

namespace Run

variable (log : Log)

theorem replWrites_of_texts (texts : List String) (others : List (List UInt8)) :
    replWrites log (texts.map (fun text => Text.encode text.toList) ++ others) =
      texts.flatMap (fun text => prompt :: lineWrites log text) ++ replWrites log others := by
  have hdecode : (texts.map fun text => Text.encode text.toList).map Text.decode? =
      texts.map some := by
    simp [Text.decode?_encode]
  rw [replWrites_append, replWrites_of_decode? log hdecode, List.dropLast_concat]
  intro line hline
  obtain ⟨text, _, rfl⟩ := List.mem_map.mp hline
  exact IsText.isSome_decode? ⟨_, rfl⟩

theorem writes_session_append {a : List UInt8} (h : Ended a) :
    ∃ front, (session log a).writes = front ++ [prompt] ∧
      ∀ b, (session log (a ++ b)).writes = front ++ (session log b).writes := by
  obtain ⟨texts, htexts⟩ := exists_texts h.texts
  have hwrites : ∀ others, replWrites log (Text.byteLines a ++ others) =
      texts.flatMap (fun text => prompt :: lineWrites log text) ++ replWrites log others := by
    intro others
    rw [htexts, replWrites_of_texts]
  refine ⟨texts.flatMap fun text => prompt :: lineWrites log text, ?_, fun b => ?_⟩
  · rw [session, ← List.append_nil (Text.byteLines a), hwrites]
    rfl
  · rw [session, Text.byteLines_append h.ended, hwrites]
    rfl

/-- **A session answers line by line**: the bytes up to a line feed decide what is written for
them and whether the rest is looked at. -/
theorem writes_session_line {w : List UInt8} (hw : 10 ∉ w) :
    ∃ line, (IsText line ↔ IsText w) ∧ Text.byteLines (w ++ [10]) = [line] ∧
      ∀ rest, (session log (w ++ 10 :: rest)).writes = prompt :: ((answer log line).1 ++
        if (answer log line).2 then (session log rest).writes else []) := by
  obtain ⟨line, hline, hlines⟩ := Text.byteLines_ended hw
  refine ⟨line, hline, hlines [], fun rest => ?_⟩
  rw [session, hlines, replWrites]
  rfl

theorem writes_session_of_fault {bad rest : List UInt8} (hbad : 10 ∉ bad) (hno : ¬ IsText bad)
    (hrest : AtLineEnd rest) :
    (session log (bad ++ rest)).writes = [prompt, notTextWrite] := by
  obtain rfl | hrest := hrest
  · have hne : bad ≠ [] := by
      rintro rfl
      exact hno isText_nil
    rw [List.append_nil, session, Text.byteLines, Text.lines_of_notMem hbad hne, replWrites,
      answer_of_not_text (decode?_of_not_isText hno)]
    rfl
  · obtain ⟨rest, rfl⟩ := List.head?_eq_some_iff.mp hrest
    obtain ⟨line, hline, -, hwrites⟩ := writes_session_line log hbad
    rw [hwrites, answer_of_not_text (decode?_of_not_isText fun h => hno (hline.mp h))]
    rfl

/-! What standard error gets -/

theorem stderr_session {log : Log} (hoff : log.Off) (input : List UInt8)
    (line : Nat → Event → String) :
    (session log input).stderr line = Write.complaints (session log input).writes :=
  stderr_ofCommand hoff (fun _ => .error .missing) input .repl line

theorem stderrFrom_of_steady {line : Nat → Event → String} (h : Steady line)
    (writes : List Write) (m n : Nat) :
    Write.stderrFrom line m writes = Write.stderrFrom line n writes := by
  induction writes generalizing m n with
  | nil => rfl
  | cons w writes ih =>
    have hw : w.errText line m = w.errText line n := by
      cases w with
      | log e => rw [Write.errText, Write.errText, h m n]
      | _ => rfl
    rw [Write.stderrFrom, Write.stderrFrom, hw, ih (m + 1) (n + 1)]

/-- Standard error gets of two sessions one after the other what it gets of each, unless the
log is on and says at which moment. -/
theorem stderrFrom_session {log : Log} {line : Nat → Event → String} (h : log.Off ∨ Steady line)
    (input : List UInt8) (moment : Nat) :
    Write.stderrFrom line moment (session log input).writes = (session log input).stderr line := by
  obtain hoff | hsteady := h
  · rw [stderr_session hoff]
    apply Write.stderrFrom_of_log_notMem
    intro e he
    have hshown := shown_of_mem_replWrites he
    rw [hoff e] at hshown
    cases hshown
  · exact stderrFrom_of_steady hsteady _ moment 0

end Run

/-- **Sessions carry nothing from one line to the next**, on any input. -/
theorem forgetful_session (input : List UInt8) : Forgetful input where
  command libraries setting files h := Run.ofArguments_of_run (Request.read_repl h)
  exit_eq log := rfl
  lines ls := Text.divided_iff (by decide) input ls
  processed texts htexts log := by
    have hwrites := Run.replWrites_of_texts log texts []
    rw [List.append_nil, ← htexts] at hwrites
    obtain ⟨hstdout, hcomplaints⟩ := Run.streams_texts log texts
    constructor
    · rw [Run.stdout, Run.session, hwrites, Write.stdout_append, hstdout]
      rfl
    · intro hoff line
      rw [Run.stderr_session hoff, Run.session, hwrites, Write.complaints_append, hcomplaints]
      exact String.append_empty
  append := by
    rintro a b rfl ha log
    obtain ⟨front, hall, hfront⟩ := Run.writes_session_append log ha
    refine ⟨⟨front, hall, hfront b⟩, ⟨Write.stdout front, ?_, ?_⟩, ?_⟩
    · rw [Run.stdout, hall, Write.stdout_append]
      rfl
    · rw [Run.stdout, hfront, Write.stdout_append]
      rfl
    · intro line h
      rw [Run.stderr, Run.stderr, hfront, hall, Write.stderrFrom_append, Write.stderrFrom_append,
        Run.stderrFrom_session h]
      exact congrArg (· ++ _) String.append_empty.symm
  stops h := by
    obtain ⟨a, bad, rest, rfl, ha, hbad, hno, hrest⟩ := exists_first_fault h
    refine ⟨a, bad, rest, rfl, ha, hbad, hno, hrest, fun other hother log => ?_⟩
    obtain ⟨front, hall, hfront⟩ := Run.writes_session_append log ha
    have hwrites := hfront (bad ++ other)
    rw [Run.writes_session_of_fault log hbad hno hother] at hwrites
    constructor
    · rw [Run.stdout, Run.stdout, hwrites, hall, Write.stdout_append, Write.stdout_append]
      rfl
    · intro line
      rw [Run.stderr, Run.stderr, hwrites, hall, Write.stderrFrom_append, Write.stderrFrom_append,
        String.append_assoc]
      exact congrArg (_ ++ ·) (by simp [Write.stderrFrom, Write.errText, Run.prompt,
        Run.notTextWrite])

end SeqScan
