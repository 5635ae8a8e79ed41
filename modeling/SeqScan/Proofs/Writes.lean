import SeqScan.Command.Run

/-
  What runs write, stream by stream.

  Standard output gets the lines of the tokens and how the scan of a file went. Standard
  error gets the lines of the diagnostics, what is said besides, and the log. The log writes
  nothing that is not shown, so where it shows nothing, standard error has what the program
  itself says and no more.

  What is proved:
    1. `stdout_scanned`, `complaints_scanned`, `complaints_checked`: the two streams of the
       commands that read a file; `stdout_lineWrites`, `complaints_lineWrites`: those of a
       line of a session.
    2. `shown_of_mem_ofCommand`: a command writes no event that the log does not show.
    3. `stderr_ofCommand`: standard error where the log is off.
-/

namespace SeqScan

def Scan.tokenLines (s : Scan) : String := String.join (s.tokens.map (·.text ++ "\n"))

def Scan.diagnosticLines (s : Scan) : String := String.join (s.diagnostics.map (·.text ++ "\n"))

/-! Streams -/

namespace Write

/-- What the program itself writes to standard error. -/
def complaint : Write → String
  | err text => text
  | out _ | log _ => ""

def complaints (writes : List Write) : String := String.join (writes.map complaint)

theorem stdout_cons (w : Write) (writes : List Write) :
    stdout (w :: writes) = w.outText ++ stdout writes := by
  simp [stdout]

theorem complaints_cons (w : Write) (writes : List Write) :
    complaints (w :: writes) = w.complaint ++ complaints writes := by
  simp [complaints]

theorem complaints_append (a b : List Write) :
    complaints (a ++ b) = complaints a ++ complaints b := by
  simp [complaints]

theorem join_eq_empty {writes : List Write} {text : Write → String}
    (h : ∀ w ∈ writes, text w = "") : String.join (writes.map text) = "" := by
  induction writes with
  | nil => rfl
  | cons w writes ih =>
    rw [List.map_cons, String.join_cons, h w List.mem_cons_self,
      ih fun v hv => h v (List.mem_cons_of_mem w hv)]
    rfl

theorem stderrFrom_of_log_notMem {writes : List Write} (h : ∀ e, log e ∉ writes)
    (line : Nat → Event → String) (moment : Nat) :
    stderrFrom line moment writes = complaints writes := by
  induction writes generalizing moment with
  | nil => rfl
  | cons w writes ih =>
    have hw : w.errText line moment = w.complaint := by
      cases w with
      | log e => exact absurd List.mem_cons_self (h e)
      | _ => rfl
    rw [stderrFrom, complaints_cons, hw, ih fun e he => h e (List.mem_cons_of_mem w he)]

end Write

namespace Run

variable (log : Log)

/-! The log -/

theorem mem_told {e : Event} {events : List Event} :
    .log e ∈ told log events ↔ e ∈ events ∧ log e = true := by
  simp [told]

theorem stdout_told (events : List Event) : Write.stdout (told log events) = "" := by
  apply Write.join_eq_empty
  intro w hw
  obtain ⟨event, _, rfl⟩ := List.mem_map.mp hw
  rfl

theorem complaints_told (events : List Event) : Write.complaints (told log events) = "" := by
  apply Write.join_eq_empty
  intro w hw
  obtain ⟨event, _, rfl⟩ := List.mem_map.mp hw
  rfl

/-! Tokens and diagnostics -/

theorem stdout_printed (s : Scan) : Write.stdout (printed s) = s.tokenLines := by
  rw [Write.stdout, printed, List.map_map]
  rfl

theorem complaints_printed (s : Scan) : Write.complaints (printed s) = "" := by
  apply Write.join_eq_empty
  intro w hw
  obtain ⟨t, _, rfl⟩ := List.mem_map.mp hw
  rfl

theorem stdout_reported (s : Scan) : Write.stdout (reported s) = "" := by
  apply Write.join_eq_empty
  intro w hw
  obtain ⟨d, _, rfl⟩ := List.mem_map.mp hw
  rfl

theorem complaints_reported (s : Scan) : Write.complaints (reported s) = s.diagnosticLines := by
  rw [Write.complaints, reported, List.map_map]
  rfl

theorem log_notMem_printed (s : Scan) (e : Event) : .log e ∉ printed s := by simp [printed]

theorem log_notMem_reported (s : Scan) (e : Event) : .log e ∉ reported s := by simp [reported]

/-! Lines of a session -/

theorem stdout_lineWrites (line : String) :
    Write.stdout (lineWrites log line) = (scan line).tokenLines := by
  rw [lineWrites, Write.stdout_append, Write.stdout_append, logged, stdout_told, stdout_printed,
    stdout_reported, String.empty_append, String.append_empty]

theorem complaints_lineWrites (line : String) :
    Write.complaints (lineWrites log line) = (scan line).diagnosticLines := by
  rw [lineWrites, Write.complaints_append, Write.complaints_append, logged, complaints_told,
    complaints_printed, complaints_reported, String.empty_append, String.empty_append]

/-! The commands that read a file -/

theorem faults_cases (s : Scan) :
    (s.hasFaults = true ∧ s.diagnostics ≠ [] ∧ exitOf s = 65) ∨
      (s.hasFaults = false ∧ s.diagnostics = [] ∧ exitOf s = 0) := by
  unfold exitOf Scan.hasFaults
  cases s.diagnostics with
  | nil => exact .inr ⟨rfl, rfl, rfl⟩
  | cons d ds => exact .inl ⟨rfl, List.cons_ne_nil d ds, rfl⟩

variable (path source : String)

theorem exit_scanned :
    ((scanned log path source).exit = 65 ∧ (scan source).diagnostics ≠ []) ∨
      ((scanned log path source).exit = 0 ∧ (scan source).diagnostics = []) := by
  obtain ⟨-, h, hcode⟩ | ⟨-, h, hcode⟩ := faults_cases (scan source)
  · exact .inl ⟨hcode, h⟩
  · exact .inr ⟨hcode, h⟩

theorem stdout_scanned :
    (scanned log path source).stdout = (scan source).tokenLines ++
      if (scan source).hasFaults then "\nFailure!\n" else "\nSUCCESS!\n" := by
  have hverdict (text : String) : Write.stdout [.out text] = text := by
    simp [Write.stdout, Write.outText]
  rw [stdout, scanned, Write.stdout_append, Write.stdout_append, Write.stdout_append,
    Write.stdout_append, logged, stdout_told, stdout_told, stdout_printed, stdout_reported,
    hverdict, String.empty_append, String.empty_append, String.append_empty]

theorem stdout_scanned_exit :
    (scanned log path source).stdout = (scan source).tokenLines ++
      if (scanned log path source).exit = 0 then "\nSUCCESS!\n" else "\nFailure!\n" := by
  have hexit : (scanned log path source).exit = exitOf (scan source) := rfl
  rw [hexit, stdout_scanned]
  obtain ⟨hfaults, -, hcode⟩ | ⟨hfaults, -, hcode⟩ := faults_cases (scan source)
  · rw [hfaults, hcode]
    rfl
  · rw [hfaults, hcode]
    rfl

theorem complaints_scanned :
    Write.complaints (scanned log path source).writes = (scan source).diagnosticLines := by
  rw [scanned, Write.complaints_append, Write.complaints_append, Write.complaints_append,
    Write.complaints_append, logged, complaints_told, complaints_told, complaints_printed,
    complaints_reported]
  simp [Write.complaints, Write.complaint]

theorem stdout_checked : (checked log path source).stdout = "" := by
  rw [stdout, checked, Write.stdout_append, Write.stdout_append, logged, stdout_told,
    stdout_reported]
  split <;> rfl

theorem complaints_checked :
    Write.complaints (checked log path source).writes = (scan source).diagnosticLines ++
      if (checked log path source).exit = 0 then "OK: " ++ path ++ "\n" else "" := by
  have hexit : (checked log path source).exit = exitOf (scan source) := rfl
  rw [hexit, checked, Write.complaints_append, Write.complaints_append, logged, complaints_told,
    complaints_reported, String.empty_append]
  obtain ⟨hfaults, -, hcode⟩ | ⟨hfaults, -, hcode⟩ := faults_cases (scan source)
  · rw [hfaults, hcode]
    rfl
  · rw [hfaults, hcode]
    simp [Write.complaints, Write.complaint]

/-! What the log shows -/

variable {log path source} {e : Event}

theorem shown_of_mem_lineWrites {line : String} (h : .log e ∈ lineWrites log line) :
    log e = true := by
  simp only [lineWrites, List.mem_append, log_notMem_printed, log_notMem_reported, or_false] at h
  exact ((mem_told log).mp h).2

theorem shown_of_mem_replWrites {lines : List (List UInt8)} (h : .log e ∈ replWrites log lines) :
    log e = true := by
  induction lines with
  | nil => simp [replWrites, prompt] at h
  | cons line lines ih =>
    rw [replWrites] at h
    cases htext : Text.decode? line with
    | none => simp [answer_of_not_text htext, prompt, notTextWrite] at h
    | some text =>
      simp only [answer_of_text htext, if_true, prompt, List.mem_cons, reduceCtorEq, false_or,
        List.mem_append] at h
      obtain h | h := h
      · exact shown_of_mem_lineWrites h
      · exact ih h

/-- **A command writes no event that the log does not show.** -/
theorem shown_of_mem_ofCommand {files : Files} {input : List UInt8} {command : Command}
    (h : .log e ∈ (ofCommand log files input command).writes) : log e = true := by
  cases command with
  | repl => exact shown_of_mem_replWrites h
  | file command path =>
    simp only [ofCommand] at h
    cases hsource : files.source path with
    | error fault => simp [hsource, unreadable] at h
    | ok source =>
      simp only [hsource] at h
      cases command with
      | scan =>
        simp only [onSource, scanned, List.mem_append, List.mem_singleton, reduceCtorEq,
          log_notMem_printed, log_notMem_reported, or_false] at h
        obtain h | h := h
        · exact ((mem_told log).mp h).2
        · exact ((mem_told log).mp h).2
      | check =>
        simp only [onSource, checked, List.mem_append, log_notMem_reported, or_false] at h
        obtain h | h := h
        · exact ((mem_told log).mp h).2
        · split at h <;> simp at h

/-- Where the log is off, standard error has what the program itself says. -/
theorem stderr_ofCommand (hoff : log.Off) (files : Files) (input : List UInt8)
    (command : Command) (line : Nat → Event → String) :
    (ofCommand log files input command).stderr line =
      Write.complaints (ofCommand log files input command).writes := by
  apply Write.stderrFrom_of_log_notMem
  intro e he
  have hshown := shown_of_mem_ofCommand he
  rw [hoff e] at hshown
  cases hshown

end Run

end SeqScan
