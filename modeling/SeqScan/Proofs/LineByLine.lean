import SeqScan.Proofs.Joined
import SeqScan.Proofs.Lines
import SeqScan.Proofs.Words
import SeqScan.Proofs.Writes

/-
  A file scanned as a whole and line by line.

  A session reads its input in lines, scans each on its own and forgets it. A file
  is scanned as one text, in which a line goes on with a carriage return, perhaps,
  and a line feed. Neither gives a token or a diagnostic, and nothing but an open
  string looks beyond a line feed. So if no line leaves a string open, the two agree,
  but for the number of the line, which is always 1 in a session.

  What is proved:
    1. `append_ending`: a carriage return at the end of a line changes nothing.
    2. `lines_from`: from any line on, the scan of a text is that of its lines.
    3. `replWrites_of_decode?`: what a session writes for lines that are all text.
    4. `lineByLine_of_closed_lines`: a session on the bytes of a text, and the scan of a
       file with the same bytes.
-/

namespace SeqScan

/-! A carriage return at the end of a line -/

theorem Cut.append_return {p : Piece} {rest : List Char} (h : Cut p rest)
    (hu : p.shape ≠ .unterminated) :
    Cut p (rest ++ ['\r']) ∨
      p.shape = .comment ∧ rest = [] ∧ Cut ⟨.comment, p.first, p.rest ++ ['\r']⟩ [] := by
  by_cases hend : p.shape = .comment ∧ rest = []
  · obtain ⟨hs, rfl⟩ := hend
    exact .inr ⟨hs, rfl, h.append_comment hs (by decide)⟩
  · exact .inl (h.append_blank hu (by decide) (fun hs hr => absurd ⟨hs, hr⟩ hend) [])

namespace Scan

theorem append_return (table : ReservedWords) (pos : Position) (a : List Char)
    (h : ∀ d ∈ diagnosticsFrom pos a, d.fault ≠ .unterminatedString) :
    (tokensFrom table pos (a ++ ['\r'])).filter (·.kind ≠ .eof) =
        (tokensFrom table pos a).filter (·.kind ≠ .eof) ∧
      diagnosticsFrom pos (a ++ ['\r']) = diagnosticsFrom pos a := by
  induction a using Piece.cut_induction generalizing pos with
  | nil =>
    rw [List.nil_append, tokensFrom_blank table pos (by decide),
      diagnosticsFrom_blank pos (by decide), tokensFrom_nil, tokensFrom_nil, diagnosticsFrom_nil,
      diagnosticsFrom_nil]
    exact ⟨rfl, rfl⟩
  | cut p rest hcut ih =>
    rcases hcut.append_return (shape_ne_unterminated hcut h) with hcut' | ⟨hs, rfl, hcut'⟩
    · rw [diagnosticsFrom_cut pos hcut] at h
      obtain ⟨htokens, hdiagnostics⟩ := ih _ fun d hd => h d (List.mem_append_right _ hd)
      rw [List.append_assoc, tokensFrom_cut table pos hcut', tokensFrom_cut table pos hcut,
        diagnosticsFrom_cut pos hcut', diagnosticsFrom_cut pos hcut, List.filter_append,
        List.filter_append, htokens, hdiagnostics]
      exact ⟨rfl, rfl⟩
    · have htext : p.text ++ [] ++ ['\r'] =
          Piece.text ⟨.comment, p.first, p.rest ++ ['\r']⟩ ++ [] := by
        simp [Piece.text]
      rw [htext, tokensFrom_cut table pos hcut', tokensFrom_cut table pos hcut,
        diagnosticsFrom_cut pos hcut', diagnosticsFrom_cut pos hcut]
      simp [Placed.token?, Placed.diagnostic?, Piece.kind?, Piece.fault?, hs, Token.eof]

/-- What stands at the end of a line before its line feed gives nothing. -/
theorem append_ending (table : ReservedWords) (pos : Position) (a : List Char) {ret : List Char}
    (hret : ret = [] ∨ ret = ['\r'])
    (h : ∀ d ∈ diagnosticsFrom pos a, d.fault ≠ .unterminatedString) :
    (tokensFrom table pos (a ++ ret)).filter (·.kind ≠ .eof) =
        (tokensFrom table pos a).filter (·.kind ≠ .eof) ∧
      diagnosticsFrom pos (a ++ ret) = diagnosticsFrom pos a := by
  rcases hret with rfl | rfl
  · rw [List.append_nil]
    exact ⟨rfl, rfl⟩
  · exact append_return table pos a h

/-! From line to line -/

/-- What a token says, with its line and its column. -/
def located (t : Token) : (TokenKind × String × Option Literal) × Nat × Nat :=
  (t.content, t.span.line, t.span.column)

/-- The tokens of a line, but the last, as they stand in the line `n` of a text. -/
def locatedOn (table : ReservedWords) (x : List Char × Nat) :
    List ((TokenKind × String × Option Literal) × Nat × Nat) :=
  (ofChars table x.1).words.map fun t => (t.content, x.2, t.span.column)

/-- The diagnostics of a line, as they stand in the line `n` of a text. -/
def diagnosticsOn (table : ReservedWords) (x : List Char × Nat) : List Diagnostic :=
  (ofChars table x.1).diagnostics.map fun d => { d with line := x.2 }

variable {table : ReservedWords} {line : List Char}

theorem lineAt_of_notMem (h : '\n' ∉ line) (p : Nat) : lineAt line p = 1 := by
  have hp : '\n' ∉ line.take p := fun hm => h (List.mem_of_mem_take hm)
  rw [lineAt, List.count_eq_zero.mpr hp]

theorem line_of_mem_tokens (h : '\n' ∉ line) {t : Token} (ht : t ∈ (ofChars table line).tokens) :
    t.span.line = 1 := by
  rw [(place_of_mem_tokens ht).2.2.1, lineAt_of_notMem h]

variable (table) in
theorem line_of_mem_diagnostics (h : '\n' ∉ line) {d : Diagnostic}
    (hd : d ∈ (ofChars table line).diagnostics) : d.line = 1 := by
  rw [diagnostics_eq, List.mem_append, List.mem_map, List.mem_map] at hd
  rcases hd with ⟨x, _, rfl⟩ | ⟨x, _, rfl⟩ <;> exact lineAt_of_notMem h x.1

theorem located_moved (h : '\n' ∉ line) (k l : Nat) :
    ((tokensFrom table (Position.first.moved k l) line).filter (·.kind ≠ .eof)).map located =
      locatedOn table (line, l + 1) := by
  rw [tokensFrom_moved, List.filter_map, List.map_map]
  apply List.map_congr_left
  intro t ht
  have hline := line_of_mem_tokens h (List.mem_filter.mp ht).1
  show (t.content, t.span.line + l, t.span.column) = _
  rw [hline, Nat.add_comm]

variable (table) in
theorem diagnostics_moved (h : '\n' ∉ line) (k l : Nat) :
    diagnosticsFrom (Position.first.moved k l) line = diagnosticsOn table (line, l + 1) := by
  rw [diagnosticsFrom_moved]
  apply List.map_congr_left
  intro d hd
  have hline := line_of_mem_diagnostics table h hd
  show { d with line := d.line + l } = _
  rw [hline, Nat.add_comm]

theorem next_line {a : List Char} (h : '\n' ∉ a) (k l : Nat) :
    ((Position.first.moved k l).after a).advance '\n' =
      Position.first.moved (a.length + 1 + k) (l + 1) := by
  rw [Position.after_moved, Position.advance_moved, Position.first_after_line,
    List.count_eq_zero.mpr h]
  simp only [Position.moved, Position.first, Position.mk.injEq, and_true]
  omega

/-- **A text is scanned line by line**, if no line leaves a string open: from the start of
any line on, its tokens and diagnostics are those of its lines, each in its line. -/
theorem lines_from (table : ReservedWords) {text : List Char} {ls : List (List Char)}
    (hlines : Text.Divided '\r' '\n' text ls)
    (h : ∀ line ∈ ls, ∀ d ∈ (ofChars table line).diagnostics, d.fault ≠ .unterminatedString)
    (k l : Nat) :
    ((tokensFrom table (Position.first.moved k l) text).filter (·.kind ≠ .eof)).map located =
        (ls.zipIdx (l + 1)).flatMap (locatedOn table) ∧
      diagnosticsFrom (Position.first.moved k l) text =
        (ls.zipIdx (l + 1)).flatMap (diagnosticsOn table) := by
  induction hlines generalizing k l with
  | nil =>
    rw [tokensFrom_nil, diagnosticsFrom_nil]
    exact ⟨rfl, rfl⟩
  | last _ hline =>
    rw [List.zipIdx_singleton, List.flatMap_singleton, List.flatMap_singleton,
      located_moved hline, diagnostics_moved table hline]
    exact ⟨rfl, rfl⟩
  | @ended line ret rest ls hline hret _ ih =>
    have hclosed : ∀ d ∈ diagnosticsFrom (Position.first.moved k l) line,
        d.fault ≠ .unterminatedString := by
      rw [diagnosticsFrom_moved]
      intro d hd
      obtain ⟨e, he, rfl⟩ := List.mem_map.mp hd
      exact h line List.mem_cons_self e he
    have hlater := fun other ho => h other (List.mem_cons_of_mem _ ho)
    obtain ⟨ihtokens, ihdiagnostics⟩ := ih hlater ((line ++ ret).length + 1 + k) (l + 1)
    have hret : ret = [] ∨ ret = ['\r'] := hret.imp_left And.left
    -- a line feed ends what the line and its ending left unfinished
    have hreturn := append_ending table (Position.first.moved k l) line hret hclosed
    have hnl : '\n' ∉ line ++ ret := by
      rcases hret with rfl | rfl <;> simp [hline]
    rw [← hreturn.2] at hclosed
    rw [tokensFrom_append_line table _ _ rest hclosed, diagnosticsFrom_append_line _ _ rest hclosed,
      next_line hnl, hreturn.1, hreturn.2, List.filter_append, List.map_append, ihtokens,
      ihdiagnostics, diagnostics_moved table hline, List.zipIdx_cons,
      List.flatMap_cons, List.flatMap_cons]
    refine ⟨?_, rfl⟩
    rw [List.filter_filter, ← located_moved hline k l]
    simp

end Scan

/-! Sessions and files -/

def Text.sourceLines (source : String) : List String :=
  (lines '\r' '\n' source.toList).map String.ofList

theorem Text.map_decode?_eq_sourceLines {bytes : List UInt8} {source : String}
    (h : decode? bytes = some source) :
    (byteLines bytes).map decode? = (sourceLines source).map some := by
  rw [decode?_eq_some_iff.mp h, map_decode?_byteLines, sourceLines, List.map_map]
  rfl

theorem Run.replWrites_of_decode? (log : Log) {ls : List (List UInt8)} {texts : List String}
    (h : ls.map Text.decode? = texts.map some) :
    replWrites log ls = texts.flatMap (fun text => prompt :: lineWrites log text) ++ [prompt] := by
  induction ls generalizing texts with
  | nil =>
    obtain rfl : texts = [] := by simpa using h.symm
    rfl
  | cons line ls ih =>
    cases texts with
    | nil => simp at h
    | cons text texts =>
      obtain ⟨hline, hrest⟩ := List.cons.inj h
      rw [replWrites, answer_of_text hline, List.flatMap_cons, List.append_assoc, ← ih hrest]
      rfl

theorem Run.streams_texts (log : Log) (texts : List String) :
    Write.stdout (texts.flatMap fun text => prompt :: lineWrites log text) =
        String.join (texts.map fun text => "> " ++ (scan text).tokenLines) ∧
      Write.complaints (texts.flatMap fun text => prompt :: lineWrites log text) =
        String.join (texts.map fun text => (scan text).diagnosticLines) := by
  induction texts with
  | nil => exact ⟨rfl, rfl⟩
  | cons text texts ih =>
    rw [List.flatMap_cons, Write.stdout_append, Write.complaints_append, ih.1, ih.2,
      Write.stdout_cons, Write.complaints_cons, stdout_lineWrites, complaints_lineWrites,
      List.map_cons, List.map_cons, String.join_cons, String.join_cons]
    exact ⟨rfl, congrArg (· ++ _) String.empty_append⟩

theorem Scan.map_text_tokens (source : String) :
    (scan source).tokens.map Token.text = (scan source).words.map Token.text ++ ["EOF  null"] := by
  rw [scan, ofSource, tokens_eq_words, List.map_append]
  rfl

/-- The text of a token that says `x`, which does not depend on its place. -/
def Token.textOf (x : TokenKind × String × Option Literal) : String :=
  text ⟨x.1, x.2.1, x.2.2, ⟨0, 0, 1, 1⟩⟩

theorem Token.textOf_content (t : Token) : textOf t.content = t.text := rfl

/-- A session on the bytes of a source, and the scan of a file with the same bytes. -/
structure LineByLine (bytes : List UInt8) (source : String) : Prop where
  /-- The session reads the lines of the source. -/
  reads : (Text.byteLines bytes).map Text.decode? = (Text.sourceLines source).map some
  /-- A line feed ends a line and takes one carriage return with it. -/
  lines : Text.Divided '\r' '\n' source.toList ((Text.sourceLines source).map String.toList)
  /-- The session invites each, tells the log of it, prints its tokens and reports what is
  wrong. -/
  session : ∀ log files, Run.ofCommand log files bytes .repl =
    ⟨0, (Text.sourceLines source).flatMap (fun line => Run.prompt ::
      (Run.logged log line ++ Run.printed (scan line) ++ Run.reported (scan line))) ++
        [Run.prompt]⟩
  /-- So it prints the texts of the tokens, line by line, and reports the diagnostics. -/
  sessionShows : ∀ log files line,
    (Run.ofCommand log files bytes .repl).stdout =
        String.join ((Text.sourceLines source).map fun line =>
          "> " ++ String.join ((scan line).tokens.map (·.text ++ "\n"))) ++ "> " ∧
      (log.Off → (Run.ofCommand log files bytes .repl).stderr line =
        String.join ((Text.sourceLines source).map fun line =>
          String.join ((scan line).diagnostics.map (·.text ++ "\n"))))
  /-- A file is scanned as a whole. -/
  file : ∀ log files input path, files path = .ok bytes →
    Run.ofCommand log files input (.file .scan path) = Run.scanned log path source
  /-- What is printed for it are the texts of its tokens, and then how it went. -/
  fileShows : ∀ log files input path line, files path = .ok bytes →
    (Run.ofCommand log files input (.file .scan path)).stdout =
        String.join ((scan source).tokens.map (·.text ++ "\n")) ++
          (if (scan source).hasFaults then "\nFailure!\n" else "\nSUCCESS!\n") ∧
      (log.Off → (Run.ofCommand log files input (.file .scan path)).stderr line =
        String.join ((scan source).diagnostics.map (·.text ++ "\n")))
  /-- Whatever is scanned, the last text that is printed is the one for the end. -/
  ends : ∀ text ∈ source :: Text.sourceLines source, (scan text).tokens.map Token.text =
    (scan text).words.map Token.text ++ ["EOF  null"]
  /-- The other texts are the same, in the same order. -/
  texts : (scan source).words.map Token.text =
    (Text.sourceLines source).flatMap fun line => (scan line).words.map Token.text
  /-- The tokens of the `n`th line have the line `n` in the file. -/
  tokens : (scan source).words.map Scan.located =
    ((Text.sourceLines source).zipIdx 1).flatMap fun x =>
      (scan x.1).words.map fun t => (t.content, x.2, t.span.column)
  /-- So have its diagnostics. -/
  diagnostics : (scan source).diagnostics =
    ((Text.sourceLines source).zipIdx 1).flatMap fun x =>
      (scan x.1).diagnostics.map fun d => ⟨d.fault, x.2, d.column⟩
  /-- In the session every line is the first. -/
  first : ∀ line ∈ Text.sourceLines source,
    (∀ t ∈ (scan line).tokens, t.span.line = 1) ∧ ∀ d ∈ (scan line).diagnostics, d.line = 1

theorem Scan.scan_sourceLines {source : String}
    (h : ∀ line ∈ Text.sourceLines source, ∀ d ∈ (scan line).diagnostics,
      d.fault ≠ .unterminatedString) :
    (scan source).words.map located = ((Text.sourceLines source).zipIdx 1).flatMap (fun x =>
        (scan x.1).words.map fun t => (t.content, x.2, t.span.column)) ∧
      (scan source).diagnostics = ((Text.sourceLines source).zipIdx 1).flatMap fun x =>
        (scan x.1).diagnostics.map fun d => ⟨d.fault, x.2, d.column⟩ := by
  have hscan : ∀ line, scan (String.ofList line) = ofChars .standard line := by
    intro line
    rw [scan, ofSource, String.toList_ofList]
  have hlines := lines_from .standard (Text.divided_lines (by decide) source.toList) (by
    intro line hline
    rw [← hscan]
    exact h _ (List.mem_map_of_mem hline)) 0 0
  rw [Text.sourceLines, List.zipIdx_map, List.flatMap_map, List.flatMap_map]
  simp only [Prod.map_fst, Prod.map_snd, id, hscan]
  exact hlines

theorem Scan.map_text_of_located {s : Scan} {lines : List String}
    (h : s.words.map located = (lines.zipIdx 1).flatMap fun x =>
      (scan x.1).words.map fun t => (t.content, x.2, t.span.column)) :
    s.words.map Token.text = lines.flatMap fun line => (scan line).words.map Token.text :=
  calc s.words.map Token.text
      = (s.words.map located).map fun e => Token.textOf e.1 := by
        simp only [List.map_map, Function.comp_def, located, Token.textOf_content]
    _ = (lines.zipIdx 1).flatMap fun x => (scan x.1).words.map Token.text := by
        simp only [h, List.map_flatMap, List.map_map, Function.comp_def, Token.textOf_content]
    _ = ((lines.zipIdx 1).map Prod.fst).flatMap fun line => (scan line).words.map Token.text :=
        by rw [List.flatMap_map]
    _ = _ := by rw [List.zipIdx_map_fst]

theorem Scan.line_of_sourceLines {source line : String} (h : line ∈ Text.sourceLines source) :
    (∀ t ∈ (scan line).tokens, t.span.line = 1) ∧ ∀ d ∈ (scan line).diagnostics, d.line = 1 := by
  obtain ⟨chars, hchars, rfl⟩ := List.mem_map.mp h
  have hnl := (Text.divided_lines (by decide) source.toList).notMem chars hchars
  rw [scan, ofSource, String.toList_ofList]
  exact ⟨fun t ht => line_of_mem_tokens hnl ht, fun d hd => line_of_mem_diagnostics _ hnl hd⟩

/-- **A session and the scan of a file agree**, for every source of which no line on its
own leaves a string open. -/
theorem lineByLine_of_closed_lines {bytes : List UInt8} {source : String}
    (htext : Text.decode? bytes = some source)
    (hclosed : ∀ line ∈ Text.sourceLines source, ∀ d ∈ (scan line).diagnostics,
      d.fault ≠ .unterminatedString) :
    LineByLine bytes source := by
  have hreads := Text.map_decode?_eq_sourceLines htext
  obtain ⟨htokens, hdiagnostics⟩ := Scan.scan_sourceLines hclosed
  have hsession : ∀ log files, Run.ofCommand log files bytes .repl = ⟨0, _⟩ :=
    fun log _ => congrArg (Run.mk 0) (Run.replWrites_of_decode? log hreads)
  have hfile : ∀ log files input path, files path = .ok bytes →
      Run.ofCommand log files input (.file .scan path) = Run.scanned log path source :=
    fun _ _ _ _ hpath => Run.ofCommand_scan (Files.source_of_decode? hpath htext)
  exact {
    reads := hreads
    lines := by
      rw [Text.sourceLines, List.map_map]
      simpa [Function.comp_def] using Text.divided_lines (by decide) source.toList
    session := fun log files => hsession log files
    sessionShows := by
      intro log files line
      obtain ⟨hstdout, hcomplaints⟩ := Run.streams_texts log (Text.sourceLines source)
      constructor
      · rw [hsession, Run.stdout, Write.stdout_append, hstdout]
        rfl
      · intro hoff
        rw [Run.stderr_ofCommand hoff, hsession, Write.complaints_append, hcomplaints]
        exact String.append_empty
    file := hfile
    fileShows := by
      intro log files input path line hpath
      constructor
      · rw [hfile log files input path hpath, Run.stdout_scanned]
        rfl
      · intro hoff
        rw [Run.stderr_ofCommand hoff, hfile log files input path hpath, Run.complaints_scanned]
        rfl
    ends := fun text _ => Scan.map_text_tokens text
    texts := Scan.map_text_of_located htokens
    tokens := htokens
    diagnostics := hdiagnostics
    first := fun line hline => Scan.line_of_sourceLines hline }

/-- A quote in a comment with a carriage return, a character that starts nothing before
two of them, an empty line, and a last line that is not ended. -/
theorem lineByLine_of_closed_lines_returns :
    LineByLine (Text.encode "x // \"\r\n#\r\r\n\n\"s\" 1.".toList) "x // \"\r\n#\r\r\n\n\"s\" 1." :=
  lineByLine_of_closed_lines (Text.decode?_eq_some_iff.mpr rfl) (by decide +kernel)

end SeqScan
