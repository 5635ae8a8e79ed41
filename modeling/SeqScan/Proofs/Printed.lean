import SeqScan.Proofs.Encoding
import SeqScan.Proofs.Words
import SeqScan.Proofs.Writes

/-
  What is printed for a file tells its tokens.

  The line of a token is its kind, its lexeme and its value, with a space after each of
  the first two. Nothing in it is marked or left out: the characters of a string are
  printed as they are, its line feeds with them, and may look like lines for other tokens
  or like the last lines of all. There is still one way to read what is printed, from left
  to right. A kind has no space in it. The lexeme of a string ends with its second quote,
  and no other lexeme has a space in it. The lexeme fixes the value, and what is left
  starts with the next line.

  What is proved:
    1. `toList_stdout_scanned`: what the scan of a file prints, token by token.
    2. `Word.line_inj`: a line for a word at the front of a text is the only one there.
    3. `Scan.lines_inj`: so the lines up to the one for the end of the text are fixed by
       the text that they start.
    4. `content_of_stdout`: two files for which the same is printed have the same kinds,
       lexemes and values, and the same exit code.
-/

namespace SeqScan

/-! What a run prints -/

def Literal.shown : Option Literal → String
  | some value => value.text
  | none => "null"

def Token.lineOf (x : TokenKind × String × Option Literal) : List Char :=
  x.1.name.toList ++ ' ' :: (x.2.1.toList ++ ' ' :: ((Literal.shown x.2.2).toList ++ ['\n']))

theorem Token.toList_text (t : Token) : (t.text ++ "\n").toList = lineOf t.content := by
  have hvalue : t.literalText = Literal.shown t.literal := by
    unfold literalText Literal.shown
    cases t.literal <;> rfl
  simp [text, lineOf, content, hvalue]

theorem Scan.toList_tokenLines (s : Scan) :
    s.tokenLines.toList = (s.tokens.map Token.content).flatMap Token.lineOf := by
  rw [Scan.tokenLines, String.toList_join, List.flatMap_map, List.flatMap_map]
  exact congrArg (s.tokens.flatMap ·) (funext Token.toList_text)

namespace Run

/-- The last two lines that are printed for a file. -/
def verdict (s : Scan) : List Char :=
  if s.hasFaults then "\nFailure!\n".toList else "\nSUCCESS!\n".toList

theorem toList_stdout_scanned (log : Log) (path source : String) :
    (scanned log path source).stdout.toList =
      ((scan source).tokens.map Token.content).flatMap Token.lineOf ++ verdict (scan source) := by
  rw [stdout_scanned, String.toList_append, Scan.toList_tokenLines, verdict]
  split <;> rfl

end Run

/-! One line -/

theorem TokenKind.space_notMem_name (kind : TokenKind) : ' ' ∉ kind.name.toList := by
  have hall : TokenKind.all.all (fun k => !k.name.toList.contains ' ') = true := by decide +kernel
  have h := List.all_eq_true.mp hall kind (mem_all kind)
  simpa using h

namespace Token

theorem kind_of_line {x y : TokenKind × String × Option Literal} {r s : List Char}
    (h : lineOf x ++ r = lineOf y ++ s) : x.1 = y.1 := by
  have hx := Shape.bne_of_notMem x.1.space_notMem_name
  have hy := Shape.bne_of_notMem y.1.space_notMem_name
  rw [lineOf, lineOf, List.append_assoc, List.append_assoc] at h
  have hname := (run_unique hx hy (by simp) (by simp) h).1
  exact TokenKind.name_inj (String.toList_inj.mp hname)

end Token

/-- Only strings have spaces in them, of the lexemes that give a token. -/
theorem Lexeme.space_notMem {cls : LexemeClass} {w : List Char} (h : Lexeme cls w)
    (hstring : cls ≠ .string) (hcounts : cls ≠ .blank ∧ cls ≠ .comment) : ' ' ∉ w := by
  have hdigit : ¬ Digit ' ' := by
    rw [← Text.isDigit_iff]
    decide
  have hname : ¬ (Letter ' ' ∨ Digit ' ' ∨ ' ' = '_') := by
    rw [← Text.isNameChar_iff]
    decide
  intro hm
  cases h with
  | operator hw =>
    have hmark := Operator.forall_mem_marks (Operator.mem_texts_iff.mp hw) ' ' hm
    exact absurd hmark (by decide)
  | string _ => exact absurd rfl hstring
  | whole hd hds =>
    rcases List.mem_cons.mp hm with rfl | hm
    · exact hdigit hd
    · exact hdigit (hds _ hm)
  | fraction hd hds hf hfs =>
    simp only [List.mem_cons, List.mem_append] at hm
    rcases hm with rfl | hm | hpoint | rfl | hm
    · exact hdigit hd
    · exact hdigit (hds _ hm)
    · exact absurd hpoint (by decide)
    · exact hdigit hf
    · exact hdigit (hfs _ hm)
  | name hc hw =>
    rcases List.mem_cons.mp hm with rfl | hm
    · exact hname (hc.imp_right .inr)
    · exact hname (hw _ hm)
  | blank _ => exact absurd rfl hcounts.1
  | comment _ => exact absurd rfl hcounts.2

theorem Lexeme.exists_body {w : List Char} (h : Lexeme .string w) :
    ∃ body, '"' ∉ body ∧ w = '"' :: (body ++ ['"']) := by
  cases h with
  | string hb => exact ⟨_, hb, rfl⟩

namespace Word

variable {table : ReservedWords} {w v : Word} {r s : List Char}

theorem kind_eq_string_iff (table : ReservedWords) (w : Word) :
    w.kind table = .string ↔ w.cls = .string := by
  have h := w.gives_kind table
  generalize w.cls = cls at *
  generalize w.kind table = kind at *
  cases h <;> simp

theorem kind_ne_eof : w.kind table ≠ .eof := by
  have h := w.gives_kind table
  generalize w.cls = cls at h
  generalize w.kind table = kind at *
  cases h <;> simp

/-- Of two words of one kind with a space after each, neither goes on where the other stops. -/
theorem text_inj (hkind : w.kind table = v.kind table)
    (h : w.text ++ ' ' :: r = v.text ++ ' ' :: s) : w.text = v.text ∧ r = s := by
  by_cases hw : w.cls = .string
  · have hv : v.cls = .string := by
      rwa [← kind_eq_string_iff table, ← hkind, kind_eq_string_iff]
    obtain ⟨a, ha, hwt⟩ := Lexeme.exists_body (hw ▸ w.isLexeme)
    obtain ⟨b, hb, hvt⟩ := Lexeme.exists_body (hv ▸ v.isLexeme)
    rw [hwt, hvt] at h ⊢
    simp only [List.cons_append, List.append_assoc, List.cons.injEq, true_and] at h
    obtain ⟨rfl, hrest⟩ := run_unique (Shape.bne_of_notMem ha) (Shape.bne_of_notMem hb)
      (by simp) (by simp) h
    simp only [List.nil_append, List.cons.injEq, true_and] at hrest
    exact ⟨rfl, hrest⟩
  · have hv : v.cls ≠ .string := by
      rwa [ne_eq, ← kind_eq_string_iff table, ← hkind, kind_eq_string_iff]
    have hws := Shape.bne_of_notMem (w.isLexeme.space_notMem hw w.counts)
    have hvs := Shape.bne_of_notMem (v.isLexeme.space_notMem hv v.counts)
    obtain ⟨htext, hrest⟩ := run_unique hws hvs (by simp) (by simp) h
    exact ⟨htext, (List.cons.inj hrest).2⟩

theorem content_of_text (h : w.text = v.text) : w.content table = v.content table := by
  have hcls : w.cls = v.cls := w.isLexeme.class_unique (h ▸ v.isLexeme)
  have hkind : w.kind table = v.kind table := by
    rw [← Option.some_inj, ← kind?_eq, ← kind?_eq, hcls, h]
  rw [content, content, hkind, hcls, h]

/-- **A line for a word is read in one way**, whatever comes after it. -/
theorem line_inj
    (h : Token.lineOf (w.content table) ++ r = Token.lineOf (v.content table) ++ s) :
    w.content table = v.content table ∧ r = s := by
  have hkind := Token.kind_of_line h
  have htext : w.text = v.text := by
    simp only [content] at hkind
    simp only [Token.lineOf, content, hkind, String.toList_ofList, List.append_assoc,
      List.append_cancel_left_eq, List.cons_append, List.cons.injEq, true_and] at h
    exact (text_inj hkind h).1
  have hcontent : w.content table = v.content table := content_of_text htext
  rw [hcontent, List.append_cancel_left_eq] at h
  exact ⟨hcontent, h⟩

end Word

/-! All lines -/

namespace Scan

/-- **The lines up to the one for the end are read in one way**, whatever comes after them. -/
theorem lines_inj (table : ReservedWords) {ws vs : List Word} {r s : List Char}
    (h : (ws.map (Word.content table) ++ [Token.endContent]).flatMap Token.lineOf ++ r =
      (vs.map (Word.content table) ++ [Token.endContent]).flatMap Token.lineOf ++ s) :
    ws.map (Word.content table) = vs.map (Word.content table) ∧ r = s := by
  induction ws generalizing vs with
  | nil =>
    cases vs with
    | nil => exact ⟨rfl, List.append_cancel_left h⟩
    | cons v vs =>
      rw [List.map_cons, List.cons_append, List.flatMap_cons, List.append_assoc] at h
      have hkind : .eof = v.kind table := Token.kind_of_line (x := Token.endContent) h
      exact absurd hkind.symm v.kind_ne_eof
  | cons w ws ih =>
    cases vs with
    | nil =>
      rw [List.map_cons, List.cons_append, List.flatMap_cons, List.append_assoc] at h
      have hkind : w.kind table = .eof := Token.kind_of_line (y := Token.endContent) h
      exact absurd hkind w.kind_ne_eof
    | cons v vs =>
      simp only [List.map_cons, List.cons_append, List.flatMap_cons, List.append_assoc] at h
      obtain ⟨hcontent, h⟩ := Word.line_inj h
      obtain ⟨hrest, hend⟩ := ih (by simpa using h)
      exact ⟨by rw [List.map_cons, List.map_cons, hcontent, hrest], hend⟩

end Scan

namespace Run

/-- The last lines tell whether anything is wrong. -/
theorem hasFaults_of_verdict {s t : Scan} (h : verdict s = verdict t) :
    s.hasFaults = t.hasFaults := by
  unfold verdict at h
  cases hs : s.hasFaults <;> cases ht : t.hasFaults <;> simp_all

/-- **What is printed for a file tells its tokens**: two files for which the same is
printed have the same kinds, lexemes and values, one by one, and the same exit code. -/
theorem content_of_stdout {log log' : Log} {files files' : Files} {input input' : List UInt8}
    {path path' a b : String} (ha : files.source path = .ok a) (hb : files'.source path' = .ok b)
    (h : (ofCommand log files input (.file .scan path)).stdout =
      (ofCommand log' files' input' (.file .scan path')).stdout) :
    (scan a).tokens.map Token.content = (scan b).tokens.map Token.content ∧
      (ofCommand log files input (.file .scan path)).exit =
        (ofCommand log' files' input' (.file .scan path')).exit := by
  rw [ofCommand_scan ha, ofCommand_scan hb] at h ⊢
  obtain ⟨ws, _, hws⟩ := Scan.exists_words_tokens .standard a.toList
  obtain ⟨vs, _, hvs⟩ := Scan.exists_words_tokens .standard b.toList
  have hlines := congrArg String.toList h
  rw [toList_stdout_scanned, toList_stdout_scanned, scan, scan, Scan.ofSource, Scan.ofSource,
    hws, hvs] at hlines
  obtain ⟨hcontent, hverdict⟩ := Scan.lines_inj .standard hlines
  constructor
  · rw [scan, scan, Scan.ofSource, Scan.ofSource, hws, hvs, hcontent]
  · show exitOf (scan a) = exitOf (scan b)
    have hfaults : (scan a).hasFaults = (scan b).hasFaults := hasFaults_of_verdict hverdict
    rw [exitOf, exitOf, hfaults]

def fileOf (bytes : List UInt8) : Files := fun _ => .ok bytes

/-- A string that looks like the last lines of all, in a file with a comment and in one
where it stands next to the number: the same is printed for both. -/
theorem content_of_stdout_forged :
    (scan "\"\nEOF  null\n\nSUCCESS!\n\"1.0").tokens.map Token.content =
        (scan "\"\nEOF  null\n\nSUCCESS!\n\" 1.0 // x\n").tokens.map Token.content ∧
      (ofCommand (fun _ => true)
          (fileOf (Text.encode "\"\nEOF  null\n\nSUCCESS!\n\"1.0".toList)) []
          (.file .scan "a.seq")).exit =
        (ofCommand (fun _ => false)
          (fileOf (Text.encode "\"\nEOF  null\n\nSUCCESS!\n\" 1.0 // x\n".toList)) []
          (.file .scan "b.seq")).exit :=
  content_of_stdout (Files.source_of_decode? rfl (Text.decode?_eq_some_iff.mpr rfl))
    (Files.source_of_decode? rfl (Text.decode?_eq_some_iff.mpr rfl)) (by decide +kernel)

end Run

end SeqScan
