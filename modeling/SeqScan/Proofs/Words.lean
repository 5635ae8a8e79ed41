import SeqScan.Proofs.LongestMatch
import SeqScan.Proofs.Lookahead

/-
  Writing words and reading them back.

  A word is a lexeme that gives a token. Words that are written one after the
  other with blanks between them are read back as they are: each stops at the blank
  after it, be it a slash, a point, a colon or a string of any characters. And
  what a scan gives of any text at all is words, so that a scan, written down with
  single spaces, reads back as itself.

  What is proved:
    1. `Word.exists_cut`: a word is one piece, whatever blank comes after it.
    2. `Scan.contents_spaced`: words with blanks around them are read back.
    3. `Scan.exists_word`: every token of a scan but the last is a word.
    4. `readsBack_scan`: both, for every table of reserved words, and that a scan
       reads back as itself.
-/

namespace SeqScan

/-! Words -/

/-- The value of a lexeme, if its class gives one: of a string what stands between
its quotes, of a number the floating-point number nearest to it. -/
def LexemeClass.literal? (w : List Char) : LexemeClass → Option Literal
  | string => some (.string (String.ofList (w.drop 1).dropLast))
  | number => some (.number (Binary64.nearest (Decimal.read w)))
  | operator _ | name | blank | comment => none

/-- The kinds that a class of lexemes may give. Only names have more than one. -/
inductive LexemeClass.Gives : LexemeClass → TokenKind → Prop
  | operator {op : Operator} : Gives (.operator op) (.operator op)
  | string : Gives .string .string
  | number : Gives .number .number
  | reserveWord : Gives .name .reserveWord
  | identifier : Gives .name .identifier
  | typeReference : Gives .name .typeReference

/-- A lexeme that gives a token: any but blanks and comments. -/
structure Word where
  cls : LexemeClass
  text : List Char
  isLexeme : Lexeme cls text
  counts : cls ≠ .blank ∧ cls ≠ .comment

def Token.content (t : Token) : TokenKind × String × Option Literal :=
  (t.kind, t.lexeme, t.literal)

def Token.endContent : TokenKind × String × Option Literal := (.eof, "", none)

def Blanks (text : List Char) : Prop := ∀ c ∈ text, Text.isBlank c = true

theorem Blanks.nil : Blanks [] := by
  intro c hc
  cases hc

theorem Blanks.space : Blanks [' '] := by
  intro c hc
  rw [List.mem_singleton.mp hc]
  rfl

namespace Word

theorem isSome_kind? (w : Word) (table : ReservedWords) :
    (w.cls.kind? table w.text).isSome = true := by
  obtain ⟨cls, text, _, hblank, hcomment⟩ := w
  cases cls with
  | name =>
    simp only [LexemeClass.kind?]
    split
    · rfl
    · split <;> rfl
  | blank => exact absurd rfl hblank
  | comment => exact absurd rfl hcomment
  | _ => rfl

def kind (table : ReservedWords) (w : Word) : TokenKind :=
  (w.cls.kind? table w.text).get (w.isSome_kind? table)

theorem kind?_eq (w : Word) (table : ReservedWords) :
    w.cls.kind? table w.text = some (w.kind table) :=
  (Option.some_get _).symm

theorem gives_kind (w : Word) (table : ReservedWords) : w.cls.Gives (w.kind table) := by
  have hkind := w.kind?_eq table
  cases hc : w.cls <;> simp only [hc, LexemeClass.kind?, Option.some.injEq, reduceCtorEq] at hkind
  case name =>
    split at hkind
    · rw [← Option.some.inj hkind]
      exact .reserveWord
    · split at hkind
      · rw [← Option.some.inj hkind]
        exact .identifier
      · rw [← Option.some.inj hkind]
        exact .typeReference
  all_goals
    rw [← hkind]
    constructor

def content (table : ReservedWords) (w : Word) : TokenKind × String × Option Literal :=
  (w.kind table, String.ofList w.text, w.cls.literal? w.text)

/-- Words, each with the text that is written after it. -/
def spaced (ws : List (Word × List Char)) : List Char := ws.flatMap fun x => x.1.text ++ x.2

theorem shape_ne (w : Word) : w.cls.shape ≠ .unterminated ∧ w.cls.shape ≠ .comment := by
  have hcomment := w.counts.2
  cases hc : w.cls <;> simp [hc, LexemeClass.shape] at hcomment ⊢

/-- **A word is one piece**, at the end of a text and before any blank. -/
theorem exists_cut (w : Word) {rest : List Char}
    (hrest : ∀ c ∈ rest.head?, Text.isBlank c = true) :
    ∃ p, p.text = w.text ∧ p.shape = w.cls.shape ∧ Cut p rest := by
  have hlex := w.isLexeme
  cases ht : w.text with
  | nil => exact absurd ht hlex.ne_nil
  | cons c cs =>
    rw [ht] at hlex
    refine ⟨⟨w.cls.shape, c, cs⟩, rfl, rfl, ?_⟩
    cases rest with
    | nil => exact hlex.cut
    | cons d more =>
      exact hlex.cut.append_blank w.shape_ne.1 (hrest d rfl)
        (fun hs => absurd hs w.shape_ne.2) more

end Word

namespace Piece

theorem literal?_eq {p : Piece} {cls : LexemeClass} (hs : p.shape = cls.shape) :
    p.literal? = cls.literal? p.text := by
  cases cls <;> simp [literal?, hs, LexemeClass.shape, LexemeClass.literal?, text]

end Piece

theorem Placed.token?_of_word (w : Word) {p : Piece} (ht : p.text = w.text)
    (hs : p.shape = w.cls.shape) (table : ReservedWords) (pos : Position) :
    Placed.token? table ⟨p, pos⟩ = some ⟨w.kind table, String.ofList w.text,
      w.cls.literal? w.text, Placed.span ⟨p, pos⟩⟩ := by
  simp only [Placed.token?, Piece.kind?_eq hs, Piece.literal?_eq hs, Piece.lexeme, ht, w.kind?_eq,
    Option.map_some]

/-! Reading words back -/

namespace Scan

variable {table : ReservedWords}

theorem tokensFrom_blanks (table : ReservedWords) {text : List Char} (h : Blanks text)
    (pos : Position) (rest : List Char) :
    tokensFrom table pos (text ++ rest) = tokensFrom table (pos.after text) rest := by
  induction text generalizing pos with
  | nil => rfl
  | cons c text ih =>
    rw [List.cons_append, tokensFrom_blank table pos (h c List.mem_cons_self),
      ih fun d hd => h d (List.mem_cons_of_mem c hd)]
    rfl

theorem diagnosticsFrom_blanks {text : List Char} (h : Blanks text) (pos : Position)
    (rest : List Char) :
    diagnosticsFrom pos (text ++ rest) = diagnosticsFrom (pos.after text) rest := by
  induction text generalizing pos with
  | nil => rfl
  | cons c text ih =>
    rw [List.cons_append, diagnosticsFrom_blank pos (h c List.mem_cons_self),
      ih fun d hd => h d (List.mem_cons_of_mem c hd)]
    rfl

/-- From any place on, words with blanks after them are read back as they are. -/
theorem contents_spaced (table : ReservedWords) (ws : List (Word × List Char))
    (hblank : ∀ x ∈ ws, Blanks x.2) (hsep : ∀ x ∈ ws.dropLast, x.2 ≠ []) (pos : Position) :
    (tokensFrom table pos (Word.spaced ws)).map Token.content =
        ws.map (fun x => x.1.content table) ++ [Token.endContent] ∧
      diagnosticsFrom pos (Word.spaced ws) = [] := by
  induction ws generalizing pos with
  | nil =>
    rw [Word.spaced, List.flatMap_nil, tokensFrom_nil]
    exact ⟨rfl, diagnosticsFrom_nil pos⟩
  | cons x ws ih =>
    obtain ⟨w, sep⟩ := x
    have hseps : Blanks sep := hblank _ List.mem_cons_self
    have hsep' : ∀ y ∈ ws.dropLast, y.2 ≠ [] := by
      intro y hy
      cases ws with
      | nil => cases hy
      | cons z ws => exact hsep y (List.mem_cons_of_mem _ hy)
    have ih := ih (fun y hy => hblank y (List.mem_cons_of_mem _ hy)) hsep'
    have hhead : ∀ c ∈ (sep ++ Word.spaced ws).head?, Text.isBlank c = true := by
      intro c hc
      cases sep with
      | cons d sep =>
        obtain rfl : d = c := by simpa using hc
        exact hseps d List.mem_cons_self
      | nil =>
        -- only the last word may have no blank after it, and then nothing follows
        cases ws with
        | nil => cases hc
        | cons y ws => exact absurd rfl (hsep (w, []) List.mem_cons_self)
    obtain ⟨p, htext, hshape, hcut⟩ := w.exists_cut hhead
    have hspaced : Word.spaced ((w, sep) :: ws) = p.text ++ (sep ++ Word.spaced ws) := by
      rw [Word.spaced, List.flatMap_cons, htext, List.append_assoc]
      rfl
    rw [hspaced, tokensFrom_cut table pos hcut, diagnosticsFrom_cut pos hcut,
      Placed.token?_of_word w htext hshape,
      Placed.diagnostic?_of_no_fault (Piece.fault?_eq_none hshape),
      tokensFrom_blanks table hseps, diagnosticsFrom_blanks hseps, List.map_append, (ih _).1]
    exact ⟨rfl, (ih _).2⟩

theorem contents_written (table : ReservedWords) (lead : List Char)
    {ws : List (Word × List Char)} (hlead : Blanks lead)
    (hblank : ∀ x ∈ ws, Blanks x.2) (hsep : ∀ x ∈ ws.dropLast, x.2 ≠ []) :
    (ofChars table (lead ++ Word.spaced ws)).tokens.map Token.content =
        ws.map (fun x => x.1.content table) ++ [Token.endContent] ∧
      (ofChars table (lead ++ Word.spaced ws)).diagnostics = [] := by
  have htokens := tokensFrom_blanks table hlead .first (Word.spaced ws)
  have hdiagnostics := diagnosticsFrom_blanks hlead .first (Word.spaced ws)
  have h := contents_spaced table ws hblank hsep (Position.first.after lead)
  rw [← htokens, ← hdiagnostics] at h
  exact h

/-! A scan is made of words -/

/-- Every token of a scan but the last is a word. -/
theorem exists_word {text : List Char} {t : Token} (h : t ∈ (ofChars table text).tokens)
    (hkind : t.kind ≠ .eof) : ∃ w : Word, w.content table = t.content := by
  rcases mem_tokensFrom [] h with ⟨u, p, v, hcut, _, htok⟩ | rfl
  · obtain ⟨kind, hk, rfl⟩ := Option.map_eq_some_iff.mp htok
    rcases LexemeClass.exists_shape p.shape with ⟨cls, hs⟩ | hs | hs
    · have hcounts : cls ≠ .blank ∧ cls ≠ .comment := by
        constructor <;>
          · intro hc
            simp [Piece.kind?, hs, hc, LexemeClass.shape] at hk
      let w : Word := ⟨cls, p.text, hcut.lexeme hs, hcounts⟩
      have hwk := w.kind?_eq table
      rw [← Piece.kind?_eq hs, hk] at hwk
      refine ⟨w, ?_⟩
      rw [Word.content, ← Option.some.inj hwk, ← Piece.literal?_eq hs]
      rfl
    · simp [Piece.kind?, hs] at hk
    · simp [Piece.kind?, hs] at hk
  · exact absurd rfl hkind

theorem exists_words {ts : List Token}
    (h : ∀ t ∈ ts, ∃ w : Word, w.content table = t.content) :
    ∃ ws : List Word, ws.map (Word.content table) = ts.map Token.content := by
  induction ts with
  | nil => exact ⟨[], rfl⟩
  | cons t ts ih =>
    obtain ⟨w, hw⟩ := h t List.mem_cons_self
    obtain ⟨ws, hws⟩ := ih fun s hs => h s (List.mem_cons_of_mem t hs)
    exact ⟨w :: ws, by rw [List.map_cons, List.map_cons, hw, hws]⟩

theorem filter_tokens (table : ReservedWords) (text : List Char) :
    (ofChars table text).tokens.filter (·.kind ≠ .eof) =
      (Placed.ofText text).filterMap (Placed.token? table) := by
  have hkeep : ∀ t ∈ (Placed.ofText text).filterMap (Placed.token? table),
      decide (t.kind ≠ .eof) = true := by
    intro t ht
    obtain ⟨p, _, htok⟩ := List.mem_filterMap.mp ht
    exact decide_eq_true (start_lt_stop_of_token? htok).1
  rw [ofChars, List.filter_append, List.filter_eq_self.mpr hkeep]
  exact List.append_nil _

/-- The tokens of a scan that are not for the end. -/
def words (s : Scan) : List Token := s.tokens.filter (·.kind ≠ .eof)

theorem tokens_eq_words (table : ReservedWords) (text : List Char) :
    (ofChars table text).tokens =
      (ofChars table text).words ++ [Token.eof (Position.first.after text)] := by
  rw [words, filter_tokens, ofChars]

theorem exists_words_tokens (table : ReservedWords) (text : List Char) :
    ∃ ws : List Word,
      ws.map (Word.content table) =
        ((ofChars table text).tokens.filter (·.kind ≠ .eof)).map Token.content ∧
      (ofChars table text).tokens.map Token.content =
        ws.map (Word.content table) ++ [Token.endContent] := by
  have hwords : ∀ t ∈ (ofChars table text).tokens.filter (·.kind ≠ .eof),
      ∃ w : Word, w.content table = t.content := by
    intro t ht
    obtain ⟨hmem, hkind⟩ := List.mem_filter.mp ht
    exact exists_word hmem (of_decide_eq_true hkind)
  obtain ⟨ws, hws⟩ := exists_words hwords
  refine ⟨ws, hws, ?_⟩
  rw [hws, filter_tokens, ofChars, List.map_append]
  rfl

end Scan

/-! Single spaces -/

namespace Word

/-- Words with a single space after each, and `last` after the last. -/
def evenly (last : List Char) : List Word → List (Word × List Char)
  | [] => []
  | [w] => [(w, last)]
  | w :: v :: ws => (w, [' ']) :: evenly last (v :: ws)

theorem map_fst_evenly (last : List Char) (ws : List Word) :
    (evenly last ws).map Prod.fst = ws := by
  fun_induction evenly last ws with
  | case1 => rfl
  | case2 w => rfl
  | case3 w v ws ih => rw [List.map_cons, ih]

theorem blanks_evenly {last : List Char} (h : Blanks last) (ws : List Word) :
    ∀ x ∈ evenly last ws, Blanks x.2 := by
  fun_induction evenly last ws with
  | case1 => simp
  | case2 w => simpa using h
  | case3 w v ws ih =>
    intro x hx
    rcases List.mem_cons.mp hx with rfl | hx
    · exact Blanks.space
    · exact ih x hx

theorem ne_nil_evenly (last : List Char) (ws : List Word) :
    ∀ x ∈ (evenly last ws).dropLast, x.2 ≠ [] := by
  fun_induction evenly last ws with
  | case1 => simp
  | case2 w => simp
  | case3 w v ws ih =>
    have hne : evenly last (v :: ws) ≠ [] := by
      intro h
      have hmap := map_fst_evenly last (v :: ws)
      rw [h] at hmap
      cases hmap
    intro x hx
    rw [List.dropLast_cons_of_ne_nil hne] at hx
    rcases List.mem_cons.mp hx with rfl | hx
    · exact List.cons_ne_nil _ _
    · exact ih x hx

/-- Without the token for the end, single spaces stand between the words. -/
theorem spaced_evenly (ws : List Word) :
    spaced (evenly [] ws) = [' '].intercalate (ws.map text) := by
  induction ws with
  | nil => rfl
  | cons w ws ih =>
    cases ws with
    | nil => simp [spaced, evenly]
    | cons v ws =>
      rw [evenly, spaced, List.flatMap_cons, ← spaced, ih]
      simp

theorem spaced_evenly_space (ws : List Word) :
    spaced (evenly [' '] ws) = [' '].intercalate (ws.map text ++ [[]]) := by
  induction ws with
  | nil => rfl
  | cons w ws ih =>
    cases ws with
    | nil => simp [spaced, evenly]
    | cons v ws =>
      rw [evenly, spaced, List.flatMap_cons, ← spaced, ih]
      simp

end Word

namespace Scan

variable {table : ReservedWords}

theorem contents_evenly {last : List Char} (h : Blanks last) (ws : List Word) :
    (ofChars table (Word.spaced (Word.evenly last ws))).tokens.map Token.content =
        ws.map (Word.content table) ++ [Token.endContent] ∧
      (ofChars table (Word.spaced (Word.evenly last ws))).diagnostics = [] := by
  have hread := contents_written table [] Blanks.nil (Word.blanks_evenly h ws)
    (Word.ne_nil_evenly last ws)
  have hmap := congrArg (List.map (Word.content table)) (Word.map_fst_evenly last ws)
  rw [List.map_map] at hmap
  rw [← hmap]
  exact hread

theorem map_toList_lexeme {ts : List Token} {contents : List (TokenKind × String × Option Literal)}
    (h : ts.map Token.content = contents) :
    (ts.map Token.lexeme).map String.toList = contents.map fun x => x.2.1.toList := by
  rw [← h, List.map_map, List.map_map]
  rfl

theorem map_toList_content (ws : List Word) :
    (ws.map (Word.content table)).map (fun x => x.2.1.toList) = ws.map Word.text := by
  rw [List.map_map]
  apply List.map_congr_left
  intro w _
  exact String.toList_ofList

end Scan

/-- Words are read back as they were written, and every scan is made of words. -/
structure ReadsBack (table : ReservedWords) : Prop where
  /-- Words with blanks around them, and at least one between two, are read back:
  nothing is wrong, and there is one token for each word. -/
  written : ∀ (lead : List Char) (ws : List (Word × List Char)), Blanks lead →
    (∀ x ∈ ws, Blanks x.2) → (∀ x ∈ ws.dropLast, x.2 ≠ []) →
    (Scan.ofSource table (String.ofList (lead ++ Word.spaced ws))).tokens.map Token.content =
        ws.map (fun x => x.1.content table) ++ [Token.endContent] ∧
      (Scan.ofSource table (String.ofList (lead ++ Word.spaced ws))).diagnostics = []
  /-- Whatever the text, every token but the last is a word. -/
  words : ∀ (source : String), ∀ t ∈ (Scan.ofSource table source).tokens, t.kind ≠ .eof →
    ∃ w : Word, w.content table = t.content
  /-- The lexemes of a scan, with or without the empty one at the end, are read back
  if they are joined with single spaces. -/
  again : ∀ (source : String) (ts : List Token),
    ts = (Scan.ofSource table source).tokens ∨
      ts = (Scan.ofSource table source).tokens.filter (·.kind ≠ .eof) →
    (Scan.ofSource table (" ".intercalate (ts.map Token.lexeme))).tokens.map Token.content =
        (Scan.ofSource table source).tokens.map Token.content ∧
      (Scan.ofSource table (" ".intercalate (ts.map Token.lexeme))).diagnostics = []

/-- **Reading undoes writing**, for every table of reserved words. -/
theorem readsBack_scan (table : ReservedWords) : ReadsBack table where
  written := by
    intro lead ws hlead hblank hsep
    rw [Scan.ofSource, String.toList_ofList]
    exact Scan.contents_written table lead hlead hblank hsep
  words := fun source t ht hkind => Scan.exists_word ht hkind
  again := by
    intro source ts hts
    obtain ⟨ws, hws, hall⟩ := Scan.exists_words_tokens table source.toList
    -- it is enough that the joined lexemes are the words with single spaces
    suffices hjoined : ∃ last, Blanks last ∧
        (" ".intercalate (ts.map Token.lexeme)).toList = Word.spaced (Word.evenly last ws) by
      obtain ⟨last, hlast, htext⟩ := hjoined
      rw [Scan.ofSource, htext, Scan.ofSource, hall]
      exact Scan.contents_evenly hlast ws
    rw [String.toList_intercalate]
    rcases hts with rfl | rfl
    · have hlexemes := Scan.map_toList_lexeme hall
      rw [List.map_append, Scan.map_toList_content] at hlexemes
      refine ⟨[' '], Blanks.space, ?_⟩
      rw [Word.spaced_evenly_space, Scan.ofSource, hlexemes]
      rfl
    · have hlexemes := Scan.map_toList_lexeme hws.symm
      rw [Scan.map_toList_content] at hlexemes
      refine ⟨[], Blanks.nil, ?_⟩
      rw [Word.spaced_evenly, Scan.ofSource, hlexemes]
      rfl

end SeqScan
