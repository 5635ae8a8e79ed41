import SeqScan.Proofs.Erased

/-
  A text without the carriage returns at the ends of its lines.

  A carriage return is a blank in code, and a character like any other in a comment or in a
  string. Where a line feed follows it, it is in no other piece, and nothing that stays is
  on its line after it. So without these carriage returns a text is scanned as it was: the
  tokens are in their lines and columns, the one for the end too, and only strings over
  several lines have lost something, the same that the text has lost there.

  Of several carriage returns before a line feed only the last one goes.

  What is proved:
    1. `Erasure.kept_returns`: what goes from a text does not depend on the mode, nor on what
       follows the text, unless that is a line feed.
    2. `harmless_returns`: blanks, comments and strings lose these carriage returns and stay
       what they are, and no other piece has any.
    3. `unreturned_scan`: the whole law, for every source and every table.
-/

namespace SeqScan

/-- Taking out every carriage return just before a line feed. -/
def Erasure.returns : Erasure where
  goes _ text := text.take 2 = ['\r', '\n']
  to_end m c cs h := by
    obtain ⟨rfl, hcs⟩ : c = '\r' ∧ cs.take 1 = ['\n'] := by simpa using h
    refine ⟨by decide, .inl ?_⟩
    cases cs with
    | nil => simp
    | cons d cs => simpa using hcs

/-- A scan of a source without the carriage returns at the ends of its lines. -/
structure Unreturned (table : ReservedWords) (source : String) : Prop where
  /-- The tokens are the same, the one for the end among them, but that lexemes and strings
  have lost these carriage returns too, and offsets are less by their number before. -/
  tokens : (Scan.ofSource table (Erasure.returns.apply source)).tokens =
    (Scan.ofSource table source).tokens.map fun t =>
      { t with
        lexeme := Erasure.returns.apply t.lexeme
        literal := t.literal.map (Literal.onText Erasure.returns.apply)
        span := Erasure.returns.span source.toList t.span }
  diagnostics : (Scan.ofSource table (Erasure.returns.apply source)).diagnostics =
    (Scan.ofSource table source).diagnostics

namespace Erasure

/-! Characters that stay -/

variable {m : Mode} {p : Piece} {c : Char} {w rest : List Char}

theorem goes_returns_iff : returns.goes m (c :: rest) = true ↔
    c = '\r' ∧ rest.head? = some '\n' := by
  cases rest <;> simp [returns]

theorem stays_of_ne (hc : c ≠ '\r') (rest : List Char) :
    returns.goes m (c :: rest) = false := by
  rw [← Bool.not_eq_true, goes_returns_iff]
  exact fun h => hc h.1

/-- What goes depends neither on the mode nor on what follows, unless that is a line feed. -/
theorem kept_returns (m : Mode) (w : List Char) (h : rest.head? ≠ some '\n') :
    returns.kept m w rest = returns.erase w := by
  rw [erase_eq]
  generalize Mode.code = n
  induction w generalizing m n with
  | nil => rfl
  | cons c w ih =>
    have hgoes : returns.goes m (c :: (w ++ rest)) = returns.goes n (c :: (w ++ [])) := by
      cases w with
      | nil =>
        rw [Bool.eq_iff_iff, goes_returns_iff, goes_returns_iff]
        simp [h]
      | cons d w => rfl
    simp only [kept, hgoes, ih (m.step c) (n.step c)]

theorem kept_of_notMem (h : '\r' ∉ w) (m : Mode) (rest : List Char) :
    returns.kept m w rest = w := by
  induction w generalizing m with
  | nil => rfl
  | cons c w ih =>
    simp only [List.mem_cons, not_or] at h
    rw [kept_cons_of_stays (stays_of_ne (Ne.symm h.1) _), ih h.2]

theorem apply_of_notMem (h : '\r' ∉ w) :
    returns.apply (String.ofList w) = String.ofList w := by
  rw [apply, String.toList_ofList, erase_eq, kept_of_notMem h]

theorem erase_quoted (body : List Char) :
    returns.erase ('"' :: (body ++ ['"'])) = '"' :: (returns.erase body ++ ['"']) := by
  rw [erase_eq, kept_cons_of_stays (stays_of_ne (by decide) _), kept_append,
    kept_returns _ body (by simp), kept_of_notMem (by simp)]

end Erasure

/-! One piece -/

theorem Cut.return_notMem {p : Piece} {rest : List Char} (h : Cut p rest)
    (hs : p.shape = .number ∨ p.shape = .name ∨ ∃ op, p.shape = .operator op) :
    '\r' ∉ p.text := by
  intro hr
  rcases h.solid hs '\r' hr with hname | hmark
  · exact absurd hname (by decide)
  · exact absurd hmark (by decide)

namespace Erasure

variable {m : Mode} {p : Piece} {rest : List Char}

theorem solid_returns (hcut : Cut p rest)
    (hs : p.shape = .number ∨ p.shape = .name ∨ ∃ op, p.shape = .operator op) :
    Cut (returns.piece m p rest) rest ∧ Rewrites returns.apply p (returns.piece m p rest) := by
  have hnone := hcut.return_notMem hs
  have hpiece : returns.piece m p rest = p := by
    rw [piece, kept_of_notMem (fun h => hnone (List.mem_cons_of_mem _ h))]
  rw [hpiece]
  refine ⟨hcut, .same ?_ (apply_of_notMem hnone)⟩
  rcases hs with hs | hs | ⟨op, hs⟩ <;> simp [hs]

/-- A string is one still, and its value loses the carriage returns that it loses itself. -/
theorem string_returns {body : List Char} (hb : '"' ∉ body) :
    Cut (returns.piece m ⟨.string, '"', body ++ ['"']⟩ rest) rest ∧
      Rewrites returns.apply ⟨.string, '"', body ++ ['"']⟩
        (returns.piece m ⟨.string, '"', body ++ ['"']⟩ rest) := by
  -- the body is erased by itself, because the quote after it is no line feed
  have hpiece : returns.piece m ⟨.string, '"', body ++ ['"']⟩ rest =
      ⟨.string, '"', returns.erase body ++ ['"']⟩ := by
    rw [piece, kept_append, kept_returns _ body (by simp), kept_of_notMem (by simp)]
  have hquote : '"' ∉ returns.erase body := by
    rw [erase_eq]
    exact fun h => hb ((kept_sublist _ _ _ _).subset h)
  rw [hpiece]
  refine ⟨.string hquote, .string (by simp [apply]) ?_⟩
  simp [apply, Piece.lexeme, Piece.text, erase_quoted]

/-- **Carriage returns at the ends of lines** go from blanks, comments and strings, and these
are then what they were. -/
theorem harmless_returns : returns.Harmless returns.apply where
  goes {m p rest} hcut hr hgoes := by
    have hb : Text.isBlank p.first = true := by
      rw [(goes_returns_iff.mp hgoes).1]
      decide
    obtain ⟨hs, hrest⟩ := hcut.of_isBlank hb
    refine ⟨.inl hs, ?_⟩
    rw [Piece.text] at hgoes ⊢
    rw [kept_cons_of_goes hgoes, hrest, kept_nil]
  stays {m p rest} hcut hr hstays := by
    cases hcut with
    | blank hc => exact ⟨.blank hc, .silent rfl fun table => rfl⟩
    | string hb => exact string_returns hb
    | unterminated hb =>
      have hquote := fun h => hb ((kept_sublist returns (m.step '"') _ []).subset h)
      exact ⟨.unterminated hquote, .silent rfl fun table => rfl⟩
    | whole hc hd hr hp => exact solid_returns (.whole hc hd hr hp) (by simp)
    | fraction hc hd hf hfs hr => exact solid_returns (.fraction hc hd hf hfs hr) (by simp)
    | name hc hd hr => exact solid_returns (.name hc hd hr) (by simp)
    | @comment body rest hb hr =>
      have hpiece : returns.piece m ⟨.comment, '/', '/' :: body⟩ rest =
          ⟨.comment, '/', '/' :: returns.kept ((m.step '/').step '/') body rest⟩ := by
        rw [piece, kept_cons_of_stays (stays_of_ne (by decide) _)]
      have hline := fun h => hb ((kept_sublist returns ((m.step '/').step '/') _ rest).subset h)
      rw [hpiece]
      exact ⟨.comment hline hr, .silent rfl fun table => rfl⟩
    | operator hw hr => exact solid_returns (.operator hw hr) (by simp)
    | unexpected hc => exact ⟨.unexpected hc, .silent rfl fun table => rfl⟩

/-- The end of a text is no line feed, so what has gone does not stand just before it. -/
theorem eof_returns (text : List Char) :
    Token.eof (Position.first.after (returns.erase text)) =
      returns.token returns.apply text (Token.eof (Position.first.after text)) := by
  obtain ⟨hline, hcolumn⟩ := returns.place_kept text []
  have hcolumn : (Position.first.after (returns.kept .code text [])).column =
      (Position.first.after text).column := by
    rcases hcolumn with hsame | ⟨b, c, rfl, hc⟩
    · exact hsame
    · simp [goes_returns_iff] at hc
  have hlength := returns.length_kept text []
  rw [List.append_nil] at hlength
  have hoffset : (returns.kept .code text []).length =
      text.length - returns.countBefore text text.length := by omega
  have hfirst : Position.first.offset = 0 := rfl
  simp [Token.eof, token, Token.onText, span, erase_eq, Position.offset_after, hfirst, hline,
    hcolumn, hoffset, apply]

end Erasure

/-- **Line ends do not matter**: a source in which lines end with a carriage return and a line
feed is scanned like the one where they end with a line feed, for every source and every table
of reserved words. -/
theorem unreturned_scan (table : ReservedWords) (source : String) :
    Unreturned table source where
  tokens := by
    have hwords := Erasure.harmless_returns.words_erase table source.toList
    have heof := Erasure.eof_returns source.toList
    rw [Scan.ofSource, Scan.ofSource, Erasure.apply, String.toList_ofList, Scan.tokens_eq_words,
      Scan.tokens_eq_words, hwords, heof, ← List.map_singleton, ← List.map_append]
    rfl
  diagnostics := by
    rw [Scan.ofSource, Erasure.apply, String.toList_ofList]
    exact Erasure.harmless_returns.diagnostics_erase table source.toList

example : Erasure.returns.apply "a\r\n\r\r\n\"\r\n\r\"//\r" = "a\n\r\n\"\n\r\"//\r" := by
  decide +kernel

end SeqScan
