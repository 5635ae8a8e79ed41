import SeqScan.Proofs.Words

/-
  Two texts whose pieces go together.

  When a text is changed and its tokens are not, its pieces stay in step with those of the
  text before. Each has a partner, which gives the same but for what the change explains, or
  it is a blank or a comment that has gone. A scan of the changed text is then the scan of
  the other one, read through the change.

  What is proved:
    1. `Rewrites.token?`: a piece with its characters changed gives the token with its text
       changed.
    2. `Paired.wordsFrom_eq`, `Paired.diagnosticsFrom_eq`: texts in step give tokens and
       diagnostics in step.
-/

namespace SeqScan

/-! Tokens with their text changed -/

/-- A literal with its text changed. A number has none. -/
def Literal.onText (f : String → String) : Literal → Literal
  | number value => number value
  | string value => string (f value)

/-- A token with its text changed: its lexeme, and its literal if that is a string. -/
def Token.onText (f : String → String) (t : Token) : Token :=
  { t with lexeme := f t.lexeme, literal := t.literal.map (Literal.onText f) }

/-- The second piece gives the token of the first with its text changed by `f`. Pieces that
give none may differ as they like. -/
structure Rewrites (f : String → String) (p p' : Piece) : Prop where
  kind : ∀ table, p'.kind? table = p.kind? table
  lexeme : ∀ table, p.kind? table ≠ none → p'.lexeme = f p.lexeme
  literal : p'.literal? = p.literal?.map (Literal.onText f)

namespace Rewrites

variable {f : String → String} {p p' : Piece}

theorem unchanged (p : Piece) : Rewrites id p p where
  kind table := rfl
  lexeme table h := rfl
  literal := by
    cases p.literal? with
    | none => simp
    | some value => cases value <;> simp [Literal.onText]

theorem same (hs : p.shape ≠ .string) (hf : f p.lexeme = p.lexeme) : Rewrites f p p where
  kind table := rfl
  lexeme table h := hf.symm
  literal := by
    cases h : p.shape <;> simp_all [Piece.literal?, Literal.onText]

theorem string {body body' : List Char} (hf : f (String.ofList body) = String.ofList body')
    (hq : f (Piece.lexeme ⟨.string, '"', body ++ ['"']⟩) =
      Piece.lexeme ⟨.string, '"', body' ++ ['"']⟩) :
    Rewrites f ⟨.string, '"', body ++ ['"']⟩ ⟨.string, '"', body' ++ ['"']⟩ where
  kind table := rfl
  lexeme table h := hq.symm
  literal := by simp [Piece.literal?, Literal.onText, hf]

theorem silent (hs : p'.shape = p.shape) (hk : ∀ table, p.kind? table = none) :
    Rewrites f p p' := by
  have hnone := hk .standard
  refine ⟨fun table => ?_, fun table h => absurd (hk table) h, ?_⟩
  · cases h : p.shape <;> simp_all [Piece.kind?]
  · cases h : p.shape <;> simp_all [Piece.kind?, Piece.literal?]

theorem token? (h : Rewrites f p p') (table : ReservedWords) (q q' : Position) :
    Placed.token? table ⟨p', q'⟩ = (Placed.token? table ⟨p, q⟩).map fun t =>
      { t.onText f with span := Placed.span ⟨p', q'⟩ } := by
  unfold Placed.token?
  rw [h.kind table, h.literal]
  cases hk : p.kind? table with
  | none => simp
  | some kind => simp [Token.onText, h.lexeme table (by simp [hk])]

end Rewrites

/-! Texts in step -/

namespace Scan

/-- The tokens of a text that starts in the place `pos`, but for the one for its end. -/
def wordsFrom (table : ReservedWords) (pos : Position) (text : List Char) : List Token :=
  (Placed.place pos (Piece.pieces text)).filterMap (Placed.token? table)

theorem wordsFrom_nil (table : ReservedWords) (pos : Position) : wordsFrom table pos [] = [] := by
  simp [wordsFrom, Placed.place]

theorem wordsFrom_cut (table : ReservedWords) (pos : Position) {p : Piece} {rest : List Char}
    (h : Cut p rest) : wordsFrom table pos (p.text ++ rest) =
      (Placed.token? table ⟨p, pos⟩).toList ++ wordsFrom table (pos.after p.text) rest := by
  unfold wordsFrom
  rw [Piece.pieces_cut h, Placed.place, List.filterMap_cons]
  cases Placed.token? table ⟨p, pos⟩ <;> simp

theorem words_ofChars (table : ReservedWords) (text : List Char) :
    (ofChars table text).words = wordsFrom table .first text :=
  filter_tokens table text

end Scan

/-- The pieces of `text` from the place `q` on and those of `text'` from `q'` on go together:
two that are partners give the same token, changed by the function, and the same diagnostic,
and one of `text` without a partner is a blank or a comment. -/
inductive Paired (table : ReservedWords) (onToken : Token → Token) :
    Position → List Char → Position → List Char → Prop
  | nil {q q' : Position} : Paired table onToken q [] q' []
  | both {q q' : Position} {p p' : Piece} {rest rest' : List Char} :
    Cut p rest → Cut p' rest' →
    Placed.token? table ⟨p', q'⟩ = (Placed.token? table ⟨p, q⟩).map onToken →
    Placed.diagnostic? ⟨p', q'⟩ = Placed.diagnostic? ⟨p, q⟩ →
    Paired table onToken (q.after p.text) rest (q'.after p'.text) rest' →
    Paired table onToken q (p.text ++ rest) q' (p'.text ++ rest')
  | alone {q q' : Position} {p : Piece} {rest text' : List Char} :
    Cut p rest → p.shape = .blank ∨ p.shape = .comment →
    Paired table onToken (q.after p.text) rest q' text' →
    Paired table onToken q (p.text ++ rest) q' text'

theorem Placed.silent {p : Piece} (h : p.shape = .blank ∨ p.shape = .comment)
    (table : ReservedWords) (q : Position) :
    token? table ⟨p, q⟩ = none ∧ diagnostic? ⟨p, q⟩ = none := by
  rcases h with h | h <;> simp [token?, diagnostic?, Piece.kind?, Piece.fault?, h]

namespace Paired

variable {table : ReservedWords} {onToken : Token → Token} {q q' : Position}
  {text text' : List Char}

theorem wordsFrom_eq (h : Paired table onToken q text q' text') :
    Scan.wordsFrom table q' text' = (Scan.wordsFrom table q text).map onToken := by
  induction h with
  | nil => simp [Scan.wordsFrom_nil]
  | both hcut hcut' htoken hdiagnostic _ ih =>
    rw [Scan.wordsFrom_cut table _ hcut, Scan.wordsFrom_cut table _ hcut', ih, htoken,
      List.map_append]
    cases Placed.token? table _ <;> simp
  | alone hcut hs _ ih =>
    rw [Scan.wordsFrom_cut table _ hcut, (Placed.silent hs table _).1, ih]
    simp

theorem diagnosticsFrom_eq (h : Paired table onToken q text q' text') :
    Scan.diagnosticsFrom q' text' = Scan.diagnosticsFrom q text := by
  induction h with
  | nil => simp
  | both hcut hcut' htoken hdiagnostic _ ih =>
    rw [Scan.diagnosticsFrom_cut _ hcut, Scan.diagnosticsFrom_cut _ hcut', ih, hdiagnostic]
  | alone hcut hs _ ih =>
    rw [Scan.diagnosticsFrom_cut _ hcut, (Placed.silent hs table _).2, ih]
    simp

end Paired

end SeqScan
