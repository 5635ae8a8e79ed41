import SeqScan.Proofs.Lexeme

/-
  Scanning is taking the longest lexeme, again and again.

  `Lexed` describes the result of a scan with no scanner in it: at every point
  the longest lexeme of any class is taken; where none stands, an open string
  is a fault to the end of the text, and any other character is a fault alone.
  The relation says nothing of places and looks at no character twice.

  What is proved:
    1. `LongestAt.unique`: a text has one longest lexeme at its front, and that
       lexeme has one class, so `Lexed` leaves no choice (`Lexed.unique`).
    2. `Lexed.of_scan`: what a scan gives is `Lexed`.
    3. `lexed_iff_scan`: both together, the scan is the one result that `Lexed`
       allows, for every text and every table of reserved words.
-/

namespace SeqScan

/-! The longest lexeme -/

/-- `w`, of class `cls`, is the longest lexeme at the front of the text. -/
structure LongestAt (cls : LexemeClass) (w text : List Char) : Prop where
  lexeme : Lexeme cls w
  isPrefix : w <+: text
  longest : ∀ other v, Lexeme other v → v <+: text → v.length ≤ w.length

/-- The kind of the token for a lexeme, if its class gives one. A name is
reserved if the table lists it; otherwise it is an identifier if it starts with
a small letter, and a type if not. -/
def LexemeClass.kind? (table : ReservedWords) (w : List Char) : LexemeClass → Option TokenKind
  | operator op => some (.operator op)
  | string => some .string
  | number => some .number
  | name =>
    if String.ofList w ∈ table.entries.map Prod.fst then some .reserveWord
    else if w.head?.any (fun c => 'a' ≤ c ∧ c ≤ 'z') then some .identifier
    else some .typeReference
  | blank | comment => none

/-- The kinds and lexemes of the tokens of a text, and its faults, as the
longest lexemes give them. -/
inductive Lexed (table : ReservedWords) :
    List Char → List (TokenKind × String) → List Fault → Prop
  | eof : Lexed table [] [(.eof, "")] []
  | lexeme {cls : LexemeClass} {w text : List Char} {tokens : List (TokenKind × String)}
    {faults : List Fault} : LongestAt cls w text →
    Lexed table (text.drop w.length) tokens faults →
    Lexed table text (((cls.kind? table w).map (·, String.ofList w)).toList ++ tokens) faults
  | unterminated {body : List Char} {tokens : List (TokenKind × String)} {faults : List Fault} :
    NoLexeme ('"' :: body) → Lexed table [] tokens faults →
    Lexed table ('"' :: body) tokens (.unterminatedString :: faults)
  | unexpected {c : Char} {rest : List Char} {tokens : List (TokenKind × String)}
    {faults : List Fault} : c ≠ '"' → NoLexeme (c :: rest) → Lexed table rest tokens faults →
    Lexed table (c :: rest) tokens (.unexpectedCharacter c :: faults)

/-! No choice -/

namespace LongestAt

variable {cls other : LexemeClass} {v w text : List Char}

theorem unique (h : LongestAt cls w text) (h' : LongestAt other v text) :
    cls = other ∧ w = v := by
  have hlen : w.length = v.length :=
    Nat.le_antisymm (h'.longest cls w h.lexeme h.isPrefix)
      (h.longest other v h'.lexeme h'.isPrefix)
  have hw : w = v := by
    rw [List.prefix_iff_eq_take.mp h.isPrefix, List.prefix_iff_eq_take.mp h'.isPrefix, hlen]
  subst hw
  exact ⟨h.lexeme.class_unique h'.lexeme, rfl⟩

theorem not_nil (h : LongestAt cls w []) : False :=
  h.lexeme.ne_nil (List.prefix_nil.mp h.isPrefix)

theorem not_noLexeme (h : LongestAt cls w text) (hno : NoLexeme text) : False :=
  hno cls w h.lexeme h.isPrefix

end LongestAt

theorem Lexed.unique {table : ReservedWords} {text : List Char}
    {tokens tokens' : List (TokenKind × String)} {faults faults' : List Fault}
    (h : Lexed table text tokens faults) (h' : Lexed table text tokens' faults') :
    tokens = tokens' ∧ faults = faults' := by
  -- two different rules never meet: either a lexeme stands at the front or none does
  induction h generalizing tokens' faults' with
  | eof =>
    cases h' with
    | eof => exact ⟨rfl, rfl⟩
    | lexeme hw _ => exact hw.not_nil.elim
  | lexeme hw _ ih =>
    cases h' with
    | eof => exact hw.not_nil.elim
    | lexeme hv hrest =>
      obtain ⟨rfl, rfl⟩ := hw.unique hv
      obtain ⟨rfl, rfl⟩ := ih hrest
      exact ⟨rfl, rfl⟩
    | unterminated hno _ => exact (hw.not_noLexeme hno).elim
    | unexpected _ hno _ => exact (hw.not_noLexeme hno).elim
  | unterminated hno _ ih =>
    cases h' with
    | lexeme hw _ => exact (hw.not_noLexeme hno).elim
    | unterminated _ hrest =>
      obtain ⟨rfl, rfl⟩ := ih hrest
      exact ⟨rfl, rfl⟩
    | unexpected hq _ _ => exact absurd rfl hq
  | unexpected hq hno _ ih =>
    cases h' with
    | lexeme hw _ => exact (hw.not_noLexeme hno).elim
    | unterminated _ _ => exact absurd rfl hq
    | unexpected _ _ hrest =>
      obtain ⟨rfl, rfl⟩ := ih hrest
      exact ⟨rfl, rfl⟩

/-! What a scan gives -/

theorem Cut.longestAt {p : Piece} {rest : List Char} {cls : LexemeClass} (h : Cut p rest)
    (hs : p.shape = cls.shape) : LongestAt cls p.text (p.text ++ rest) where
  lexeme := h.lexeme hs
  isPrefix := List.prefix_append p.text rest
  longest := fun _ _ hv hp => h.length_le hv hp

namespace ReservedWords

theorem contains_iff_mem {table : ReservedWords} {word : String} :
    table.contains word = true ↔ word ∈ table.entries.map Prod.fst := by
  rw [contains_iff, List.mem_map]
  constructor
  · intro h
    obtain ⟨kind, hk⟩ := h
    exact ⟨(word, kind), get?_eq_some_iff.mp hk, rfl⟩
  · intro h
    obtain ⟨⟨key, kind⟩, hk, rfl⟩ := h
    exact ⟨kind, get?_eq_some_iff.mpr hk⟩

end ReservedWords

namespace Piece

theorem kind?_eq {p : Piece} {cls : LexemeClass} (hs : p.shape = cls.shape)
    (table : ReservedWords) : p.kind? table = cls.kind? table p.text := by
  cases cls with
  | name =>
    have hlower : p.text.head?.any (fun c => 'a' ≤ c ∧ c ≤ 'z') = p.first.isLower := by
      rw [text, List.head?_cons, Option.any_some, Bool.decide_and]
      rfl
    simp only [kind?, hs, LexemeClass.shape, LexemeClass.kind?, nameClass,
      ReservedWords.tokenKind_classify, lexeme, hlower, ReservedWords.contains_iff_mem]
    split
    · rfl
    · split <;> rfl
  | _ => simp [kind?, hs, LexemeClass.shape, LexemeClass.kind?]

theorem fault?_eq_none {p : Piece} {cls : LexemeClass} (hs : p.shape = cls.shape) :
    p.fault? = none := by
  cases cls <;> simp [fault?, hs, LexemeClass.shape]

end Piece

/-- **A scan takes the longest lexemes.** From any place on, what a scan gives
is what `Lexed` allows. -/
theorem Lexed.of_scan (table : ReservedWords) (pos : Position) (text : List Char) :
    Lexed table text ((Scan.tokensFrom table pos text).map (fun t => (t.kind, t.lexeme)))
      ((Scan.diagnosticsFrom pos text).map Diagnostic.fault) := by
  induction text using Piece.cut_induction generalizing pos with
  | nil => simpa [Token.eof] using Lexed.eof
  | cut p rest h ih =>
    have ih := ih (pos.after p.text)
    rw [Scan.tokensFrom_cut table pos h, Scan.diagnosticsFrom_cut pos h, List.map_append,
      List.map_append]
    -- a lexeme, an open string, or a character that starts nothing: one rule each
    rcases LexemeClass.exists_shape p.shape with ⟨cls, hs⟩ | hs | hs
    · have htok : (Placed.token? table ⟨p, pos⟩).toList.map (fun t => (t.kind, t.lexeme)) =
          ((cls.kind? table p.text).map (·, String.ofList p.text)).toList := by
        rw [Placed.token?, Piece.kind?_eq hs]
        cases cls.kind? table p.text <;> rfl
      rw [htok, Placed.diagnostic?_of_no_fault (Piece.fault?_eq_none hs)]
      refine .lexeme (h.longestAt hs) ?_
      rw [List.drop_left]
      exact ih
    · have hfault : p.fault? = some .unterminatedString := by simp [Piece.fault?, hs]
      have hno := h.noLexeme (.inl hs)
      obtain ⟨body, _, htext, rfl⟩ := h.of_unterminated hs
      rw [Placed.token?_of_fault hfault, Placed.diagnostic?_of_fault hfault]
      rw [List.append_nil] at hno ⊢
      rw [htext] at hno ih ⊢
      exact .unterminated hno ih
    · have hfault : p.fault? = some (.unexpectedCharacter p.first) := by simp [Piece.fault?, hs]
      have hno := h.noLexeme (.inr hs)
      obtain ⟨htext, hc⟩ := h.of_unexpected hs
      rw [Placed.token?_of_fault hfault, Placed.diagnostic?_of_fault hfault]
      rw [htext] at hno ih ⊢
      exact .unexpected (Text.class_of_not_isRecognised hc).2.1 hno ih

/-- **The scan is the one result that the longest lexemes allow**, for every
source and every table of reserved words. -/
theorem lexed_iff_scan (table : ReservedWords) (source : String)
    (tokens : List (TokenKind × String)) (faults : List Fault) :
    Lexed table source.toList tokens faults ↔
      tokens = (Scan.ofSource table source).tokens.map (fun t => (t.kind, t.lexeme)) ∧
      faults = (Scan.ofSource table source).diagnostics.map Diagnostic.fault := by
  have hscan := Lexed.of_scan table .first source.toList
  constructor
  · intro h
    exact h.unique hscan
  · intro h
    rw [h.1, h.2]
    exact hscan

end SeqScan
