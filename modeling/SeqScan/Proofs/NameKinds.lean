import SeqScan.Proofs.Words

/-
  What a table of reserved words decides.

  A text is cut into pieces before the table is asked, and it is asked about the whole
  lexeme of a name and about nothing else. What it answers is never seen: a name it holds
  is a reserved word, whatever kind it pairs with it. So the scan with one table is the
  scan with another in which the names have new kinds, and two scans differ in the kinds of
  those names that one table holds and the other does not.

  What is proved:
    1. `tokens_under`: a scan with another table, token by token.
    2. `namedBy_scan`: the kind of each token of a scan, by its lexeme.
    3. `onlyNames_scan`: what two tables can make of one text.
-/

namespace SeqScan

/-! Names -/

/-- The table holds the word, with a kind of its own. -/
def ReservedWords.Holds (table : ReservedWords) (word : String) : Prop :=
  word ∈ table.entries.map Prod.fst

/-- The kind that a table gives a name. A name has a first character. -/
def ReservedWords.kindOf (table : ReservedWords) (name : String) : TokenKind :=
  (table.classify (name.toList.headD ' ') name).tokenKind

/-- The text starts with one of the letters from `a` to `z`. -/
def StartsSmall (text : String) : Prop := ∃ c ∈ text.toList.head?, 'a' ≤ c ∧ c ≤ 'z'

namespace Token

def IsName (t : Token) : Prop := Lexeme .name t.lexeme.toList

def HasNameKind (t : Token) : Prop :=
  t.kind = .reserveWord ∨ t.kind = .identifier ∨ t.kind = .typeReference

/-- The token with the kind that a table gives it. Only names ask for one. -/
def under (table : ReservedWords) (t : Token) : Token :=
  match t.kind with
  | .reserveWord | .identifier | .typeReference => { t with kind := table.kindOf t.lexeme }
  | _ => t

end Token

/-- The kinds of the tokens of a scan are those that a table gives their lexemes. -/
structure NamedBy (table : ReservedWords) (s : Scan) : Prop where
  /-- The kinds for names are those of names, and of nothing else. -/
  name : ∀ t ∈ s.tokens, t.HasNameKind ↔ t.IsName
  /-- It is reserved if the table holds all of it. -/
  reserved : ∀ t ∈ s.tokens, t.IsName → (t.kind = .reserveWord ↔ table.Holds t.lexeme)
  /-- If not, its first character decides. -/
  plain : ∀ t ∈ s.tokens, t.IsName → ¬ table.Holds t.lexeme →
    (StartsSmall t.lexeme → t.kind = .identifier) ∧
      (¬ StartsSmall t.lexeme → t.kind = .typeReference)
  /-- The kinds that tables pair with their words are given to no token. -/
  keyword : ∀ t ∈ s.tokens, ∀ word : Keyword, t.kind ≠ .keyword word

/-- Two scans differ in nothing but the kinds of names, and that only where one of two
tables holds the name and the other does not. -/
structure OnlyNames (first second : ReservedWords) (a b : Scan) : Prop where
  diagnostics : a.diagnostics = b.diagnostics
  length : a.tokens.length = b.tokens.length
  same : ∀ (i : Nat) (x y : Token), a.tokens[i]? = some x → b.tokens[i]? = some y →
    x.lexeme = y.lexeme ∧ x.literal = y.literal ∧ x.span = y.span
  kinds : ∀ (i : Nat) (x y : Token), a.tokens[i]? = some x → b.tokens[i]? = some y →
    (x.kind ≠ y.kind ↔ x.IsName ∧
      (first.Holds x.lexeme ∧ ¬ second.Holds x.lexeme ∨
        second.Holds x.lexeme ∧ ¬ first.Holds x.lexeme))
  /-- Each scan names its tokens by its own table. -/
  named : NamedBy first a ∧ NamedBy second b

namespace ReservedWords

variable {table : ReservedWords} {name : String}

theorem contains_iff_holds : table.contains name = true ↔ table.Holds name :=
  contains_iff_mem

theorem kindOf_eq_reserveWord_iff : table.kindOf name = .reserveWord ↔ table.Holds name := by
  rw [kindOf, tokenKind_classify_eq_reserveWord_iff, contains_iff_holds]

theorem kindOf_of_holds (h : table.Holds name) : table.kindOf name = .reserveWord :=
  kindOf_eq_reserveWord_iff.mpr h

theorem isLower_headD_iff : (name.toList.headD ' ').isLower = true ↔ StartsSmall name := by
  have hlower : ∀ c : Char, c.isLower = true ↔ 'a' ≤ c ∧ c ≤ 'z' := by
    intro c
    show (decide (c.val ≥ 'a'.val) && decide (c.val ≤ 'z'.val)) = true ↔ _
    rw [Bool.and_eq_true, decide_eq_true_iff, decide_eq_true_iff]
    exact Iff.rfl
  unfold StartsSmall
  cases name.toList with
  | nil =>
    have hspace : ' '.isLower = false := rfl
    simp [hspace]
  | cons c rest => simp [hlower]

theorem kindOf_of_not_holds (h : ¬ table.Holds name) :
    table.kindOf name =
      if (name.toList.headD ' ').isLower then .identifier else .typeReference := by
  rw [kindOf, tokenKind_classify, if_neg (fun hc => h (contains_iff_holds.mp hc))]

theorem kindOf_ne_iff {other : ReservedWords} :
    table.kindOf name ≠ other.kindOf name ↔
      table.Holds name ∧ ¬ other.Holds name ∨ other.Holds name ∧ ¬ table.Holds name := by
  by_cases h : table.Holds name
  · have hkind := kindOf_of_holds h
    by_cases h' : other.Holds name
    · rw [hkind, kindOf_of_holds h']
      simp [h, h']
    · have hne : other.kindOf name ≠ .reserveWord := mt kindOf_eq_reserveWord_iff.mp h'
      simp [hkind, h, h', Ne.symm hne]
  · by_cases h' : other.Holds name
    · have hne : table.kindOf name ≠ .reserveWord := mt kindOf_eq_reserveWord_iff.mp h
      simp [kindOf_of_holds h', h, h', hne]
    · rw [kindOf_of_not_holds h, kindOf_of_not_holds h']
      simp [h, h']

end ReservedWords

/-! One token -/

namespace Token

variable {table : ReservedWords}

theorem under_of_name {t : Token} (h : t.HasNameKind) :
    t.under table = { t with kind := table.kindOf t.lexeme } := by
  unfold under
  rcases h with h | h | h <;> rw [h]

theorem under_of_not_name {t : Token} (h : ¬ t.HasNameKind) : t.under table = t := by
  unfold under
  split
  · next hk => exact absurd (.inl hk) h
  · next hk => exact absurd (.inr (.inl hk)) h
  · next hk => exact absurd (.inr (.inr hk)) h
  · rfl

theorem under_fields (table : ReservedWords) (t : Token) :
    (t.under table).lexeme = t.lexeme ∧ (t.under table).literal = t.literal ∧
      (t.under table).span = t.span := by
  unfold under
  split <;> exact ⟨rfl, rfl, rfl⟩

end Token

theorem Piece.tokenKind_nameClass (table : ReservedWords) (p : Piece) :
    (p.nameClass table).tokenKind = table.kindOf p.lexeme := by
  rw [nameClass, ReservedWords.kindOf, lexeme, String.toList_ofList]
  rfl

/-- A piece gives a token with every table or with none, and only its kind may differ. -/
theorem Placed.token?_under (first second : ReservedWords) (p : Placed) :
    p.token? second = (p.token? first).map (Token.under second) := by
  cases hs : p.piece.shape with
  | name =>
    have hkind : ∀ table, p.token? table =
        some ⟨table.kindOf p.piece.lexeme, p.piece.lexeme, p.piece.literal?, p.span⟩ := by
      intro table
      simp only [token?, Piece.kind?, hs, Option.map_some, Piece.tokenKind_nameClass]
    have hname : Token.HasNameKind
        ⟨first.kindOf p.piece.lexeme, p.piece.lexeme, p.piece.literal?, p.span⟩ :=
      NameClass.tokenKind_cases _
    rw [hkind first, hkind second, Option.map_some, Token.under_of_name hname]
  | _ => simp [token?, Piece.kind?, hs, Token.under]

/-! All tokens -/

namespace Scan

variable {table : ReservedWords} {text : List Char} {t : Token}

/-- **A scan with another table** has the same tokens with the kinds of that table, from any
place on. -/
theorem tokensFrom_under (first second : ReservedWords) (pos : Position) (text : List Char) :
    tokensFrom second pos text = (tokensFrom first pos text).map (Token.under second) := by
  induction text using Piece.cut_induction generalizing pos with
  | nil =>
    rw [tokensFrom_nil, tokensFrom_nil]
    rfl
  | cut p rest h ih =>
    rw [tokensFrom_cut second pos h, tokensFrom_cut first pos h, ih, List.map_append,
      Placed.token?_under first second]
    cases Placed.token? first ⟨p, pos⟩ <;> rfl

theorem tokens_under (first second : ReservedWords) (text : List Char) :
    (ofChars second text).tokens = (ofChars first text).tokens.map (Token.under second) :=
  tokensFrom_under first second .first text

theorem under_of_mem_tokens (h : t ∈ (ofChars table text).tokens) : t.under table = t := by
  have hmap : (ofChars table text).tokens.map (Token.under table) =
      (ofChars table text).tokens.map id := by
    rw [← tokens_under, List.map_id]
  exact List.map_inj_left.mp hmap t h

theorem kind_of_mem_tokens (h : t ∈ (ofChars table text).tokens) (hname : t.HasNameKind) :
    t.kind = table.kindOf t.lexeme := by
  have hunder := under_of_mem_tokens h
  rw [Token.under_of_name hname] at hunder
  exact (congrArg Token.kind hunder).symm

theorem kind_of_word_iff (w : Word) (table : ReservedWords) :
    (w.kind table = .reserveWord ∨ w.kind table = .identifier ∨ w.kind table = .typeReference) ↔
      w.cls = .name := by
  have h := w.gives_kind table
  generalize w.cls = cls at *
  generalize w.kind table = kind at *
  cases h <;> simp

theorem hasNameKind_iff (h : t ∈ (ofChars table text).tokens) : t.HasNameKind ↔ t.IsName := by
  rw [tokens_eq_words, List.mem_append, List.mem_singleton] at h
  rcases h with h | rfl
  · obtain ⟨hmem, hkind⟩ := List.mem_filter.mp h
    obtain ⟨w, hw⟩ := exists_word hmem (of_decide_eq_true hkind)
    have hwkind : w.kind table = t.kind := congrArg Prod.fst hw
    have hwtext : w.text = t.lexeme.toList := by
      rw [← String.toList_ofList (l := w.text)]
      exact congrArg (fun x => x.2.1.toList) hw
    rw [Token.HasNameKind, ← hwkind, kind_of_word_iff, Token.IsName, ← hwtext]
    constructor
    · intro hc
      exact hc ▸ w.isLexeme
    · intro hname
      exact w.isLexeme.class_unique hname
  · -- the end of the text has no lexeme
    constructor
    · intro hname
      rcases hname with hk | hk | hk <;> cases hk
    · intro hname
      exact absurd rfl hname.ne_nil

theorem kind_ne_keyword (h : t ∈ (ofChars table text).tokens) (word : Keyword) :
    t.kind ≠ .keyword word := by
  intro hk
  rcases mem_tokensFrom [] h with ⟨u, p, v, _, _, htok⟩ | rfl
  · obtain ⟨kind, hkind, rfl⟩ := Option.map_eq_some_iff.mp htok
    obtain rfl : kind = .keyword word := hk
    rcases (p.nameClass table).tokenKind_cases with hname | hname | hname <;>
      cases hs : p.shape <;> simp [Piece.kind?, hs, hname] at hkind
  · cases hk

/-- **The kinds of a scan** are those that its table gives the lexemes. -/
theorem namedBy_scan (table : ReservedWords) (text : List Char) :
    NamedBy table (ofChars table text) where
  name := fun _ ht => hasNameKind_iff ht
  reserved := by
    intro t ht hname
    rw [kind_of_mem_tokens ht ((hasNameKind_iff ht).mpr hname)]
    exact ReservedWords.kindOf_eq_reserveWord_iff
  plain := by
    intro t ht hname hfree
    rw [kind_of_mem_tokens ht ((hasNameKind_iff ht).mpr hname),
      ReservedWords.kindOf_of_not_holds hfree]
    constructor
    · intro hsmall
      rw [if_pos (ReservedWords.isLower_headD_iff.mpr hsmall)]
    · intro hno
      rw [if_neg (mt ReservedWords.isLower_headD_iff.mp hno)]
  keyword := fun _ ht word => kind_ne_keyword ht word

/-- The kind of a token changes with the table if it is a name that one of the two
holds. -/
theorem kind_ne_kind_under (second : ReservedWords) (h : t ∈ (ofChars table text).tokens) :
    t.kind ≠ (t.under second).kind ↔ t.IsName ∧
      (table.Holds t.lexeme ∧ ¬ second.Holds t.lexeme ∨
        second.Holds t.lexeme ∧ ¬ table.Holds t.lexeme) := by
  rw [← hasNameKind_iff h]
  by_cases hname : t.HasNameKind
  · have hunder : (t.under second).kind = second.kindOf t.lexeme := by
      rw [Token.under_of_name hname]
    rw [hunder, kind_of_mem_tokens h hname, ReservedWords.kindOf_ne_iff]
    exact (and_iff_right hname).symm
  · rw [Token.under_of_not_name hname]
    simp [hname]

end Scan

/-- **A table of reserved words decides the kinds of names**, and nothing else in the scan of
any source. -/
theorem onlyNames_scan (first second : ReservedWords) (source : String) :
    OnlyNames first second (Scan.ofSource first source) (Scan.ofSource second source) := by
  have htokens := Scan.tokens_under first second source.toList
  -- what stands at an index of one scan, under the other table, stands there in the other
  have hindex : ∀ (i : Nat) (x y : Token), (Scan.ofSource first source).tokens[i]? = some x →
      (Scan.ofSource second source).tokens[i]? = some y → y = x.under second := by
    intro i x y hx hy
    rw [Scan.ofSource, htokens, List.getElem?_map] at hy
    rw [Scan.ofSource] at hx
    rw [hx] at hy
    exact (Option.some.inj hy).symm
  exact {
    diagnostics := rfl
    length := by
      rw [Scan.ofSource, Scan.ofSource, htokens, List.length_map]
    same := by
      intro i x y hx hy
      obtain ⟨hlexeme, hliteral, hspan⟩ := Token.under_fields second x
      rw [hindex i x y hx hy]
      exact ⟨hlexeme.symm, hliteral.symm, hspan.symm⟩
    kinds := by
      intro i x y hx hy
      rw [hindex i x y hx hy]
      exact Scan.kind_ne_kind_under second (List.mem_of_getElem? hx)
    named := ⟨Scan.namedBy_scan first source.toList, Scan.namedBy_scan second source.toList⟩ }

end SeqScan
