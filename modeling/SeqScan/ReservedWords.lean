import SeqScan.Token.Kind

/-
  Tables of reserved words.

  A table holds words with their kinds, each word once. Words are looked up by
  their exact spelling. The standard table reserves every keyword in lower
  case, and `class` and the words of sequence definitions in upper case too.

    `Keywords`, `get`, `contains`                 `ReservedWords`, `get?`, `contains`
    `Keywords::len`, `is_empty`                   `ReservedWords.size`, `isEmpty`
    `Keywords::standard`, `global`                `ReservedWords.standard`
    `NameClass`, `token_kind`                     `NameClass`, `NameClass.tokenKind`
    `Scanner::classify`                           `ReservedWords.classify`

  What is proved:
    1. `contains_iff`: a word is contained if and only if it has a kind.
    2. `get?_eq_some_iff`: it has a kind if and only if the table pairs it with
       that kind.
    3. `tokenKind_classify`: the kind of the token of a name.
-/

namespace SeqScan

/-! What a name may be -/

/-- What a name is found to be. -/
inductive NameClass where
  | identifier
  | typeReference
  /-- A reserved word, with the kind that a table pairs with it. -/
  | reserved (kind : TokenKind)
  deriving DecidableEq, Repr

namespace NameClass

/-- The kind that the token of a name has. That of a reserved word does not show which
one it is. -/
def tokenKind : NameClass → TokenKind
  | identifier => .identifier
  | typeReference => .typeReference
  | reserved _ => .reserveWord

theorem tokenKind_cases (cls : NameClass) :
    cls.tokenKind = .reserveWord ∨ cls.tokenKind = .identifier ∨
      cls.tokenKind = .typeReference := by
  cases cls <;> simp [tokenKind]

end NameClass

/-! Tables -/

/-- A table of reserved words, in which no word occurs twice. -/
structure ReservedWords where
  entries : List (String × TokenKind)
  distinct : (entries.map Prod.fst).Nodup

namespace ReservedWords

/-- The kind of a word, if the table holds it. -/
def get? (table : ReservedWords) (word : String) : Option TokenKind := table.entries.lookup word

def contains (table : ReservedWords) (word : String) : Bool := (table.get? word).isSome

def size (table : ReservedWords) : Nat := table.entries.length

def isEmpty (table : ReservedWords) : Bool := table.entries.isEmpty

theorem lookup_eq_some_iff {entries : List (String × TokenKind)}
    (hdistinct : (entries.map Prod.fst).Nodup) {word : String} {kind : TokenKind} :
    entries.lookup word = some kind ↔ (word, kind) ∈ entries := by
  induction entries with
  | nil => simp
  | cons entry rest ih =>
    obtain ⟨key, value⟩ := entry
    simp only [List.map_cons, List.nodup_cons] at hdistinct
    have hfresh : ∀ v, (key, v) ∉ rest := fun v hmem =>
      hdistinct.1 (List.mem_map.2 ⟨(key, v), hmem, rfl⟩)
    by_cases heq : word = key
    · subst heq
      simp [hfresh, eq_comm]
    · have htest : (word == key) = false := beq_eq_false_iff_ne.2 heq
      simp only [List.lookup_cons, htest, ih hdistinct.2]
      simp [heq]

theorem get?_eq_some_iff {table : ReservedWords} {word : String} {kind : TokenKind} :
    table.get? word = some kind ↔ (word, kind) ∈ table.entries :=
  lookup_eq_some_iff table.distinct

theorem contains_iff {table : ReservedWords} {word : String} :
    table.contains word = true ↔ ∃ kind, table.get? word = some kind := by
  simp [contains, Option.isSome_iff_exists]

/-- What a name is, by its first character and all of it: reserved if the table holds it,
and if not, an identifier if it starts with a small letter. -/
def classify (table : ReservedWords) (first : Char) (word : String) : NameClass :=
  match table.get? word with
  | some kind => .reserved kind
  | none => if first.isLower then .identifier else .typeReference

theorem classify_of_get? {table : ReservedWords} {word : String} {kind : TokenKind}
    (h : table.get? word = some kind) (first : Char) :
    table.classify first word = .reserved kind := by
  rw [classify, h]

theorem classify_of_not_contains {table : ReservedWords} {word : String}
    (h : ¬ table.contains word = true) (first : Char) :
    table.classify first word = if first.isLower then .identifier else .typeReference := by
  rw [contains, Bool.not_eq_true, Option.isSome_eq_false_iff, Option.isNone_iff_eq_none] at h
  rw [classify, h]

theorem tokenKind_classify (table : ReservedWords) (first : Char) (word : String) :
    (table.classify first word).tokenKind =
      if table.contains word then .reserveWord
      else if first.isLower then .identifier
      else .typeReference := by
  by_cases hword : table.contains word = true
  · obtain ⟨kind, hkind⟩ := contains_iff.mp hword
    rw [classify_of_get? hkind, if_pos hword, NameClass.tokenKind]
  · rw [classify_of_not_contains hword, if_neg hword]
    split <;> rfl

theorem tokenKind_classify_eq_reserveWord_iff {table : ReservedWords} {word : String}
    (first : Char) :
    (table.classify first word).tokenKind = .reserveWord ↔ table.contains word = true := by
  rw [tokenKind_classify]
  split
  next hword => simp [hword]
  next hfree => split <;> simp [hfree]

/-! The standard table -/

/-- Whether a keyword is reserved in upper case as well. -/
def reservedInUpperCase : Keyword → Bool
  | .classWord | .tagsWord | .beginWord | .sequenceWord | .integerWord | .dateWord | .endWord =>
    true
  | _ => false

/-- The entries of one keyword. -/
def standardEntries (word : Keyword) : List (String × TokenKind) :=
  let upper := word.name
  let lower := String.ofList (upper.toList.map Char.toLower)
  if reservedInUpperCase word then [(lower, .keyword word), (upper, .keyword word)]
  else [(lower, .keyword word)]

/-- The reserved words of sequence definitions. -/
def standard : ReservedWords where
  entries := Keyword.all.flatMap standardEntries
  distinct := by decide +kernel

end ReservedWords

end SeqScan
