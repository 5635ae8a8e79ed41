import SeqScan.Token.Kind

/-
  How operators are spelled.

  Every operator has one spelling, except the colon, which may be doubled. The
  spellings are tried in the order of the table, in which a spelling stands
  before all its own beginnings, so that the longest one is found. The matches on marks in
  `scan_token`, with `add_with_equal`, `scan_colon` and `colon_kind`, decide the same.

  What is proved:
    1. `ne_nil_of_mem_spellings`: no spelling is empty.
    2. `spellings_sorted`: no spelling in the table begins a later one.
    3. `isPrefix_of_spelled?`: what is found stands at the front of the text.
-/

namespace SeqScan

namespace Operator

/-- The spellings of the operators, longer ones before their beginnings. -/
def spellings : List (List Char × Operator) :=
  [([':', ':', '='], assignment), ([':', ':'], colon), ([':'], colon),
    (['.', '.'], rangeSeparator), (['.'], dot),
    (['!', '='], bangEqual), (['!'], bang),
    (['=', '='], equalEqual), (['='], equal),
    (['<', '='], lessEqual), (['<'], less),
    (['>', '='], greaterEqual), (['>'], greater),
    (['('], leftParen), ([')'], rightParen), (['{'], leftBrace), (['}'], rightBrace),
    ([','], comma), (['-'], minus), (['+'], plus), ([';'], semicolon), (['*'], star),
    (['|'], verticalLine), (['/'], slash)]

/-- The operator that a text begins with, and its spelling. -/
def spelled? (text : List Char) : Option (List Char × Operator) :=
  spellings.find? (fun entry => entry.1.isPrefixOf text)

theorem ne_nil_of_mem_spellings {entry : List Char × Operator} (h : entry ∈ spellings) :
    entry.1 ≠ [] := by
  have hall : ∀ e ∈ spellings, e.1 ≠ [] := by decide
  exact hall entry h

theorem spellings_sorted :
    spellings.Pairwise (fun early late => ¬ early.1.isPrefixOf late.1) := by
  decide

theorem mem_of_spelled? {text : List Char} {entry : List Char × Operator}
    (h : spelled? text = some entry) : entry ∈ spellings :=
  List.mem_of_find?_eq_some h

theorem isPrefix_of_spelled? {text : List Char} {entry : List Char × Operator}
    (h : spelled? text = some entry) : entry.1 <+: text := by
  simpa using List.find?_some h

end Operator

end SeqScan
