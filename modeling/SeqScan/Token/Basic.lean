import SeqScan.Binary64.Text
import SeqScan.Token.Kind

/-
  Tokens: a kind, the text it was made from, the value of a literal, and where
  it stands.

  A token is written as its kind, its text and its literal with a space
  between each, where `null` stands for no literal. Tokens are compared as
  their literals are: numbers by value, so that NaN differs from itself and the
  two zeros are equal, everything else field by field.

    `Literal`, `Token`, their `fmt`     `Literal.text`, `Token.text`
    `==`, derived for both              `Literal.equals`, `Token.equals`
-/

namespace SeqScan

/-! Literals -/

/-- The value of a number or of a string. -/
inductive Literal where
  | number (value : Binary64)
  | string (value : String)
  deriving DecidableEq, Repr

namespace Literal

/-- A literal as it is written: a string stands for itself, without quotes. -/
def text : Literal → String
  | number value => value.text
  | string value => value

/-- Equality of values. -/
def equals : Literal → Literal → Bool
  | number a, number b => a.equals b
  | string a, string b => a = b
  | _, _ => false

end Literal

/-! Tokens -/

/-- The characters from `start` up to `stop`, the first of which stands in the
given line and column. -/
structure Span where
  start : Nat
  stop : Nat
  line : Nat
  column : Nat
  deriving DecidableEq, Repr

/-- A token. Nothing ties its fields together here; scanning does. -/
structure Token where
  kind : TokenKind
  lexeme : String
  literal : Option Literal
  span : Span
  deriving DecidableEq, Repr

namespace Token

def literalText (t : Token) : String :=
  match t.literal with
  | some value => value.text
  | none => "null"

/-- A token as it is written. -/
def text (t : Token) : String :=
  t.kind.name ++ " " ++ t.lexeme ++ " " ++ t.literalText

/-- Equality of literals, where no literal equals no literal only. -/
def literalEquals : Option Literal → Option Literal → Bool
  | none, none => true
  | some a, some b => a.equals b
  | _, _ => false

/-- Equality of tokens, numbers by value. -/
def equals (a b : Token) : Bool :=
  a.kind = b.kind && a.lexeme = b.lexeme && literalEquals a.literal b.literal && a.span = b.span

end Token

end SeqScan
