import SeqScan.Text.Class
import SeqScan.Token.Spelling

/-
  Cutting a text into pieces.

  A piece is a non-empty stretch of the text with a shape: an operator, a
  string, a number, a name, a blank, a comment, or one of the two things that
  are wrong. The first character of what is left and what follows it decide
  the shape of the next piece and its length, and nothing before them matters.

    `Scanner::scan`, its loop         `Piece.pieces`
    `scan_token`, its match           `Shape.next`
    `scan_colon`, `add_with_equal`    `Operator.spelled?`, in `Shape.next`
    `skip_line_comment`               `Shape.run` up to a line feed
    `scan_string`                     `Shape.stringTail`
    `scan_number`                     `Shape.numberTail`
    `scan_name`                       `Shape.run` of `Text.isNameChar`

  `Cursor` takes the same decisions one character at a time.
-/

namespace SeqScan

/-- What a stretch of the text is. -/
inductive Shape where
  | operator (op : Operator)
  | string
  | number
  | name
  | blank
  | comment
  /-- A character that starts nothing. -/
  | unexpected
  /-- A string whose closing quote is missing. -/
  | unterminated
  deriving DecidableEq, Repr

/-- A stretch of the text: its shape and its characters, of which there is at
least one. -/
structure Piece where
  shape : Shape
  first : Char
  rest : List Char
  deriving DecidableEq, Repr

def Piece.text (p : Piece) : List Char := p.first :: p.rest

namespace Shape

/-! How far a piece goes -/

/-- How many characters of `cs` meet a condition before the first that does not. -/
def run (p : Char → Bool) (cs : List Char) : Nat := (cs.takeWhile p).length

/-- What follows the first digit of a number: more digits, and a point with
digits after it. A point without a digit after it is left alone. -/
def numberTail (cs : List Char) : Nat :=
  match cs.drop (run Char.isDigit cs) with
  | '.' :: d :: rest =>
    if d.isDigit then run Char.isDigit cs + 2 + run Char.isDigit rest else run Char.isDigit cs
  | _ => run Char.isDigit cs

/-- What follows an opening quote: everything up to the next quote and that
quote, or everything there is. -/
def stringTail (cs : List Char) : Shape × Nat :=
  match cs.dropWhile (· != '"') with
  | [] => (unterminated, cs.length)
  | _ :: _ => (string, run (· != '"') cs + 1)

/-- The piece that starts with `c` where `cs` follows: its shape, and how many
of `cs` belong to it. -/
def next (c : Char) (cs : List Char) : Shape × Nat :=
  if Text.isBlank c then (blank, 0)
  else if c = '"' then stringTail cs
  else if c.isDigit then (number, numberTail cs)
  else if Text.isNameStart c then (name, run Text.isNameChar cs)
  else if c = '/' ∧ cs.head? = some '/' then (comment, run (· != '\n') cs)
  else match Operator.spelled? (c :: cs) with
    | some (spelling, op) => (operator op, spelling.length - 1)
    | none => (unexpected, 0)

end Shape

namespace Piece

/-- The first piece of a text that starts with `c` and goes on with `cs`. -/
def front (c : Char) (cs : List Char) : Piece :=
  ⟨(Shape.next c cs).1, c, cs.take (Shape.next c cs).2⟩

/-- What is left of the text after its first piece. -/
def left (c : Char) (cs : List Char) : List Char := cs.drop (Shape.next c cs).2

def pieces : List Char → List Piece
  | [] => []
  | c :: cs => front c cs :: pieces (left c cs)
termination_by text => text.length
decreasing_by
  simp only [left, List.length_drop, List.length_cons]
  omega

@[simp] theorem pieces_nil : pieces [] = [] := by
  rw [pieces]

theorem pieces_cons (c : Char) (cs : List Char) :
    pieces (c :: cs) = front c cs :: pieces (left c cs) := by
  rw [pieces]

end Piece

end SeqScan
