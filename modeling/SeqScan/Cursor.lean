import SeqScan.Event

/-
  A scan by a cursor.

  A cursor stands in a text that it reads by index. It knows where the piece under
  it starts and where it stands now, and it keeps the tokens, the diagnostics and the
  events so far.
  It sees the next two characters without moving, and a NUL in place of those that
  are not there, whether or not the text holds a NUL of its own. It moves on by one
  character at a time.

  Nothing here is taken for granted: to move on where no character is, to take a
  stretch of the text that ends before it starts or beyond the text, and to count
  below zero are traps, and a trap ends the walk. One step of a walk tests for the end,
  or takes the first character of a piece, or goes once through one of the loops within
  a piece.

    `Scanner`, its fields              `Cursor`; `start_line`, `start_column` in `start`
    `Scanner::scan`, one turn          `Walk.step` at `next`; after the last, `Cursor.finish`
    `scan_token`                       `Walk.step` at `first`, `Cursor.dispatch`
    `add_with_equal`, `colon_kind`     `Cursor.addWith`, `colonKind`
    `scan_colon`, `skip_line_comment`  `Cursor.stepColon`, `Cursor.stepComment`, a turn each
    `scan_string`                      `Cursor.stepString`
    `scan_number`, its two loops       `Cursor.stepDigits`, `Cursor.stepFraction`
    `scan_name`, `classify`            `Cursor.stepName`, `ReservedWords.classify`
    `add_literal`, `report`            `Cursor.add`, `Cursor.report`
    `lexeme`, `newline`, `advance`     `Cursor.lexeme`, `Cursor.newline`, `Cursor.advance`
    `match_char`, `is_at_end`          `Cursor.matchChar`, `Cursor.atEnd`
    `peek`, `peek_next`                `Cursor.peek`, `Cursor.peekNext`
-/

namespace SeqScan

/-- Why a walk cannot go on. -/
inductive Trap where
  /-- There is no character at that index. -/
  | noCharacter
  /-- The stretch ends before it starts, or beyond the text. -/
  | badStretch
  | belowZero
  deriving DecidableEq, Repr

/-- A place in a text, the place where the piece there starts, and what the text
before has given and told. -/
structure Cursor where
  start : Position
  here : Position
  tokens : List Token
  diagnostics : List Diagnostic
  events : List Event
  deriving DecidableEq, Repr

/-- What a walk is about to do. -/
inductive Control where
  /-- Begin the next piece, if there is one. -/
  | next
  /-- Take the first character of a piece. -/
  | first
  /-- Take that many more characters, all of the operator. -/
  | colon (op : Operator) (more : Nat)
  | comment
  | string
  /-- Take the digits of a number before its point. -/
  | digits
  /-- Take the digits after the point. -/
  | fraction
  /-- Take the rest of a name that starts with the character. -/
  | name (c : Char)
  | done
  deriving DecidableEq, Repr

/-- A cursor and what it is about to do. -/
structure Walk where
  control : Control
  cursor : Cursor
  deriving DecidableEq, Repr

/-- The operator that starts with a colon, by the two characters after the colon, and
how many of them belong to it. -/
def colonKind : Char → Char → Operator × Nat
  | ':', '=' => (.assignment, 2)
  | ':', _ => (.colon, 1)
  | _, _ => (.colon, 0)

def oneLess (n : Nat) : Except Trap Nat := if n = 0 then .error .belowZero else .ok (n - 1)

/-- The characters of a text from the index `i` up to the index `j`. -/
def stretch (text : List Char) (i j : Nat) : Except Trap (List Char) :=
  if i ≤ j ∧ j ≤ text.length then .ok ((text.take j).drop i) else .error .badStretch

namespace Cursor

section

variable (table : ReservedWords) (text : List Char) (k : Cursor)

/-! Looking and moving -/

/-- What is seen where nothing is. -/
def sentinel : Char := '\x00'

def peek : Char := text[k.here.offset]?.getD sentinel

def peekNext : Char := text[k.here.offset + 1]?.getD sentinel

def atEnd : Bool := text.length ≤ k.here.offset

/-- One character and one column on. -/
def onward : Cursor :=
  { k with here := ⟨k.here.offset + 1, k.here.line, k.here.column + 1⟩ }

/-- Take the next character, which callers know to be there. -/
def advance : Except Trap (Char × Cursor) :=
  match text[k.here.offset]? with
  | some c => .ok (c, k.onward)
  | none => .error .noCharacter

def newline : Cursor := { k with here := ⟨k.here.offset, k.here.line + 1, 1⟩ }

/-- Take the next character if it is the expected one. -/
def matchChar (expected : Char) : Except Trap (Bool × Cursor) :=
  if k.atEnd text || k.peek text != expected then .ok (false, k)
  else do
    let (_, k) ← k.advance text
    return (true, k)

/-- Let a piece start here. -/
def latch : Cursor := { k with start := k.here }

/-! Tokens and diagnostics -/

def lexeme : Except Trap (List Char) := stretch text k.start.offset k.here.offset

/-- Give a token for the piece, and go on. -/
def add (kind : TokenKind) (literal : Option Literal) : Except Trap Walk := do
  let w ← k.lexeme text
  let t : Token := ⟨kind, String.ofList w, literal,
    ⟨k.start.offset, k.here.offset, k.start.line, k.start.column⟩⟩
  return ⟨.next, { k with tokens := k.tokens ++ [t], events := k.events ++ [.token t] }⟩

def report (fault : Fault) : Walk :=
  let d : Diagnostic := ⟨fault, k.start.line, k.start.column⟩
  ⟨.next, { k with diagnostics := k.diagnostics ++ [d], events := k.events ++ [.diagnostic d] }⟩

/-- Give the token for the end of the text, and sum up. -/
def finish : Walk :=
  let tokens := k.tokens ++ [Token.eof k.here]
  ⟨.done, { k with
    tokens := tokens
    events := k.events ++ [.scanFinished tokens.length k.diagnostics.length k.here.line] }⟩

/-- Tell of a name that is a reserved word. -/
def tell (cls : NameClass) : Cursor :=
  { k with events := k.events ++ (cls.event? k.start.line).toList }

/-! The steps -/

/-- An operator that a second character may make another one. -/
def addWith (second : Char) (double single : Operator) : Except Trap Walk := do
  let (found, k) ← k.matchChar text second
  k.add text (.operator (if found then double else single)) none

/-- What the first character of a piece, which has been taken, makes of it. -/
def dispatch (c : Char) : Except Trap Walk :=
  match c with
  | '(' => k.add text (.operator .leftParen) none
  | ')' => k.add text (.operator .rightParen) none
  | '{' => k.add text (.operator .leftBrace) none
  | '}' => k.add text (.operator .rightBrace) none
  | ',' => k.add text (.operator .comma) none
  | '-' => k.add text (.operator .minus) none
  | '+' => k.add text (.operator .plus) none
  | ';' => k.add text (.operator .semicolon) none
  | '*' => k.add text (.operator .star) none
  | '|' => k.add text (.operator .verticalLine) none
  | '.' => k.addWith text '.' .rangeSeparator .dot
  | ':' =>
    let (op, more) := colonKind (k.peek text) (k.peekNext text)
    .ok ⟨.colon op more, k⟩
  | '!' => k.addWith text '=' .bangEqual .bang
  | '=' => k.addWith text '=' .equalEqual .equal
  | '<' => k.addWith text '=' .lessEqual .less
  | '>' => k.addWith text '=' .greaterEqual .greater
  | '/' => do
    let (found, k) ← k.matchChar text '/'
    if found then return ⟨.comment, k⟩ else k.add text (.operator .slash) none
  | ' ' | '\r' | '\t' => .ok ⟨.next, k⟩
  | '\n' => .ok ⟨.next, k.newline⟩
  | '"' => .ok ⟨.string, k⟩
  | c =>
    if c.isDigit then .ok ⟨.digits, k⟩
    else if Text.isNameStart c then .ok ⟨.name c, k⟩
    else .ok (k.report (.unexpectedCharacter c))

/-- A comment goes up to the next line feed. -/
def stepComment : Except Trap Walk :=
  if k.peek text ≠ '\n' ∧ ¬ k.atEnd text then do
    let (_, k) ← k.advance text
    return ⟨.comment, k⟩
  else .ok ⟨.next, k⟩

/-- A string goes up to the next quote, over any line feeds; its value stands between
its quotes. -/
def stepString : Except Trap Walk :=
  if k.peek text ≠ '"' ∧ ¬ k.atEnd text then do
    let (c, k) ← k.advance text
    return ⟨.string, if c = '\n' then k.newline else k⟩
  else if k.atEnd text then .ok (k.report .unterminatedString)
  else do
    let (_, k) ← k.advance text
    let stop ← oneLess k.here.offset
    let value ← stretch text (k.start.offset + 1) stop
    k.add text .string (some (.string (String.ofList value)))

def addNumber : Except Trap Walk := do
  let w ← k.lexeme text
  k.add text .number (some (.number (Binary64.nearest (Decimal.read w))))

/-- A number goes on after its digits only if there is a point with a digit after it. -/
def stepDigits : Except Trap Walk :=
  if (k.peek text).isDigit then do
    let (_, k) ← k.advance text
    return ⟨.digits, k⟩
  else if k.peek text = '.' ∧ (k.peekNext text).isDigit then do
    let (_, k) ← k.advance text
    return ⟨.fraction, k⟩
  else k.addNumber text

def stepFraction : Except Trap Walk :=
  if (k.peek text).isDigit then do
    let (_, k) ← k.advance text
    return ⟨.fraction, k⟩
  else k.addNumber text

def stepName (c : Char) : Except Trap Walk :=
  if Text.isNameChar (k.peek text) then do
    let (_, k) ← k.advance text
    return ⟨.name c, k⟩
  else do
    let w ← k.lexeme text
    let cls := table.classify c (String.ofList w)
    (k.tell cls).add text cls.tokenKind none

def stepColon (op : Operator) : Nat → Except Trap Walk
  | 0 => k.add text (.operator op) none
  | more + 1 => do
    let (_, k) ← k.advance text
    return ⟨.colon op more, k⟩

end

end Cursor

namespace Walk

/-- One step of a walk. A walk that is done stays as it is. -/
def step (table : ReservedWords) (text : List Char) (s : Walk) : Except Trap Walk :=
  match s.control with
  | .next => if s.cursor.atEnd text then .ok s.cursor.finish else .ok ⟨.first, s.cursor.latch⟩
  | .first => do
    let (c, k) ← s.cursor.advance text
    k.dispatch text c
  | .colon op more => s.cursor.stepColon text op more
  | .comment => s.cursor.stepComment text
  | .string => s.cursor.stepString text
  | .digits => s.cursor.stepDigits text
  | .fraction => s.cursor.stepFraction text
  | .name c => s.cursor.stepName table text c
  | .done => .ok s

def begin : Walk := ⟨.next, ⟨.first, .first, [], [], []⟩⟩

/-- A walk through the text after so many steps, or the trap that ended it. -/
def after (table : ReservedWords) (text : List Char) : Nat → Except Trap Walk
  | 0 => .ok begin
  | n + 1 => after table text n >>= step table text

end Walk

end SeqScan
