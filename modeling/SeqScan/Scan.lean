import SeqScan.Diagnostic
import SeqScan.ReservedWords
import SeqScan.Piece
import SeqScan.Position
import SeqScan.Token.Basic

/-
  Scanning: the tokens of a text and what is wrong with it.

  The text is cut into pieces, each piece is given the place where it starts,
  and tokens and diagnostics are read off the placed pieces. Blanks and
  comments give neither. A scan never fails: what is wrong is reported and
  skipped. The table of reserved words is asked for the kind of a name and for
  nothing else.

    `Scanner::with_keywords`, `scan`             `Scan.ofSource`
    `Scanner::new`, `tokenize`                   `scan`, with the standard table
    `ScanOutput`, `has_errors`                   `Scan`, `Scan.hasFaults`
    `scan_name`, `classify`                      `Piece.nameClass`
    the values of `scan_string`, `scan_number`   `Piece.literal?`
    `add_token`, `add_literal`                   `Placed.token?`
    `report`                                     `Placed.diagnostic?`

  What is proved:
    1. `kind?_eq_none_of_fault?`: a piece is not both a token and a fault.
    2. `getLast?_tokens`: a scan ends with the token for the end of the text.
-/

namespace SeqScan

/-! What a piece stands for -/

namespace Piece

def lexeme (p : Piece) : String := String.ofList p.text

/-- What a table makes of a piece that is a name. -/
def nameClass (table : ReservedWords) (p : Piece) : NameClass := table.classify p.first p.lexeme

/-- The kind of the token for a piece, if there is one. -/
def kind? (table : ReservedWords) (p : Piece) : Option TokenKind :=
  match p.shape with
  | .operator op => some (.operator op)
  | .string => some .string
  | .number => some .number
  | .name => some (p.nameClass table).tokenKind
  | .blank | .comment | .unexpected | .unterminated => none

/-- The value of a piece: of a string what stands between its quotes, of a
number the floating-point number nearest to it. -/
def literal? (p : Piece) : Option Literal :=
  match p.shape with
  | .string => some (.string (String.ofList p.rest.dropLast))
  | .number => some (.number (Binary64.nearest (Decimal.read p.text)))
  | _ => none

/-- What is wrong with a piece, if anything is. -/
def fault? (p : Piece) : Option Fault :=
  match p.shape with
  | .unexpected => some (.unexpectedCharacter p.first)
  | .unterminated => some .unterminatedString
  | _ => none

theorem kind?_eq_none_of_fault? {p : Piece} {fault : Fault} (h : p.fault? = some fault)
    (table : ReservedWords) : p.kind? table = none := by
  unfold fault? at h
  unfold kind?
  split at h <;> simp_all

end Piece

/-! Pieces in their places -/

/-- A piece and the place where it starts. -/
structure Placed where
  piece : Piece
  start : Position
  deriving DecidableEq, Repr

namespace Placed

/-- Give each piece the place after the pieces before it. -/
def place : Position → List Piece → List Placed
  | _, [] => []
  | p, piece :: rest => ⟨piece, p⟩ :: place (p.after piece.text) rest

def span (p : Placed) : Span :=
  { start := p.start.offset
    stop := p.start.offset + p.piece.text.length
    line := p.start.line
    column := p.start.column }

def token? (table : ReservedWords) (p : Placed) : Option Token :=
  (p.piece.kind? table).map fun kind => ⟨kind, p.piece.lexeme, p.piece.literal?, p.span⟩

def diagnostic? (p : Placed) : Option Diagnostic :=
  p.piece.fault?.map fun fault => ⟨fault, p.start.line, p.start.column⟩

/-- The pieces of a text in their places. -/
def ofText (text : List Char) : List Placed := place .first (Piece.pieces text)

end Placed

/-! The scan of a text -/

def Token.eof (p : Position) : Token :=
  ⟨.eof, "", none, ⟨p.offset, p.offset, p.line, p.column⟩⟩

/-- The tokens of a text and what is wrong with it, both in the order of the text. -/
structure Scan where
  tokens : List Token
  diagnostics : List Diagnostic
  deriving DecidableEq, Repr

namespace Scan

/-- Scan a text with a table of reserved words. -/
def ofChars (table : ReservedWords) (text : List Char) : Scan :=
  { tokens := (Placed.ofText text).filterMap (Placed.token? table) ++
      [Token.eof (Position.first.after text)]
    diagnostics := (Placed.ofText text).filterMap Placed.diagnostic? }

def ofSource (table : ReservedWords) (source : String) : Scan := ofChars table source.toList

def hasFaults (s : Scan) : Bool := !s.diagnostics.isEmpty

def tokensEqual : List Token → List Token → Bool
  | [], [] => true
  | a :: as, b :: bs => a.equals b && tokensEqual as bs
  | _, _ => false

/-- Equality of scans, numbers by value. -/
def equals (a b : Scan) : Bool :=
  tokensEqual a.tokens b.tokens && a.diagnostics = b.diagnostics

theorem getLast?_tokens (table : ReservedWords) (text : List Char) :
    (ofChars table text).tokens.getLast? = some (Token.eof (Position.first.after text)) := by
  simp [ofChars]

end Scan

/-- The scan of a source with the standard table of reserved words. -/
def scan (source : String) : Scan := Scan.ofSource .standard source

end SeqScan
