import SeqScan.Scan

/-
  Events: what a run tells its log while it goes.

  An event has a level, a target that says where it comes from, a message and fields. The
  events of a scan follow the text: one for each diagnostic and one for each token but the
  last, with one more before the token of a reserved word; the last event sums the scan up.

    `scan_name`               `Placed.reserved?`, before the event of the token
    `add_literal`, `report`   `Placed.events`, for a token and for a diagnostic
    `Scanner::scan`           `Scan.finished`, the last of `Scan.events`
    `cmd_scan`                `Event.scanningFile`
-/

namespace SeqScan

/-- How much an event matters, the gravest first. -/
inductive Level where
  | error | warn | info | debug | trace
  deriving DecidableEq, Repr

namespace Level

/-- The levels in order; a greater rank is more verbose. -/
def rank : Level → Nat
  | error => 1
  | warn => 2
  | info => 3
  | debug => 4
  | trace => 5

def name : Level → String
  | error => "ERROR"
  | warn => "WARN"
  | info => "INFO"
  | debug => "DEBUG"
  | trace => "TRACE"

end Level

/-- The value of a field: a count, a text as it is, or a text in quotes. -/
inductive FieldValue where
  | count (n : Nat)
  | shown (text : String)
  | quoted (text : String)
  deriving DecidableEq, Repr

/-- Something a run of the program tells its log. -/
inductive Event where
  /-- A file of that many bytes was read and is about to be scanned. -/
  | scanningFile (path : String) (bytes : Nat)
  /-- A reserved word on that line, with the kind the table gives it. -/
  | reservedWord (kind : TokenKind) (line : Nat)
  | token (t : Token)
  | diagnostic (d : Diagnostic)
  /-- The number of tokens and of diagnostics, and the line the text ends on. -/
  | scanFinished (tokens diagnostics lines : Nat)
  deriving DecidableEq, Repr

namespace Event

def level : Event → Level
  | scanningFile .. | scanFinished .. => .debug
  | reservedWord .. | token _ | diagnostic _ => .trace

/-- Where an event comes from: the program itself or its scanner. -/
def target : Event → String
  | scanningFile .. => "tagscan"
  | reservedWord .. | token _ | diagnostic _ | scanFinished .. => "tagscan_lexer::scanner"

def message : Event → String
  | scanningFile .. => "scanning file"
  | reservedWord .. => "reserved word"
  | token _ => "token"
  | diagnostic _ => "diagnostic"
  | scanFinished .. => "scan finished"

def fields : Event → List (String × FieldValue)
  | scanningFile path bytes => [("path", .quoted path), ("bytes", .count bytes)]
  | reservedWord kind line => [("keyword", .shown kind.title), ("line", .count line)]
  | token t => [("token", .shown t.text), ("line", .count t.span.line)]
  | diagnostic d => [("error", .shown d.text)]
  | scanFinished tokens diagnostics lines =>
    [("tokens", .count tokens), ("diagnostics", .count diagnostics), ("lines", .count lines)]

end Event

/-! The events of a scan -/

/-- The event that tells of a reserved word on a line, if the name is one. -/
def NameClass.event? (line : Nat) : NameClass → Option Event
  | reserved kind => some (.reservedWord kind line)
  | identifier | typeReference => none

namespace Placed

def reserved? (table : ReservedWords) (p : Placed) : Option Event :=
  match p.piece.shape with
  | .name => (p.piece.nameClass table).event? p.start.line
  | _ => none

theorem reserved?_of_ne {table : ReservedWords} {p : Placed}
    (h : p.piece.kind? table ≠ some .reserveWord) : p.reserved? table = none := by
  unfold reserved?
  split
  next hshape =>
    rw [Piece.kind?, hshape] at h
    cases hcls : p.piece.nameClass table with
    | reserved kind => exact absurd (by rw [hcls]; rfl) h
    | _ => rfl
  next => rfl

/-- The events of one placed piece. -/
def events (table : ReservedWords) (p : Placed) : List Event :=
  (p.reserved? table).toList ++ ((p.token? table).map Event.token).toList ++
    (p.diagnostic?.map Event.diagnostic).toList

end Placed

namespace Scan

/-- The last event of the scan of a text. -/
def finished (table : ReservedWords) (text : List Char) : Event :=
  .scanFinished (ofChars table text).tokens.length (ofChars table text).diagnostics.length
    (Position.first.after text).line

/-- The events of the scan of a text, in order. -/
def events (table : ReservedWords) (text : List Char) : List Event :=
  (Placed.ofText text).flatMap (Placed.events table) ++ [finished table text]

end Scan

end SeqScan
