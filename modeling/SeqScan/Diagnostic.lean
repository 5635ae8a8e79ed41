/-
  What a scan complains about, and in which words.

    `ErrorKind`, its message     `Fault`, `Fault.message`
    `LexerError`, its message    `Diagnostic`, `Diagnostic.text`
-/

namespace SeqScan

/-- What can be wrong with a text. -/
inductive Fault where
  /-- A character that starts nothing. -/
  | unexpectedCharacter (c : Char)
  /-- A string without a closing quote. -/
  | unterminatedString
  deriving DecidableEq, Repr

/-- A fault in words; the character is shown as it is. -/
def Fault.message : Fault → String
  | unexpectedCharacter c => "unexpected character '" ++ String.singleton c ++ "'"
  | unterminatedString => "unterminated string"

/-- A fault and where it was met: at the character itself, or at the opening
quote of the string. -/
structure Diagnostic where
  fault : Fault
  line : Nat
  column : Nat
  deriving DecidableEq, Repr

def Diagnostic.text (d : Diagnostic) : String :=
  "[line " ++ Nat.repr d.line ++ "] Error: " ++ d.fault.message

end SeqScan
