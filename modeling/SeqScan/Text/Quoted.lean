import SeqScan.Text.Visible

/-
  Texts in quotes.

  A quoted text stands between double quotes. A quote and a backslash in it are
  marked with a backslash, NUL, tab, line feed and carriage return have letters,
  and every other character that does not show by itself is written by its
  number. So what is written has one line, whatever the text.
-/

namespace SeqScan

namespace Text

/-- A character by its number in hexadecimal. -/
def numbered (c : Char) : List Char := ['\\', 'u', '{'] ++ Nat.toDigits 16 c.toNat ++ ['}']

/-- The letter that stands after a backslash for a character, if it has one. -/
def escapeLetter? : Char → Option Char
  | '"' => some '"'
  | '\\' => some '\\'
  | '\n' => some 'n'
  | '\r' => some 'r'
  | '\t' => some 't'
  | '\x00' => some '0'
  | _ => none

/-- A character as it stands between quotes. -/
def quoteChar (c : Char) : List Char :=
  match escapeLetter? c with
  | some letter => ['\\', letter]
  | none => if isVisible c then [c] else numbered c

def quote (text : String) : String :=
  String.ofList ('"' :: text.toList.flatMap quoteChar ++ ['"'])

end Text

end SeqScan
