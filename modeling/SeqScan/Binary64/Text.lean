import SeqScan.Binary64.Shortest

/-
  How numbers are written.

  A whole number is written with all its digits and `.0`, so that it reads as a
  decimal; any other finite number with the fewest digits that read back. Both
  are plain positional decimals, however large or small. A sign is written for
  every negative number, zero included; infinities are `inf` and `-inf`; NaN has
  no sign. `Literal::fmt` writes a number so.
-/

namespace SeqScan

namespace Binary64

/-- The decimal written for the magnitude of a finite number. -/
def decimal (v : Binary64) : Decimal :=
  if v.isIntegral then v.exact else v.shortest

def sign (v : Binary64) : List Char := if v.negative then ['-'] else []

def chars (v : Binary64) : List Char :=
  if v.isFinite then v.sign ++ v.decimal.text
  else if v.isNaN then "NaN".toList
  else v.sign ++ "inf".toList

/-- A number as it is written. -/
def text (v : Binary64) : String := String.ofList v.chars

end Binary64

end SeqScan
