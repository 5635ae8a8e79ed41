/-
  Decimals: a run of digits with a point some places from its right end.

  The value of a decimal is `digits / 10 ^ places`. This file reads the plain
  form `12.50` into a decimal, and writes a decimal back in plain positional
  form, never with an exponent.

  What is proved:
    1. `splitPoint_append`, `splitPoint_of_notMem`: a text is divided at its
       first point, and a text without a point stands before it whole.
    2. `splitPoint_text`: the point of a written decimal stands between its two
       runs of digits, neither of which is empty.
-/

namespace SeqScan

/-- Powers of natural numbers are these, whatever other powers are in scope. -/
instance (priority := 2000) natPow : Pow Nat Nat := instPowNat

/-- The number `digits / 10 ^ places`. -/
structure Decimal where
  digits : Nat
  places : Nat
  deriving DecidableEq, Repr

namespace Decimal

/-! Reading -/

/-- The text before the first point and the text after it. -/
def splitPoint (text : List Char) : List Char × List Char :=
  (text.takeWhile (· != '.'), (text.dropWhile (· != '.')).drop 1)

/-- Read a text of the form `digits` or `digits.digits`. -/
def read (text : List Char) : Decimal :=
  { digits := Nat.ofDigitChars 10 ((splitPoint text).1 ++ (splitPoint text).2) 0
    places := (splitPoint text).2.length }

theorem splitPoint_append {whole : List Char} (h : '.' ∉ whole) (fraction : List Char) :
    splitPoint (whole ++ '.' :: fraction) = (whole, fraction) := by
  have hkeep : ∀ c ∈ whole, (c != '.') = true := by grind
  rw [splitPoint, List.takeWhile_append_of_pos hkeep, List.dropWhile_append_of_pos hkeep]
  simp

theorem splitPoint_of_notMem {text : List Char} (h : '.' ∉ text) :
    splitPoint text = (text, []) := by
  have hkeep : ∀ c ∈ text, (c != '.') = true := by grind
  have htaken := @List.takeWhile_append_of_pos _ _ text [] hkeep
  have hleft := @List.dropWhile_append_of_pos _ _ text [] hkeep
  simp only [List.append_nil, List.takeWhile_nil, List.dropWhile_nil] at htaken hleft
  simp [splitPoint, htaken, hleft]

/-! Writing -/

/-- The digits after the point of `remainder / 10 ^ places`, without the zeros
at their end. -/
def fractionDigits : Nat → Nat → List Char
  | 0, _ => []
  | places + 1, remainder =>
    if remainder = 0 then []
    else Nat.digitChar (remainder / 10 ^ places) :: fractionDigits places (remainder % 10 ^ places)

/-- The digits before the point, without superfluous zeros. -/
def wholeDigits (d : Decimal) : List Char :=
  Nat.toDigits 10 (d.digits / 10 ^ d.places)

/-- What is written after the point: the digits there, or a zero if there are none. -/
def fraction (d : Decimal) : List Char :=
  match fractionDigits d.places (d.digits % 10 ^ d.places) with
  | [] => ['0']
  | digits => digits

/-- The plain form: at least one digit on each side of the point, no zero more
than that at either end, and no exponent. -/
def text (d : Decimal) : List Char :=
  d.wholeDigits ++ '.' :: d.fraction

theorem isDigit_of_mem_wholeDigits {d : Decimal} {c : Char} (h : c ∈ d.wholeDigits) :
    c.isDigit = true :=
  Nat.isDigit_of_mem_toDigits (by decide) (by decide) h

theorem wholeDigits_ne_nil (d : Decimal) : d.wholeDigits ≠ [] :=
  Nat.toDigits_ne_nil

/-- The first digit after the point is one. -/
theorem lead_lt_ten {places remainder : Nat} (hlt : remainder < 10 ^ (places + 1)) :
    remainder / 10 ^ places < 10 := by
  rw [Nat.div_lt_iff_lt_mul (Nat.pow_pos (by decide)), Nat.mul_comm, ← Nat.pow_succ]
  exact hlt

theorem isDigit_of_mem_fractionDigits {places remainder : Nat} {c : Char}
    (hlt : remainder < 10 ^ places) (h : c ∈ fractionDigits places remainder) :
    c.isDigit = true := by
  induction places generalizing remainder with
  | zero => simp [fractionDigits] at h
  | succ places ih =>
    have hpos : 0 < 10 ^ places := Nat.pow_pos (by decide)
    unfold fractionDigits at h
    split at h
    · simp at h
    · rcases List.mem_cons.1 h with hlead | hrest
      · rw [hlead, Nat.isDigit_digitChar, decide_eq_true (lead_lt_ten hlt)]
      · exact ih (Nat.mod_lt _ hpos) hrest

theorem isDigit_of_mem_fraction {d : Decimal} {c : Char} (h : c ∈ d.fraction) :
    c.isDigit = true := by
  unfold fraction at h
  split at h
  · simp only [List.mem_singleton] at h
    subst h
    decide
  · exact isDigit_of_mem_fractionDigits (Nat.mod_lt _ (Nat.pow_pos (by decide))) h

theorem isDigit_of_mem_digits {d : Decimal} {c : Char} (h : c ∈ d.wholeDigits ++ d.fraction) :
    c.isDigit = true := by
  rcases List.mem_append.1 h with hwhole | hfraction
  · exact isDigit_of_mem_wholeDigits hwhole
  · exact isDigit_of_mem_fraction hfraction

theorem fraction_ne_nil (d : Decimal) : d.fraction ≠ [] := by
  unfold fraction
  split <;> simp_all

theorem splitPoint_text (d : Decimal) : splitPoint d.text = (d.wholeDigits, d.fraction) := by
  apply splitPoint_append
  intro h
  exact absurd (isDigit_of_mem_wholeDigits h) (by decide)

end Decimal

end SeqScan
