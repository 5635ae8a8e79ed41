import SeqScan.Decimal

/-
  Binary floating-point numbers of 64 bits: a sign, an exponent of 11 bits and
  a fraction of 52.

  A number is kept by its three fields, so equality is equality of bits. All
  finite magnitudes are multiples of the least subnormal `2 ^ -1074`, and
  `units` counts them, which turns every question about size into one about
  natural numbers. Nothing here uses machine floating point.

  What is proved:
    1. `ofBits_bits`: the fields are recovered from the word that packs them.
    2. `equals_self_iff`: comparison as numbers is reflexive except at NaN.
-/

namespace SeqScan

/-- The number of values of the fraction, `2 ^ 52`. -/
abbrev fractionCount : Nat := 4503599627370496

/-- The number of values of the exponent, `2 ^ 11`. -/
abbrev exponentCount : Nat := 2048

/-- A 64-bit floating-point number by its fields. -/
structure Binary64 where
  negative : Bool
  exponent : Fin exponentCount
  fraction : Fin fractionCount
  deriving DecidableEq, Repr

namespace Binary64

/-! The word -/

/-- The fields packed into one word, the sign on top and the fraction below. -/
def bits (v : Binary64) : Nat :=
  (v.negative.toNat * exponentCount + v.exponent.val) * fractionCount + v.fraction.val

/-- The number with these fields, each taken modulo its range. -/
def ofFields (negative : Bool) (exponent fraction : Nat) : Binary64 :=
  { negative := negative
    exponent := ⟨exponent % exponentCount, Nat.mod_lt _ (by decide)⟩
    fraction := ⟨fraction % fractionCount, Nat.mod_lt _ (by decide)⟩ }

/-- The number whose fields a word packs; bits above the lowest 64 are ignored. -/
def ofBits (word : Nat) : Binary64 :=
  ofFields (word / fractionCount / exponentCount % 2 == 1) (word / fractionCount) word

theorem ofBits_bits (v : Binary64) : ofBits v.bits = v := by
  obtain ⟨s, ⟨e, he⟩, ⟨f, hf⟩⟩ := v
  simp only [fractionCount, exponentCount] at he hf
  simp only [ofBits, ofFields, bits, mk.injEq, Fin.mk.injEq, fractionCount, exponentCount]
  cases s <;> simp only [Bool.toNat_false, Bool.toNat_true, beq_iff_eq, beq_eq_false_iff_ne] <;>
    refine ⟨?_, ?_, ?_⟩ <;> omega

/-! Classes of numbers -/

/-- Neither infinite nor NaN. -/
def isFinite (v : Binary64) : Bool := v.exponent.val != 2047

/-- Not a number, whatever its sign and payload. -/
def isNaN (v : Binary64) : Bool := v.exponent.val == 2047 && v.fraction.val != 0

/-- One of the two zeros. -/
def isZero (v : Binary64) : Bool := v.exponent.val == 0 && v.fraction.val == 0

def abs (v : Binary64) : Binary64 := { v with negative := false }

def infinity : Binary64 := ⟨false, 2047, 0⟩

/-! Size -/

/-- The binary places of the least subnormal, `2 ^ -unitPlaces`. -/
def unitPlaces : Nat := 1074

/-- The significand of a finite number, as an integer of at most 53 bits. -/
def significand (v : Binary64) : Nat :=
  if v.exponent.val = 0 then v.fraction.val else fractionCount + v.fraction.val

/-- How often the significand of a finite number is doubled to count its least
subnormals. -/
def scale (v : Binary64) : Nat := v.exponent.val - 1

/-- The magnitude of a finite number, counted in least subnormals. -/
def units (v : Binary64) : Nat := v.significand * 2 ^ v.scale

@[simp] theorem units_abs (v : Binary64) : v.abs.units = v.units := rfl

theorem significand_lt (v : Binary64) : v.significand < 2 * fractionCount := by
  have hfraction := v.fraction.isLt
  unfold significand
  split <;> omega

/-! Comparison as numbers -/

/-- Equality of values: NaN equals nothing, and the two zeros are equal. -/
def equals (v w : Binary64) : Bool :=
  !v.isNaN && !w.isNaN && (v == w || (v.isZero && w.isZero))

theorem equals_self_iff (v : Binary64) : v.equals v = true ↔ v.isNaN = false := by
  simp [equals]

end Binary64

end SeqScan
