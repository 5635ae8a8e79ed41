import SeqScan.Binary64.Basic

/-
  Rounding to the nearest floating-point number, a tie going to the even
  neighbour.

  A decimal is first expressed as an exact quotient in least subnormals. The
  quotient's leading 53 bits fix a grid, which is the grid of representable
  magnitudes around it, and the quotient is rounded to that grid in exact
  arithmetic. A result beyond the greatest finite number is infinite. This is how
  `scan_number` parses the value of its lexeme.

  What is proved:
    1. `roundHalfEven_lower`, `roundHalfEven_upper`: rounding a quotient moves
       it by at most half.
    2. `roundHalfEven_of_tie`: of two equally near integers the even one is
       taken.
    3. `nearest_negative`, `nearest_isNaN`: a decimal never rounds to a number
       with a sign, nor to NaN.
-/

namespace SeqScan

/-! Rounding a quotient -/

/-- The integer nearest to `num / den`, the even one of two equally near. -/
def roundHalfEven (num den : Nat) : Nat :=
  let floor := num / den
  let twice := 2 * (num % den)
  if twice < den then floor
  else if den < twice then floor + 1
  else floor + floor % 2

theorem roundHalfEven_lower (num : Nat) {den : Nat} (hden : 0 < den) :
    2 * num ≤ (2 * roundHalfEven num den + 1) * den := by
  have hdiv := Nat.div_add_mod num den
  have hmod := Nat.mod_lt num hden
  simp only [roundHalfEven]
  split
  · grind
  · split <;> grind

theorem roundHalfEven_upper (num : Nat) {den : Nat} (hden : 0 < den) :
    2 * roundHalfEven num den * den ≤ 2 * num + den := by
  have hdiv := Nat.div_add_mod num den
  have hmod := Nat.mod_lt num hden
  simp only [roundHalfEven]
  split
  · grind
  · split
    · grind
    · have hparity : num / den % 2 ≤ 1 := by omega
      have hscaled := Nat.mul_le_mul_right den hparity
      grind

theorem roundHalfEven_of_tie {num den : Nat} (htie : 2 * (num % den) = den) :
    roundHalfEven num den % 2 = 0 := by
  simp only [roundHalfEven, htie, Nat.lt_irrefl, if_false]
  omega

namespace Binary64

/-- The spacing of representable magnitudes from `floor` up, where `floor` is
counted in least subnormals: 53 leading bits are kept. -/
def spacing (floor : Nat) : Nat := 2 ^ (floor.log2 - 52)

/-- The representable count of least subnormals nearest to `num / den`. -/
def nearestUnits (num den : Nat) : Nat :=
  roundHalfEven num (den * spacing (num / den)) * spacing (num / den)

/-- The non-negative number of a representable count of least subnormals; a
count beyond the greatest finite number gives infinity. -/
def ofUnits (count : Nat) : Binary64 :=
  if count.log2 < 52 then ofFields false 0 count
  else if count.log2 < 2098 then ofFields false (count.log2 - 51) (count / spacing count)
  else infinity

/-- The number nearest to a decimal, a tie going to the even neighbour. -/
def nearest (d : Decimal) : Binary64 :=
  ofUnits (nearestUnits (d.digits * 2 ^ unitPlaces) (10 ^ d.places))

theorem ofUnits_negative (count : Nat) : (ofUnits count).negative = false := by
  unfold ofUnits
  split
  · rfl
  · split <;> rfl

theorem nearest_negative (d : Decimal) : (nearest d).negative = false :=
  ofUnits_negative _

theorem ofUnits_isNaN (count : Nat) : (ofUnits count).isNaN = false := by
  unfold ofUnits
  split
  · simp [isNaN, ofFields]
  · split
    · have hexponent : (count.log2 - 51) % exponentCount ≠ 2047 := by
        simp only [exponentCount]
        omega
      simp [isNaN, ofFields, hexponent]
    · decide

theorem nearest_isNaN (d : Decimal) : (nearest d).isNaN = false :=
  ofUnits_isNaN _

end Binary64

end SeqScan
