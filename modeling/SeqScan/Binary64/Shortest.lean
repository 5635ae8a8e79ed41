import SeqScan.Binary64.Nearest

/-
  Exact decimals, and the shortest ones that read back.

  Every finite number is an integer divided by a power of two, and so exactly a
  decimal. Coarser decimals keep fewer of its leading digits: on the grid of
  multiples of `10 ^ p` the two neighbours of the exact digits are tried, from
  the coarsest grid to the finest, and the first grid on which a neighbour
  still rounds to the number is taken.

  What is proved:
    1. `mul_pow_halve`, `odd_of_halve`: halving keeps the value of a fraction,
       and leaves an odd numerator unless the fraction is whole.
    2. `exact_digits`: the exact decimal has the value of the number.
    3. `readsBack_shortenFrom`: what the search finds reads back as the number,
       if the exact decimal does.
-/

namespace SeqScan

/-! Binary fractions -/

/-- The fraction `num / 2 ^ places` in lowest terms: its numerator, and the
places that are left. -/
def halve : Nat → Nat → Nat × Nat
  | 0, num => (num, 0)
  | places + 1, num => if num % 2 = 0 then halve places (num / 2) else (num, places + 1)

theorem mul_pow_halve (places num : Nat) :
    (halve places num).1 * 2 ^ places = num * 2 ^ (halve places num).2 := by
  fun_induction halve places num with
  | case1 => rfl
  | case2 places num _ ih =>
    have hnum : num = num / 2 * 2 := by omega
    calc _ = (halve places (num / 2)).1 * 2 ^ places * 2 := by rw [Nat.pow_succ, Nat.mul_assoc]
      _ = num / 2 * 2 * 2 ^ (halve places (num / 2)).2 := by rw [ih, Nat.mul_right_comm]
      _ = num * 2 ^ (halve places (num / 2)).2 := by rw [← hnum]
  | case3 => rfl

theorem odd_of_halve {places num : Nat} (h : (halve places num).2 ≠ 0) :
    (halve places num).1 % 2 = 1 := by
  fun_induction halve places num with
  | case1 => contradiction
  | case2 places num _ ih => exact ih h
  | case3 places num hodd => omega

namespace Binary64

/-! The exact decimal -/

/-- The magnitude of a finite number as a binary fraction in lowest terms: a
numerator over `2 ^ places`. -/
def lowestTerms (v : Binary64) : Nat × Nat :=
  if unitPlaces ≤ v.scale then (v.significand * 2 ^ (v.scale - unitPlaces), 0)
  else halve (unitPlaces - v.scale) v.significand

/-- The magnitude of a finite number as a decimal, exactly. -/
def exact (v : Binary64) : Decimal :=
  ⟨v.lowestTerms.1 * 5 ^ v.lowestTerms.2, v.lowestTerms.2⟩

/-- Whether a finite number has no fractional part. -/
def isIntegral (v : Binary64) : Bool := v.exact.places == 0

theorem lowestTerms_value (v : Binary64) :
    v.lowestTerms.1 * 2 ^ unitPlaces = v.units * 2 ^ v.lowestTerms.2 := by
  unfold lowestTerms units
  split
  next hle =>
    rw [Nat.mul_assoc, ← Nat.pow_add, Nat.sub_add_cancel hle, Nat.pow_zero, Nat.mul_one]
  next hlt =>
    have hparts : (2 : Nat) ^ unitPlaces = 2 ^ (unitPlaces - v.scale) * 2 ^ v.scale := by
      rw [← Nat.pow_add, Nat.sub_add_cancel (Nat.le_of_not_le hlt)]
    rw [hparts, ← Nat.mul_assoc, mul_pow_halve, Nat.mul_right_comm]

theorem exact_digits (v : Binary64) :
    v.exact.digits * 2 ^ unitPlaces = v.units * 10 ^ v.exact.places := by
  have hparts : (10 : Nat) ^ v.lowestTerms.2 = 2 ^ v.lowestTerms.2 * 5 ^ v.lowestTerms.2 := by
    rw [← Nat.mul_pow]
  change v.lowestTerms.1 * 5 ^ v.lowestTerms.2 * 2 ^ unitPlaces = v.units * 10 ^ v.lowestTerms.2
  rw [hparts, ← Nat.mul_assoc, ← lowestTerms_value, Nat.mul_right_comm]

/-! The search -/

def readsBack (v : Binary64) (d : Decimal) : Bool := nearest d == v.abs

/-- The neighbour of a decimal among those whose digits are multiples of `step`
that reads back as `v`: the nearer of two, and the upper one of two equally near. -/
def neighbour? (v : Binary64) (d : Decimal) (step : Nat) : Option Decimal :=
  let low := d.digits / step * step
  let high := low + step
  if v.readsBack ⟨high, d.places⟩ &&
      (!v.readsBack ⟨low, d.places⟩ || high - d.digits ≤ d.digits - low) then
    some ⟨high, d.places⟩
  else if v.readsBack ⟨low, d.places⟩ then some ⟨low, d.places⟩
  else none

/-- Try the grids of step `10 ^ p` for `p` below a bound, the coarsest first, and
keep the decimal itself if none serves. -/
def shortenFrom (v : Binary64) (d : Decimal) : Nat → Decimal
  | 0 => d
  | bound + 1 => (v.neighbour? d (10 ^ bound)).getD (shortenFrom v d bound)

/-- The shortest decimal that reads back as the magnitude of `v`; of several
the one nearest to it. -/
def shortest (v : Binary64) : Decimal :=
  v.shortenFrom v.exact (Nat.toDigits 10 v.exact.digits).length

theorem readsBack_neighbour? {v : Binary64} {d found : Decimal} {step : Nat}
    (h : v.neighbour? d step = some found) : v.readsBack found = true := by
  simp only [neighbour?] at h
  split at h
  next htaken =>
    rw [Bool.and_eq_true] at htaken
    exact Option.some.inj h ▸ htaken.1
  next =>
    split at h
    next hlow => exact Option.some.inj h ▸ hlow
    next => cases h

theorem readsBack_shortenFrom {v : Binary64} {d : Decimal} (h : v.readsBack d = true)
    (bound : Nat) : v.readsBack (v.shortenFrom d bound) = true := by
  induction bound with
  | zero => exact h
  | succ bound ih =>
    unfold shortenFrom
    cases hfound : v.neighbour? d (10 ^ bound) with
    | none => exact ih
    | some n => exact readsBack_neighbour? hfound

end Binary64

end SeqScan
