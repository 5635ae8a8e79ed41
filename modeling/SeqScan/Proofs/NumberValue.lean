import Mathlib.Tactic.Ring
import SeqScan.Proofs.Nearest
import SeqScan.Proofs.Words

/-
  The values of numbers.

  The lexeme of a number is digits, or digits with a point between them, and has the
  rational value that positional notation gives it. The value of its token is the number
  nearest to that, for runs of digits of any length: subnormal and zero where the value is
  small, infinite where it is half a step or more beyond the greatest finite number, and
  even where two numbers are equally near.

  What is proved:
    1. `value_mul`: the value of a number by its fields is its count of least subnormals.
    2. `numeralValue_eq`: the value of a numeral is that of the decimal it is read to.
    3. `isNearest_nearest`: a decimal is rounded to the nearest number.
    4. `numberToken_scan`: the lexeme and the value of every number that is scanned.
-/

namespace SeqScan

/-! Values of numbers -/

namespace Binary64

/-- The magnitude of a finite number: a fraction of the least normal number, or a fraction
more than one times a power of two. -/
def magnitude (v : Binary64) : ℚ :=
  if v.exponent.val = 0 then v.fraction.val / 2 ^ 52 * 2 ^ (-1022 : ℤ)
  else (1 + v.fraction.val / 2 ^ 52) * 2 ^ ((v.exponent.val : ℤ) - 1023)

def value (v : Binary64) : ℚ := if v.negative then -v.magnitude else v.magnitude

def zero : Binary64 := ⟨false, ⟨0, by decide⟩, ⟨0, by decide⟩⟩

/-- The number nearest to a rational that is not negative, of two equally near ones the one
with an even fraction. The last finite number and what would be the next are equally near to
`2 ^ 1024 - 2 ^ 970`; zero and the least number are to `2 ^ -1075`. -/
structure IsNearest (q : ℚ) (v : Binary64) : Prop where
  not_nan : v.isNaN = false
  not_negative : v.negative = false
  infinite : v = infinity ↔ 2 ^ 1024 - 2 ^ 970 ≤ q
  zero : v = zero ↔ q ≤ 2 ^ (-1075 : ℤ)
  /-- Every other number is finite. -/
  finite : v.isFinite = true ↔ q < 2 ^ 1024 - 2 ^ 970
  /-- No finite number is nearer. -/
  closest : v.isFinite = true → ∀ w : Binary64, w.isFinite = true →
    |v.value - q| ≤ |w.value - q|
  even : v.isFinite = true → ∀ w : Binary64, w.isFinite = true →
    |v.value - q| = |w.value - q| → w.value ≠ v.value → v.fraction.val % 2 = 0

end Binary64

/-! Values of numerals -/

namespace Decimal

def digitValue (c : Char) : Nat := c.toNat - '0'.toNat

/-- The value of digits before the point: the first counts the highest power of ten. -/
def wholeValue : List Char → ℚ
  | [] => 0
  | c :: cs => digitValue c * 10 ^ cs.length + wholeValue cs

/-- The value of digits after the point: the first counts tenths, the others tenths of what
they would. -/
def fractionValue : List Char → ℚ
  | [] => 0
  | c :: cs => (digitValue c + fractionValue cs) / 10

/-- A number of the form `digits` or `digits.digits`. -/
def numeral (whole fraction : List Char) : List Char :=
  if fraction = [] then whole else whole ++ '.' :: fraction

theorem ofDigitChars_cons_zero (c : Char) (digits : List Char) :
    Nat.ofDigitChars 10 (c :: digits) 0 =
      digitValue c * 10 ^ digits.length + Nat.ofDigitChars 10 digits 0 :=
  calc Nat.ofDigitChars 10 (c :: digits) 0 = Nat.ofDigitChars 10 digits (10 * 0 + digitValue c) :=
        Nat.ofDigitChars_cons
    _ = 10 ^ digits.length * (10 * 0 + digitValue c) + Nat.ofDigitChars 10 digits 0 :=
        Nat.ofDigitChars_eq_ofDigitChars_zero
    _ = _ := by rw [Nat.mul_zero, Nat.zero_add, Nat.mul_comm]

theorem wholeValue_eq (digits : List Char) :
    wholeValue digits = (Nat.ofDigitChars 10 digits 0 : Nat) := by
  induction digits with
  | nil => rfl
  | cons c digits ih =>
    rw [wholeValue, ih, ofDigitChars_cons_zero]
    push_cast
    rfl

theorem fractionValue_eq (digits : List Char) :
    fractionValue digits = (Nat.ofDigitChars 10 digits 0 : Nat) / 10 ^ digits.length := by
  induction digits with
  | nil => simp [fractionValue]
  | cons c digits ih =>
    have hpow : (10 : ℚ) ^ digits.length ≠ 0 := by positivity
    rw [fractionValue, ih, ofDigitChars_cons_zero, List.length_cons, pow_succ]
    push_cast
    field_simp

/-- **The value of a numeral** is that of the decimal it is read to. -/
theorem numeralValue_eq {whole fraction : List Char} (h : ∀ c ∈ whole, Digit c) :
    wholeValue whole + fractionValue fraction =
      (read (numeral whole fraction)).digits / 10 ^ (read (numeral whole fraction)).places := by
  have hpoint : '.' ∉ whole := fun hm => absurd (h _ hm) (by unfold Digit; decide)
  have hread : read (numeral whole fraction) =
      ⟨Nat.ofDigitChars 10 (whole ++ fraction) 0, fraction.length⟩ := by
    unfold numeral
    split
    next hnil =>
      rw [read, splitPoint_of_notMem hpoint, hnil]
    next => rw [read, splitPoint_append hpoint]
  have hpow : (10 : ℚ) ^ fraction.length ≠ 0 := by positivity
  rw [hread, wholeValue_eq, fractionValue_eq, Nat.ofDigitChars_append,
    @Nat.ofDigitChars_eq_ofDigitChars_zero fraction (Nat.ofDigitChars 10 whole 0)]
  push_cast
  field_simp

end Decimal

namespace Binary64

/-! Values and counts -/

/-- The count of a number, negative if the number is. -/
def signedUnits (v : Binary64) : ℤ := if v.negative then -v.units else v.units

theorem natAbs_signedUnits (v : Binary64) : v.signedUnits.natAbs = v.units := by
  unfold signedUnits
  split
  · rw [Int.natAbs_neg, Int.natAbs_natCast]
  · rfl

theorem two_zpow_mul : (2 : ℚ) ^ (-1022 : ℤ) * 2 ^ unitPlaces = 2 ^ 52 := by
  have hne : (2 : ℚ) ^ 1022 ≠ 0 := by positivity
  rw [show unitPlaces = 1022 + 52 from rfl, pow_add, zpow_neg, zpow_ofNat,
    inv_mul_cancel_left₀ hne]

theorem magnitude_mul (v : Binary64) : v.magnitude * 2 ^ unitPlaces = v.units := by
  have hbits : (2 : ℚ) ^ 52 ≠ 0 := by positivity
  unfold magnitude units significand scale
  split
  next hz =>
    rw [hz, mul_assoc, two_zpow_mul, div_mul_cancel₀ _ hbits]
    simp
  next hne =>
    obtain ⟨k, hk⟩ := Nat.exists_eq_succ_of_ne_zero hne
    have hexponent : ((k.succ : Nat) : ℤ) - 1023 = k + (-1022) := by omega
    rw [hk, hexponent, zpow_add₀ two_ne_zero, zpow_natCast, mul_assoc, mul_assoc, two_zpow_mul,
      Nat.succ_sub_one]
    push_cast
    rw [show (4503599627370496 : ℚ) = 2 ^ 52 by norm_num]
    field_simp

theorem value_mul (v : Binary64) : v.value * 2 ^ unitPlaces = v.signedUnits := by
  unfold value signedUnits
  split
  · rw [neg_mul, magnitude_mul]
    push_cast
    rfl
  · rw [magnitude_mul]
    rfl

theorem value_eq (v : Binary64) : v.value = v.signedUnits * (2 ^ unitPlaces)⁻¹ := by
  rw [← value_mul, mul_inv_cancel_right₀ (by positivity)]

/-! The nearest number -/

section

variable (d : Decimal)

def roundedUnits : Nat := nearestUnits (d.digits * 2 ^ unitPlaces) (10 ^ d.places)

theorem nearest_eq : nearest d = ofUnits (roundedUnits d) := rfl

theorem units_nearest (h : (nearest d).isFinite = true) : (nearest d).units = roundedUnits d :=
  units_ofUnits_nearestUnits d.ten_pow_pos (isFinite_ofUnits_iff.mp h)

theorem signedUnits_nearest (h : (nearest d).isFinite = true) :
    (nearest d).signedUnits = roundedUnits d := by
  rw [signedUnits, nearest_negative, if_neg Bool.false_ne_true, units_nearest d h]

/-- **No finite number is nearer** to a decimal than the one it is rounded to, whose fraction is
even if another value is as near. -/
theorem nearestIn_nearest (h : (nearest d).isFinite = true) :
    NearestIn (fun y => ∃ w : Binary64, y = w.value) (d.digits / 10 ^ d.places)
      (nearest d).value ((nearest d).fraction.val % 2 = 0) := by
  have hunit : (0 : ℚ) < (2 ^ unitPlaces)⁻¹ := by positivity
  have hscaled : ((d.digits * 2 ^ unitPlaces : Nat) : ℚ) / (10 ^ d.places : Nat) *
      (2 ^ unitPlaces)⁻¹ = d.digits / 10 ^ d.places := by
    rw [Nat.cast_mul, Nat.cast_pow, Nat.cast_pow, Nat.cast_ofNat, Nat.cast_ofNat,
      mul_div_right_comm, mul_inv_cancel_right₀ (by positivity)]
  have hvalue : (roundedUnits d : ℚ) * (2 ^ unitPlaces)⁻¹ = (nearest d).value := by
    rw [value_eq, signedUnits_nearest d h, Int.cast_natCast]
  have hcounts := (nearestIn_nearestUnits (d.digits * 2 ^ unitPlaces) d.ten_pow_pos).scale hunit
  rw [hscaled, ← roundedUnits, hvalue] at hcounts
  refine (hcounts.extend ?_).imp
    (even_fraction (units_nearest d h) (leadingBits_le _ d.ten_pow_pos))
  rintro _ ⟨w, rfl⟩
  refine .inl ⟨w.signedUnits, ⟨w.signedUnits, ?_, rfl⟩, value_eq w⟩
  rw [natAbs_signedUnits]
  exact spacing_dvd_units w

theorem isFinite_nearest_iff :
    (nearest d).isFinite = true ↔ roundedUnits d < 2 * fractionCount * 2 ^ 2045 := by
  rw [← log2_lt_iff 2045]
  exact isFinite_ofUnits_iff

theorem nearest_eq_infinity_iff : nearest d = infinity ↔ (nearest d).isFinite = false := by
  constructor
  · intro h
    rw [h]
    rfl
  · intro h
    apply ofUnits_of_le
    apply Nat.le_of_not_lt
    intro hlog
    have hfinite : (nearest d).isFinite = true := isFinite_ofUnits_iff.mpr hlog
    rw [h] at hfinite
    cases hfinite

theorem nearest_eq_zero_iff : nearest d = zero ↔ roundedUnits d = 0 := by
  constructor
  · intro h
    have hfinite : (nearest d).isFinite = true := by
      rw [h]
      rfl
    rw [← units_nearest d hfinite, h]
    decide
  · intro h
    rw [nearest_eq, h]
    rfl

/-- Half a step of the grid before the number that would be next to the greatest. -/
theorem overflow_iff :
    2 * fractionCount * 2 ^ 2045 ≤ roundedUnits d ↔
      (2 : ℚ) ^ 1024 - 2 ^ 970 ≤ d.digits / 10 ^ d.places := by
  have hden : (0 : ℚ) < 10 ^ d.places := by positivity
  have hunit : (0 : ℚ) < 2 * 2 ^ unitPlaces := by positivity
  have hstep : (2 : ℚ) ^ 2045 = 2 ^ 970 * (2 * 2 ^ unitPlaces) := by
    rw [← pow_succ', ← pow_add]
    rfl
  have hlimit : ((4 * fractionCount - 1 : Nat) : ℚ) * 2 ^ 970 = 2 ^ 1024 - 2 ^ 970 := by
    rw [show ((4 * fractionCount - 1 : Nat) : ℚ) = 2 ^ 54 - 1 by norm_num [fractionCount],
      sub_mul, ← pow_add, one_mul]
  rw [roundedUnits, two_pow_le_nearestUnits_iff _ d.ten_pow_pos, ← @Nat.cast_le ℚ,
    le_div_iff₀ hden, ← hlimit]
  simp only [Nat.cast_mul, Nat.cast_pow, Nat.cast_ofNat, hstep]
  rw [← mul_assoc, mul_right_comm, mul_left_comm 2 (d.digits : ℚ), mul_le_mul_iff_left₀ hunit]

/-- Half of the least number. -/
theorem underflow_iff :
    roundedUnits d = 0 ↔ (d.digits : ℚ) / 10 ^ d.places ≤ 2 ^ (-1075 : ℤ) := by
  have hden : (0 : ℚ) < 10 ^ d.places := by positivity
  have hunit : (0 : ℚ) < 2 * 2 ^ unitPlaces := by positivity
  have hhalf : (2 : ℚ) ^ (-1075 : ℤ) = (2 * 2 ^ unitPlaces)⁻¹ := by
    rw [← pow_succ', zpow_neg]
    rfl
  rw [roundedUnits, nearestUnits_eq_zero_iff _ d.ten_pow_pos, ← @Nat.cast_le ℚ, hhalf,
    div_le_iff₀ hden, ← div_eq_inv_mul, le_div_iff₀ hunit]
  simp only [Nat.cast_mul, Nat.cast_pow, Nat.cast_ofNat]
  rw [mul_left_comm]

/-- **A decimal is rounded to the nearest number.** -/
theorem isNearest_nearest : IsNearest (d.digits / 10 ^ d.places) (nearest d) where
  not_nan := nearest_isNaN d
  not_negative := nearest_negative d
  infinite := by
    rw [nearest_eq_infinity_iff, ← Bool.not_eq_true, isFinite_nearest_iff, not_lt, overflow_iff]
  zero := by rw [nearest_eq_zero_iff, underflow_iff]
  finite := by rw [isFinite_nearest_iff, ← not_le, overflow_iff, not_le]
  closest h w _ := (nearestIn_nearest d h).closest _ ⟨w, rfl⟩
  even h w _ htie hne := (nearestIn_nearest d h).even_of_tie _ ⟨w, rfl⟩ hne htie

end

end Binary64

/-! Numbers that are scanned -/

theorem Lexeme.exists_numeral {w : List Char} (h : Lexeme .number w) :
    ∃ whole fraction : List Char, whole ≠ [] ∧ (∀ c ∈ whole ++ fraction, Digit c) ∧
      w = Decimal.numeral whole fraction := by
  cases h with
  | @whole d ds hd hds =>
    refine ⟨d :: ds, [], List.cons_ne_nil d ds, ?_, (if_pos rfl).symm⟩
    rw [List.append_nil]
    exact List.forall_mem_cons.mpr ⟨hd, hds⟩
  | @fraction d f ds fs hd hds hf hfs =>
    refine ⟨d :: ds, f :: fs, List.cons_ne_nil d ds, ?_, (if_neg (List.cons_ne_nil f fs)).symm⟩
    exact List.forall_mem_append.mpr
      ⟨List.forall_mem_cons.mpr ⟨hd, hds⟩, List.forall_mem_cons.mpr ⟨hf, hfs⟩⟩

/-- A token for a number: its lexeme is digits, perhaps with a point and more digits, and
its value the number nearest to what they say. -/
def NumberToken (t : Token) : Prop :=
  ∃ whole fraction : List Char, whole ≠ [] ∧ (∀ c ∈ whole ++ fraction, Digit c) ∧
    t.lexeme.toList = Decimal.numeral whole fraction ∧
    ∃ v, t.literal = some (.number v) ∧
      Binary64.IsNearest (Decimal.wholeValue whole + Decimal.fractionValue fraction) v

/-- **Every number that is scanned has the value nearest to its lexeme**, however long. -/
theorem numberToken_scan {table : ReservedWords} {source : String} {t : Token}
    (h : t ∈ (Scan.ofSource table source).tokens) (hkind : t.kind = .number) : NumberToken t := by
  obtain ⟨w, hw⟩ := Scan.exists_word h (by simp [hkind])
  simp only [Word.content, Token.content, Prod.mk.injEq] at hw
  obtain ⟨hwkind, hlexeme, hliteral⟩ := hw
  have hcls : w.cls = .number := by
    have hgives := w.gives_kind table
    rw [hwkind, hkind] at hgives
    generalize w.cls = cls at hgives
    cases hgives
    rfl
  obtain ⟨whole, fraction, hne, hdigit, hnumeral⟩ := Lexeme.exists_numeral (hcls ▸ w.isLexeme)
  rw [hcls] at hliteral
  rw [hnumeral] at hliteral hlexeme
  refine ⟨whole, fraction, hne, hdigit, ?_, _, hliteral.symm, ?_⟩
  · rw [← hlexeme, String.toList_ofList]
  · rw [Decimal.numeralValue_eq fun c hc => hdigit c (List.mem_append_left _ hc)]
    exact Binary64.isNearest_nearest _

/-- An integer of 54 bits, between two numbers that are equally near. -/
theorem numberToken_scan_tie :
    NumberToken ⟨.number, "9007199254740993", some (.number ⟨false, 1076, 0⟩), ⟨0, 16, 1, 1⟩⟩ :=
  @numberToken_scan .standard "9007199254740993" _ (by decide +kernel) rfl

end SeqScan
