import SeqScan.Proofs.NumberText
import SeqScan.Proofs.Shortest

/-
  How every finite number is written.

  An integer is written with all its digits and `.0`. Of any other number those digits are
  written that are enough: fewer would not read back, whatever they were, and no others of
  the same count that read back are nearer. How many digits there are is counted in the text,
  from the first that is no zero. The last of them is no zero either, so that no decimal of
  the same value has fewer.

  What is proved:
    1. `Decimal.value_text`: the digits that are written have the value of the decimal.
    2. `Decimal.leading_wholeDigits`, `Decimal.getLast?_fractionDigits`: no zero is written
       that could be left out.
    3. `significantDigits_le`: a text has no more digits than any decimal of its value.
    4. `isIntegral_iff_value`: which numbers are integers.
    5. `printedNumber_text`: the whole law, for every finite number.
-/

namespace SeqScan

/-! What is said of a text -/

namespace Decimal

/-- Digits before a point, without a zero that could be left out. -/
structure Leading (whole : List Char) : Prop where
  digits : ∀ c ∈ whole, Digit c
  ne_nil : whole ≠ []
  lead : whole.head? = some '0' → whole = ['0']

/-- Digits after a point, without a zero that could be left out. -/
structure Trailing (fraction : List Char) : Prop where
  digits : ∀ c ∈ fraction, Digit c
  ne_nil : fraction ≠ []
  last : fraction.getLast? ≠ some '0'

/-- The digits of a text from the first that is no zero. -/
def significantDigits (whole fraction : List Char) : Nat :=
  ((whole ++ fraction).dropWhile (· = '0')).length

/-- A number of at most `k` significant digits, wherever its point is. -/
def OfDigits (k : Nat) (r : ℚ) : Prop := ∃ m e : ℤ, |m| < 10 ^ k ∧ r = m * 10 ^ e

end Decimal

namespace Binary64

/-- A rational with the sign of a number. -/
def signed (v : Binary64) (r : ℚ) : ℚ := if v.negative then -r else r

/-- A rational is rounded to `v`: its magnitude to that of `v`, and their signs are the same. -/
structure RoundsTo (r : ℚ) (v : Binary64) : Prop where
  magnitude : IsNearest |r| v.abs
  sign : r < 0 ↔ v.negative = true

/-- Of the decimals that are rounded to `v`, none has fewer digits than `r`, which has `n`, and
none of `n` digits is nearer. -/
structure ShortestDecimal (v : Binary64) (r : ℚ) (n : Nat) : Prop where
  rounds : RoundsTo r v
  digits : Decimal.OfDigits n r
  fewest : ∀ k s, Decimal.OfDigits k s → RoundsTo s v → n ≤ k
  closest : ∀ s, Decimal.OfDigits n s → RoundsTo s v → |r - v.value| ≤ |s - v.value|

end Binary64

/-- How a number is written. -/
structure PrintedNumber (v : Binary64) : Prop where
  /-- An integer has all its digits before the point. -/
  integer : ∀ n : ℤ, v.value = n → ∃ whole, Decimal.Leading whole ∧
    Decimal.wholeValue whole = |v.value| ∧
    (Literal.number v).text.toList = (if v.negative then ['-'] else []) ++ (whole ++ ['.', '0'])
  /-- Any other number has the fewest digits that read back. -/
  shortest : (∀ n : ℤ, v.value ≠ n) → ∃ whole fraction, Decimal.Leading whole ∧
    Decimal.Trailing fraction ∧
    (Literal.number v).text.toList =
      (if v.negative then ['-'] else []) ++ (whole ++ '.' :: fraction) ∧
    Binary64.ShortestDecimal v
      (v.signed (Decimal.wholeValue whole + Decimal.fractionValue fraction))
      (Decimal.significantDigits whole fraction)

/-! Digits and values -/

namespace Decimal

theorem digitValue_lt {c : Char} (h : Digit c) : digitValue c < 10 := by
  have hle : c.toNat ≤ '9'.toNat := h.2
  unfold digitValue
  have h9 : '9'.toNat = 57 := rfl
  have h0 : '0'.toNat = 48 := rfl
  omega

theorem digitValue_pos {c : Char} (h : Digit c) (hne : c ≠ '0') : 0 < digitValue c := by
  have hle : '0'.toNat ≤ c.toNat := h.1
  have hneq : c.toNat ≠ '0'.toNat := fun heq => hne (Char.toNat_inj.mp heq)
  unfold digitValue
  omega

theorem ofDigitChars_lt {digits : List Char} (h : ∀ c ∈ digits, Digit c) :
    Nat.ofDigitChars 10 digits 0 < 10 ^ digits.length := by
  induction digits with
  | nil => exact Nat.one_pos
  | cons c digits ih =>
    have hrest := ih fun d hd => h d (List.mem_cons_of_mem c hd)
    have hc := Nat.mul_le_mul_right (10 ^ digits.length)
      (Nat.succ_le_of_lt (digitValue_lt (h c List.mem_cons_self)))
    rw [Nat.succ_mul] at hc
    rw [ofDigitChars_cons_zero, List.length_cons, Nat.pow_succ']
    omega

theorem ofDigitChars_dropWhile (digits : List Char) :
    Nat.ofDigitChars 10 (digits.dropWhile (· = '0')) 0 = Nat.ofDigitChars 10 digits 0 := by
  induction digits with
  | nil => rfl
  | cons c digits ih =>
    by_cases hc : c = '0'
    · rw [hc, List.dropWhile_cons_of_pos (by decide), ih, ofDigitChars_cons_zero,
        show digitValue '0' = 0 from rfl, Nat.zero_mul, Nat.zero_add]
    · rw [List.dropWhile_cons_of_neg (by simpa using hc)]

theorem significantDigits_bounds {whole fraction : List Char}
    (h : ∀ c ∈ whole ++ fraction, Digit c) :
    Nat.ofDigitChars 10 (whole ++ fraction) 0 < 10 ^ significantDigits whole fraction ∧
      ∀ n, significantDigits whole fraction = n + 1 →
        10 ^ n ≤ Nat.ofDigitChars 10 (whole ++ fraction) 0 := by
  have hvalue := ofDigitChars_dropWhile (whole ++ fraction)
  have hdigits : ∀ c ∈ (whole ++ fraction).dropWhile (· = '0'), Digit c :=
    fun c hc => h c ((List.dropWhile_sublist _).subset hc)
  rw [← hvalue]
  refine ⟨ofDigitChars_lt hdigits, ?_⟩
  intro n hn
  unfold significantDigits at hn
  cases hs : (whole ++ fraction).dropWhile (· = '0') with
  | nil =>
    rw [hs] at hn
    cases hn
  | cons c digits =>
    have hhead := List.head?_dropWhile_not (fun x : Char => decide (x = '0')) (whole ++ fraction)
    rw [hs] at hn hdigits hhead
    have hne : c ≠ '0' := by simpa using hhead
    have hpos := digitValue_pos (hdigits c List.mem_cons_self) hne
    obtain rfl : digits.length = n := Nat.succ.inj hn
    rw [ofDigitChars_cons_zero]
    exact Nat.le_add_right_of_le (Nat.le_mul_of_pos_left _ hpos)

/-- A number whose last digit is no zero. -/
theorem not_dvd_ofDigitChars {digits : List Char} (h : ∀ c ∈ digits, Digit c)
    (hne : digits ≠ []) (hlast : digits.getLast? ≠ some '0') :
    ¬ 10 ∣ Nat.ofDigitChars 10 digits 0 := by
  obtain ⟨front, c, rfl⟩ : ∃ front c, digits = front ++ [c] :=
    ⟨digits.dropLast, digits.getLast hne, (List.dropLast_append_getLast hne).symm⟩
  have hc : c ≠ '0' := by simpa using hlast
  have hdigit := h c (List.mem_append_right _ List.mem_cons_self)
  have hpos := digitValue_pos hdigit hc
  have hlt := digitValue_lt hdigit
  rw [Nat.ofDigitChars_append, Nat.ofDigitChars_cons, Nat.ofDigitChars_nil]
  change ¬ 10 ∣ 10 * _ + digitValue c
  omega

/-- Of all ways to write a number, one whose last digit is no zero has the fewest digits. -/
theorem lt_pow_of_not_dvd {m t n i j : Nat} (h : m * 10 ^ i = t * 10 ^ j) (hm : ¬ 10 ∣ m)
    (ht : t ≤ 10 ^ n) (hn : 0 < n) : m < 10 ^ n := by
  rcases Nat.lt_or_ge i j with hlt | hle
  · -- then the last digit would be a zero
    obtain ⟨k, rfl⟩ := Nat.exists_eq_add_of_lt hlt
    refine absurd ⟨t * 10 ^ k, ?_⟩ hm
    apply Nat.eq_of_mul_eq_mul_right (Nat.pow_pos (n := i) (show 0 < 10 by decide))
    rw [h, Nat.pow_succ, Nat.pow_add]
    ring
  · obtain ⟨k, rfl⟩ := Nat.exists_eq_add_of_le hle
    have hvalue : m * 10 ^ k = t := by
      apply Nat.eq_of_mul_eq_mul_right (Nat.pow_pos (n := j) (show 0 < 10 by decide))
      rw [← h, Nat.pow_add]
      ring
    have hle : m ≤ 10 ^ n :=
      calc m ≤ m * 10 ^ k := Nat.le_mul_of_pos_right m (Nat.pow_pos (by decide))
        _ = t := hvalue
        _ ≤ 10 ^ n := ht
    refine Nat.lt_of_le_of_ne hle ?_
    rintro rfl
    exact hm (dvd_pow_self 10 hn.ne')

/-! A decimal that is written -/

theorem lead_toDigits (n : Nat) :
    (Nat.toDigits 10 n).head? = some '0' → Nat.toDigits 10 n = ['0'] := by
  induction n using Nat.strongRecOn with
  | ind n ih =>
    by_cases hn : n < 10
    · rw [Nat.toDigits_of_lt_base hn]
      intro h
      rw [List.head?_cons] at h
      rw [Option.some.inj h]
    · rw [Nat.toDigits_of_base_le (by decide) (Nat.le_of_not_lt hn),
        List.head?_append_of_ne_nil _ Nat.toDigits_ne_nil]
      intro h
      have hzero := congrArg (Nat.ofDigitChars 10 · 0) (ih (n / 10) (by omega) h)
      simp only [Nat.ofDigitChars_ten_toDigits] at hzero
      rw [show Nat.ofDigitChars 10 ['0'] 0 = 0 from rfl] at hzero
      omega

theorem leading_wholeDigits (d : Decimal) : Leading d.wholeDigits where
  digits _ hc := Text.isDigit_iff.mp (isDigit_of_mem_wholeDigits hc)
  ne_nil := d.wholeDigits_ne_nil
  lead := lead_toDigits _

theorem getLast?_fractionDigits {places remainder : Nat} (hsmall : remainder < 10 ^ places) :
    (fractionDigits places remainder).getLast? ≠ some '0' := by
  induction places generalizing remainder with
  | zero => simp [fractionDigits]
  | succ places ih =>
    have hrest : remainder % 10 ^ places < 10 ^ places := Nat.mod_lt _ (Nat.pow_pos (by decide))
    rw [fractionDigits]
    split
    · simp
    next hz =>
      rw [List.getLast?_cons]
      intro h
      cases hlast : (fractionDigits places (remainder % 10 ^ places)).getLast? with
      | some c =>
        rw [hlast] at h
        exact ih hrest (hlast.trans h)
      | none =>
        -- nothing follows, so the digit is all that is left of the number
        rw [hlast] at h
        have hnil := List.getLast?_eq_none_iff.mp hlast
        have hzero := (fractionDigits_eq_nil_iff hrest).mp hnil
        have hdigits : ∀ n < 10, Nat.digitChar n = '0' → n = 0 := by decide
        have hlead := hdigits _ (lead_lt_ten hsmall) (Option.some.inj h)
        have hsplit := Nat.div_add_mod remainder (10 ^ places)
        rw [hlead, hzero] at hsplit
        omega

theorem trailing_fraction {d : Decimal} (h : ¬ 10 ^ d.places ∣ d.digits) :
    Trailing d.fraction := by
  have hne : fractionDigits d.places (d.digits % 10 ^ d.places) ≠ [] := fun hnil =>
    h (Nat.dvd_of_mod_eq_zero ((fractionDigits_eq_nil_iff d.remainder_lt).mp hnil))
  have hfraction : d.fraction = fractionDigits d.places (d.digits % 10 ^ d.places) := by
    unfold fraction
    split
    next hnil => exact absurd hnil hne
    next => rfl
  refine ⟨fun _ hc => Text.isDigit_iff.mp (isDigit_of_mem_fraction hc), d.fraction_ne_nil, ?_⟩
  rw [hfraction]
  exact getLast?_fractionDigits d.remainder_lt

theorem read_text_eq (d : Decimal) :
    read d.text = ⟨Nat.ofDigitChars 10 (d.wholeDigits ++ d.fraction) 0, d.fraction.length⟩ := by
  rw [read, splitPoint_text]

/-- **The digits that are written** have the value of the decimal. -/
theorem value_text (d : Decimal) :
    wholeValue d.wholeDigits + fractionValue d.fraction = d.digits / 10 ^ d.places := by
  have hnumeral : numeral d.wholeDigits d.fraction = d.text := if_neg d.fraction_ne_nil
  rw [numeralValue_eq fun _ hc => Text.isDigit_iff.mp (isDigit_of_mem_wholeDigits hc), hnumeral,
    div_eq_div_iff (by positivity) (by positivity)]
  exact_mod_cast d.read_text

theorem ofDigits_text (d : Decimal) :
    OfDigits (significantDigits d.wholeDigits d.fraction) (d.digits / 10 ^ d.places) := by
  have hdigits : ∀ c ∈ d.wholeDigits ++ d.fraction, Digit c :=
    fun _ hc => Text.isDigit_iff.mp (isDigit_of_mem_digits hc)
  have hlt := (significantDigits_bounds hdigits).1
  have hread := d.read_text
  rw [read_text_eq] at hread
  refine ⟨Nat.ofDigitChars 10 (d.wholeDigits ++ d.fraction) 0, -(d.fraction.length : ℤ), ?_, ?_⟩
  · rw [Nat.abs_cast]
    exact_mod_cast hlt
  · rw [zpow_neg, zpow_natCast, ← div_eq_mul_inv, div_eq_div_iff (by positivity) (by positivity)]
    exact_mod_cast hread.symm

/-- **A text has no more digits** than any multiple of a power of ten that has its value. -/
theorem significantDigits_le {d : Decimal} {t b n : Nat} (hd : d.digits = t * 10 ^ b)
    (ht : t ≤ 10 ^ n) (hn : 0 < n) (h : ¬ 10 ^ d.places ∣ d.digits) :
    significantDigits d.wholeDigits d.fraction ≤ n := by
  have htrailing := trailing_fraction h
  have hdigits : ∀ c ∈ d.wholeDigits ++ d.fraction, Digit c :=
    List.forall_mem_append.mpr ⟨d.leading_wholeDigits.digits, htrailing.digits⟩
  have hlast : (d.wholeDigits ++ d.fraction).getLast? ≠ some '0' := by
    rw [List.getLast?_append_of_ne_nil _ htrailing.ne_nil]
    exact htrailing.last
  have hten := not_dvd_ofDigitChars hdigits
    (List.append_ne_nil_of_right_ne_nil _ htrailing.ne_nil) hlast
  have hread := d.read_text
  rw [read_text_eq, hd, Nat.mul_assoc, ← Nat.pow_add] at hread
  have hlt := lt_pow_of_not_dvd hread hten ht hn
  cases hs : significantDigits d.wholeDigits d.fraction with
  | zero => exact Nat.zero_le n
  | succ s =>
    have hle := (significantDigits_bounds hdigits).2 s hs
    exact (Nat.pow_lt_pow_iff_right (by decide)).mp (Nat.lt_of_le_of_lt hle hlt)

end Decimal

/-! Values of numbers -/

namespace Binary64

variable {v : Binary64} {r s : ℚ}

theorem abs_signed (v : Binary64) (r : ℚ) : |v.signed r| = |r| := by
  unfold signed
  split
  · exact abs_neg r
  · rfl

theorem signed_sub (v : Binary64) (r s : ℚ) : |v.signed r - v.signed s| = |r - s| := by
  unfold signed
  split
  · rw [neg_sub_neg, abs_sub_comm]
  · rfl

theorem magnitude_eq (v : Binary64) :
    v.magnitude = v.exact.digits / 10 ^ v.exact.places := by
  have hunit : (2 : ℚ) ^ unitPlaces ≠ 0 := by positivity
  have hdigits : (v.exact.digits : ℚ) * 2 ^ unitPlaces = v.units * 10 ^ v.exact.places := by
    exact_mod_cast v.exact_digits
  rw [eq_div_iff (by positivity)]
  apply mul_right_cancel₀ hunit
  rw [hdigits, ← magnitude_mul]
  ring

theorem magnitude_nonneg (v : Binary64) : 0 ≤ v.magnitude := by
  rw [magnitude_eq]
  positivity

theorem abs_value (v : Binary64) : |v.value| = v.magnitude := by
  show |v.signed v.magnitude| = v.magnitude
  rw [abs_signed, abs_of_nonneg v.magnitude_nonneg]

/-- **The integers among the numbers.** -/
theorem isIntegral_iff_value : v.isIntegral = true ↔ ∃ n : ℤ, v.value = n := by
  have hunit : (2 : ℚ) ^ unitPlaces ≠ 0 := by positivity
  rw [isIntegral_iff, ← natAbs_signedUnits, ← Int.natCast_dvd]
  have hvalue := v.value_mul
  constructor
  · rintro ⟨n, hn⟩
    refine ⟨n, mul_right_cancel₀ hunit ?_⟩
    rw [hvalue, hn]
    push_cast
    ring
  · rintro ⟨n, hn⟩
    refine ⟨n, ?_⟩
    rw [hn] at hvalue
    have hint : n * ((2 ^ unitPlaces : Nat) : ℤ) = v.signedUnits := by exact_mod_cast hvalue
    rw [← hint, mul_comm]

theorem units_ne_zero (h : v.isIntegral = false) : v.units ≠ 0 := by
  intro hzero
  have hint : v.isIntegral = true := by
    rw [isIntegral_iff, hzero]
    exact dvd_zero _
  rw [h] at hint
  cases hint

theorem abs_ne_zero (h : v.isIntegral = false) : v.abs ≠ zero := by
  intro hzero
  apply units_ne_zero h
  rw [← units_abs, hzero]
  decide

theorem exact_digits_ne_zero (h : v.isIntegral = false) : v.exact.digits ≠ 0 := by
  intro hzero
  have hdigits := v.exact_digits
  rw [hzero, Nat.zero_mul, eq_comm, Nat.mul_eq_zero] at hdigits
  exact units_ne_zero h (hdigits.resolve_right v.exact.ten_pow_pos.ne')

/-! Signed rationals -/

/-- A rational that is rounded to a number has its sign. -/
theorem RoundsTo.eq_signed (h : RoundsTo r v) : r = v.signed |r| := by
  unfold signed
  split
  next hsign => rw [abs_of_neg (h.sign.mpr hsign), neg_neg]
  next hsign => rw [abs_of_nonneg (le_of_not_gt fun hneg => hsign (h.sign.mp hneg))]

theorem roundsTo_signed (hr : 0 < r) (h : IsNearest r v.abs) : RoundsTo (v.signed r) v where
  magnitude := by
    rw [abs_signed, abs_of_pos hr]
    exact h
  sign := by
    unfold signed
    split
    next hsign => exact iff_of_true (neg_lt_zero.mpr hr) hsign
    next hsign => exact iff_of_false hr.not_gt hsign

theorem ofDigits_signed {k : Nat} (v : Binary64) (h : Decimal.OfDigits k r) :
    Decimal.OfDigits k (v.signed r) := by
  obtain ⟨m, e, hm, rfl⟩ := h
  unfold signed
  split
  · exact ⟨-m, e, by rwa [abs_neg], by rw [Int.cast_neg, neg_mul]⟩
  · exact ⟨m, e, hm, rfl⟩

theorem exists_abs_eq {k : Nat} (h : Decimal.OfDigits k r) (places : Nat) :
    ∃ (m : Nat) (e : ℤ), m < 10 ^ k ∧ |r| = m * 10 ^ e / 10 ^ places := by
  obtain ⟨m, e, hm, rfl⟩ := h
  refine ⟨m.natAbs, e + places, ?_, ?_⟩
  · zify
    exact_mod_cast hm
  · have hpow : (10 : ℚ) ^ places ≠ 0 := by positivity
    rw [abs_mul, abs_of_pos (zpow_pos (show (0 : ℚ) < 10 by norm_num) e),
      zpow_add₀ (by norm_num), zpow_natCast, ← mul_assoc, mul_div_cancel_right₀ _ hpow,
      Nat.cast_natAbs, Int.cast_abs]

/-! The text of a number -/

/-- **The digits that are written are the shortest decimal.** -/
theorem shortestDecimal_shortest (hfinite : v.isFinite = true) (h : v.isIntegral = false) :
    ShortestDecimal v (v.signed (v.shortest.digits / 10 ^ v.shortest.places))
      (Decimal.significantDigits v.shortest.wholeDigits v.shortest.fraction) := by
  have hzero := abs_ne_zero h
  have hback : v.readsBack v.exact = true := beq_iff_eq.mpr (nearest_exact hfinite)
  obtain ⟨n, hfewest⟩ := fewest_shortenFrom hback (exact_digits_ne_zero h) hzero
  rw [← shortest] at hfewest
  obtain ⟨t, b, ht, hform⟩ := hfewest.multiple
  have hnot : ¬ 10 ^ v.shortest.places ∣ v.shortest.digits :=
    Decimal.point_mem_plain_iff.mp ((point_mem_plain_shortest hfinite).mpr h)
  have hle := Decimal.significantDigits_le (congrArg Decimal.digits hform) ht hfewest.positive hnot
  have hnearest : IsNearest (v.shortest.digits / 10 ^ v.shortest.places) v.abs :=
    readsBack_iff.mp (beq_iff_eq.mpr (nearest_shortest hfinite))
  have hpos : (0 : ℚ) < v.shortest.digits / 10 ^ v.shortest.places := by
    refine lt_of_le_of_ne (by positivity) fun heq => ?_
    rw [← heq] at hnearest
    exact hzero (eq_zero_of_isNearest_zero hnearest)
  constructor
  case rounds => exact roundsTo_signed hpos hnearest
  case digits => exact ofDigits_signed v (Decimal.ofDigits_text v.shortest)
  case fewest =>
    intro k s hs hround
    obtain ⟨m, e, hm, habs⟩ := exists_abs_eq hs v.exact.places
    exact hle.trans (hfewest.fewest k m e hm (habs ▸ hround.magnitude))
  case closest =>
    intro s hs hround
    obtain ⟨m, e, hm, habs⟩ := exists_abs_eq hs v.exact.places
    have hlt := Nat.lt_of_lt_of_le hm (Nat.pow_le_pow_right (by decide) hle)
    have hgap := hfewest.closest m e hlt (habs ▸ hround.magnitude)
    rw [hround.eq_signed, show v.value = v.signed v.magnitude from rfl, signed_sub, signed_sub,
      habs, magnitude_eq, congrArg Decimal.places hform, ← sub_div, ← sub_div, abs_div, abs_div]
    exact div_le_div_of_nonneg_right hgap (abs_nonneg _)

end Binary64

/-- **Every finite number is written** with all its digits and `.0` if it is an integer, and with
the shortest decimal that reads back if it is not. -/
theorem printedNumber_text {v : Binary64} (h : v.isFinite = true) : PrintedNumber v where
  integer := by
    intro n hn
    have hint := Binary64.isIntegral_iff_value.mpr ⟨n, hn⟩
    have hplaces := Binary64.places_of_isIntegral hint
    refine ⟨v.exact.wholeDigits, v.exact.leading_wholeDigits, ?_, ?_⟩
    · rw [Binary64.abs_value, Binary64.magnitude_eq, Decimal.wholeValue_eq, Decimal.wholeDigits,
        Nat.ofDigitChars_ten_toDigits, hplaces, Nat.pow_zero, Nat.div_one, pow_zero, div_one]
    · rw [Binary64.toList_text_number h, Binary64.text_decimal h, if_pos hint, Binary64.sign]
  shortest := by
    intro hno
    have hnot : v.isIntegral = false := by
      rw [← Bool.not_eq_true, Binary64.isIntegral_iff_value, not_exists]
      exact hno
    have hpoint := Decimal.point_mem_plain_iff.mp ((Binary64.point_mem_plain_shortest h).mpr hnot)
    refine ⟨v.shortest.wholeDigits, v.shortest.fraction, v.shortest.leading_wholeDigits,
      Decimal.trailing_fraction hpoint, ?_, ?_⟩
    · rw [Binary64.toList_text_number h, Binary64.decimal, hnot, Binary64.sign]
      rfl
    · rw [Decimal.value_text]
      exact Binary64.shortestDecimal_shortest h hnot

/-- A negative power of two, whose neighbours are not equally far away. -/
theorem printedNumber_text_normal :
    Binary64.isFinite ⟨true, 1, 0⟩ = true ∧ PrintedNumber ⟨true, 1, 0⟩ :=
  ⟨by decide, printedNumber_text (by decide)⟩

end SeqScan
