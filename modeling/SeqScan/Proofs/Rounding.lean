import SeqScan.Binary64.Text

/-
  Rounding and representable numbers.

  A decimal is rounded as an exact quotient, so its value is all that matters, and not
  how it is written: `1.50` and `1.5` are rounded to one number. The magnitude of a finite
  number is a multiple of the spacing around it, and is rounded to itself. Since the
  exact decimal of a number has its value, it reads back as the number, and so does what
  the search for a shorter one finds.

  What is proved:
    1. `nearest_congr`: decimals of one value are rounded alike.
    2. `nearest_exact`, `nearest_decimal`: the exact decimal of a finite number and the
       one that is written read back as it, whatever its sign.
    3. `isIntegral_of_nearest`: an integer is rounded to an integer.
-/

namespace SeqScan

/-! Quotients -/

theorem roundHalfEven_mul_right (num den : Nat) {k : Nat} (hk : 0 < k) :
    roundHalfEven (num * k) (den * k) = roundHalfEven num den := by
  have hlt : ∀ a b : Nat, a * k < b * k ↔ a < b := fun a b => Nat.mul_lt_mul_right hk
  simp only [roundHalfEven, Nat.mul_div_mul_right num den hk, Nat.mul_mod_mul_right,
    ← Nat.mul_assoc, hlt]

theorem Decimal.ten_pow_pos (d : Decimal) : 0 < 10 ^ d.places := Nat.pow_pos (by decide)

theorem roundHalfEven_whole (q : Nat) {den : Nat} (hden : 0 < den) :
    roundHalfEven (q * den) den = q := by
  simp only [roundHalfEven, Nat.mul_div_cancel q hden, Nat.mul_mod_left, Nat.mul_zero, hden,
    if_true]

namespace Binary64

theorem nearestUnits_mul_right (num den : Nat) {k : Nat} (hk : 0 < k) :
    nearestUnits (num * k) (den * k) = nearestUnits num den := by
  rw [nearestUnits, nearestUnits, Nat.mul_div_mul_right num den hk, Nat.mul_right_comm den k,
    roundHalfEven_mul_right num _ hk]

theorem nearestUnits_congr {a b c d : Nat} (hb : 0 < b) (hd : 0 < d) (h : a * d = c * b) :
    nearestUnits a b = nearestUnits c d :=
  calc nearestUnits a b
      = nearestUnits (a * d) (b * d) := (nearestUnits_mul_right a b hd).symm
    _ = nearestUnits (c * b) (d * b) := by rw [h, Nat.mul_comm b]
    _ = nearestUnits c d := nearestUnits_mul_right c d hb

/-- **Decimals of one value are rounded alike.** -/
theorem nearest_congr {a b : Decimal} (h : a.digits * 10 ^ b.places = b.digits * 10 ^ a.places) :
    nearest a = nearest b := by
  have hunits := nearestUnits_congr a.ten_pow_pos b.ten_pow_pos
    (show a.digits * 2 ^ unitPlaces * 10 ^ b.places = b.digits * 2 ^ unitPlaces * 10 ^ a.places by
      rw [Nat.mul_right_comm, h, Nat.mul_right_comm])
  rw [nearest, nearest, hunits]

/-! The grid around a count -/

abbrev fractionBits : Nat := 52

theorem two_pow_fractionBits : 2 ^ fractionBits = fractionCount := by decide

theorem two_pow_add (k : Nat) : 2 ^ (fractionBits + 1 + k) = 2 * fractionCount * 2 ^ k := by
  rw [Nat.pow_add, Nat.pow_succ, two_pow_fractionBits, Nat.mul_comm fractionCount]

theorem log2_lt_iff {count : Nat} (k : Nat) :
    count.log2 < fractionBits + 1 + k ↔ count < 2 * fractionCount * 2 ^ k := by
  rw [← two_pow_add]
  by_cases hz : count = 0
  · rw [hz]
    exact iff_of_true (Nat.add_pos_left (by decide) k) (Nat.pow_pos (by decide))
  · exact Nat.log2_lt hz

theorem spacing_pos (count : Nat) : 0 < spacing count := Nat.pow_pos (by decide)

/-- Either the grid is that of all integers, or a count has 53 bits and `k` more, and its
grid leaves out as many. -/
theorem spacing_cases (count : Nat) :
    (count.log2 < fractionBits ∧ count < fractionCount ∧ spacing count = 1) ∨
      ∃ k, count.log2 = fractionBits + k ∧ spacing count = 2 ^ k ∧
        fractionCount * 2 ^ k ≤ count ∧ count < 2 * fractionCount * 2 ^ k := by
  by_cases hsmall : count.log2 < fractionBits
  · have hlt : count < 2 ^ fractionBits :=
      Nat.lt_of_lt_of_le Nat.lt_log2_self (Nat.pow_le_pow_right (by decide) hsmall)
    rw [two_pow_fractionBits] at hlt
    refine .inl ⟨hsmall, hlt, ?_⟩
    rw [spacing, Nat.sub_eq_zero_of_le (Nat.le_of_lt hsmall), Nat.pow_zero]
  · obtain ⟨k, hk⟩ : ∃ k, count.log2 = fractionBits + k :=
      Nat.exists_eq_add_of_le (Nat.le_of_not_lt hsmall)
    have hne : count ≠ 0 := by
      rintro rfl
      exact hsmall (by decide)
    obtain ⟨hlow, hhigh⟩ := (Nat.log2_eq_iff hne).mp hk
    rw [Nat.pow_succ, Nat.pow_add, two_pow_fractionBits, Nat.mul_right_comm,
      Nat.mul_comm fractionCount] at hhigh
    rw [Nat.pow_add, two_pow_fractionBits] at hlow
    exact .inr ⟨k, hk, by rw [spacing, hk, Nat.add_sub_cancel_left], hlow, hhigh⟩

theorem spacing_dvd {count k : Nat} (h : count.log2 < fractionBits + 1 + k) :
    spacing count ∣ 2 ^ k := by
  apply Nat.pow_dvd_pow
  simp only [fractionBits] at h
  omega

/-- What is on the grid is rounded to itself. -/
theorem nearestUnits_mul {count den : Nat} (hden : 0 < den) (h : spacing count ∣ count) :
    nearestUnits (count * den) den = count := by
  have hstep := Nat.mul_pos hden (spacing_pos count)
  rw [nearestUnits, Nat.mul_div_cancel count hden]
  calc roundHalfEven (count * den) (den * spacing count) * spacing count
      = roundHalfEven (count / spacing count * (den * spacing count)) (den * spacing count) *
          spacing count := by
        rw [Nat.mul_comm den, ← Nat.mul_assoc, Nat.div_mul_cancel h]
    _ = count := by rw [roundHalfEven_whole _ hstep, Nat.div_mul_cancel h]

/-! Finite numbers are on their grid -/

theorem log2_units_lt (v : Binary64) : v.units.log2 < fractionBits + 1 + v.scale := by
  rw [log2_lt_iff, units]
  exact Nat.mul_lt_mul_of_pos_right v.significand_lt (Nat.pow_pos (by decide))

theorem spacing_dvd_units (v : Binary64) : spacing v.units ∣ v.units :=
  Nat.dvd_trans (spacing_dvd v.log2_units_lt) (Nat.dvd_mul_left _ _)

/-! Counts and fields -/

theorem log2_mul_two_pow {m : Nat} (hlow : fractionCount ≤ m) (hhigh : m < 2 * fractionCount)
    (k : Nat) : (m * 2 ^ k).log2 = fractionBits + k := by
  have hpos : 0 < 2 ^ k := Nat.pow_pos (by decide)
  have hne : m * 2 ^ k ≠ 0 := Nat.mul_ne_zero (by omega) (Nat.ne_of_gt hpos)
  rw [Nat.log2_eq_iff hne, Nat.pow_succ, Nat.pow_add, two_pow_fractionBits]
  constructor
  · exact Nat.mul_le_mul_right _ hlow
  · rw [Nat.mul_right_comm, Nat.mul_comm _ 2]
    exact Nat.mul_lt_mul_of_pos_right hhigh hpos

theorem exponent_lt {v : Binary64} (h : v.isFinite = true) : v.exponent.val < 2047 := by
  have hne : v.exponent.val ≠ 2047 := bne_iff_ne.mp h
  have hlt := v.exponent.isLt
  simp only [exponentCount] at hlt
  omega

/-- **A finite number is the one of its count**, but for the sign. -/
theorem ofUnits_units {v : Binary64} (h : v.isFinite = true) : ofUnits v.units = v.abs := by
  have hexponent := exponent_lt h
  obtain ⟨negative, ⟨exponent, he⟩, ⟨fraction, hf⟩⟩ := v
  cases exponent with
  | zero =>
    -- a subnormal number is its fraction
    have hunits : units ⟨negative, ⟨0, he⟩, ⟨fraction, hf⟩⟩ = fraction := Nat.mul_one fraction
    have hlog : fraction.log2 < 52 := by
      by_cases hz : fraction = 0
      · rw [hz]
        decide
      · exact (Nat.log2_lt hz).mpr hf
    rw [hunits, ofUnits, if_pos hlog, ofFields, abs]
    simp only [Nat.zero_mod, Nat.mod_eq_of_lt hf]
  | succ k =>
    have hunits : units ⟨negative, ⟨k + 1, he⟩, ⟨fraction, hf⟩⟩ =
        (fractionCount + fraction) * 2 ^ k := rfl
    have hlog : ((fractionCount + fraction) * 2 ^ k).log2 = fractionBits + k :=
      log2_mul_two_pow (by omega) (by omega) k
    have hspacing : spacing ((fractionCount + fraction) * 2 ^ k) = 2 ^ k := by
      rw [spacing, hlog, Nat.add_sub_cancel_left]
    have hk : k + 1 < 2047 := hexponent
    rw [hunits, ofUnits, hspacing, hlog, Nat.mul_div_cancel _ (Nat.pow_pos (by decide)),
      if_neg (by simp only [fractionBits]; omega), if_pos (by simp only [fractionBits]; omega),
      ofFields, abs]
    have hfield : fractionBits + k - 51 = k + 1 := by simp only [fractionBits]; omega
    simp only [hfield, Nat.mod_eq_of_lt he, Nat.add_mod_left, Nat.mod_eq_of_lt hf]

theorem units_ofUnits {count : Nat} (h : count.log2 < 2098) :
    (ofUnits count).units = count / spacing count * spacing count := by
  obtain ⟨hsmall, hlt, hspacing⟩ | ⟨k, hk, hspacing, hlow, hhigh⟩ := spacing_cases count
  · rw [ofUnits, if_pos hsmall, hspacing, Nat.div_one]
    show count % fractionCount * 1 = count * 1
    rw [Nat.mod_eq_of_lt hlt]
  · have hpos : 0 < 2 ^ k := Nat.pow_pos (by decide)
    have hsmall : ¬ count.log2 < 52 := by simp only [hk, fractionBits]; omega
    -- the leading 53 bits
    obtain ⟨q, hq⟩ : ∃ q, count / 2 ^ k = q := ⟨_, rfl⟩
    have hqlow : fractionCount ≤ q := by
      rw [← hq]
      exact (Nat.le_div_iff_mul_le hpos).mpr hlow
    have hqhigh : q < 2 * fractionCount := by
      rw [← hq, Nat.div_lt_iff_lt_mul hpos]
      exact hhigh
    have hk' : k + 1 < exponentCount := by
      simp only [hk, fractionBits] at h
      simp only [exponentCount]
      omega
    have hexponent : fractionBits + k - 51 = k + 1 := by simp only [fractionBits]; omega
    have hfraction : fractionCount + q % fractionCount = q := by
      rw [Nat.mod_eq_sub_mod hqlow, Nat.mod_eq_of_lt (by omega)]
      omega
    rw [ofUnits, if_neg hsmall, if_pos h, hspacing, hk, hexponent, hq]
    simp only [units, significand, scale, ofFields, Nat.mod_eq_of_lt hk', Nat.add_one_ne_zero,
      if_false, hfraction, Nat.add_sub_cancel]

/-! Reading back -/

theorem nearest_exact {v : Binary64} (h : v.isFinite = true) : nearest v.exact = v.abs := by
  rw [nearest, exact_digits, nearestUnits_mul v.exact.ten_pow_pos v.spacing_dvd_units,
    ofUnits_units h]

theorem nearest_shortest {v : Binary64} (h : v.isFinite = true) : nearest v.shortest = v.abs :=
  eq_of_beq (readsBack_shortenFrom (beq_iff_eq.mpr (nearest_exact h)) _)

/-- **The decimal that is written for a finite number reads back** as its magnitude. -/
theorem nearest_decimal {v : Binary64} (h : v.isFinite = true) : nearest v.decimal = v.abs := by
  unfold decimal
  split
  · exact nearest_exact h
  · exact nearest_shortest h

/-! Integers -/

theorem odd_lowestTerms {v : Binary64} (h : v.lowestTerms.2 ≠ 0) : v.lowestTerms.1 % 2 = 1 := by
  unfold lowestTerms at h ⊢
  split
  next hle =>
    rw [if_pos hle] at h
    exact absurd rfl h
  next hlt =>
    rw [if_neg hlt] at h
    exact odd_of_halve h

/-- A number is an integer if its count is a multiple of that of one. -/
theorem isIntegral_iff {v : Binary64} : v.isIntegral = true ↔ 2 ^ unitPlaces ∣ v.units := by
  have hone : 0 < 2 ^ unitPlaces := Nat.pow_pos (by decide)
  have hvalue := v.lowestTerms_value
  have hplaces : v.isIntegral = true ↔ v.lowestTerms.2 = 0 := beq_iff_eq
  rw [hplaces]
  constructor
  · intro h
    rw [h, Nat.pow_zero, Nat.mul_one] at hvalue
    exact ⟨_, hvalue.symm.trans (Nat.mul_comm _ _)⟩
  · rintro ⟨m, hm⟩
    apply Decidable.byContradiction
    intro hne
    have hodd := odd_lowestTerms hne
    -- the numerator is `m`, doubled once for each place
    have hnum : v.lowestTerms.1 = m * 2 ^ v.lowestTerms.2 := by
      apply Nat.eq_of_mul_eq_mul_right hone
      rw [hvalue, hm, Nat.mul_comm _ m, Nat.mul_right_comm]
    obtain ⟨p, hp⟩ := Nat.exists_eq_succ_of_ne_zero hne
    rw [hp, Nat.pow_succ, ← Nat.mul_assoc] at hnum
    omega

theorem spacing_dvd_or (count k : Nat) : spacing count ∣ 2 ^ k ∨ 2 ^ k ∣ spacing count := by
  rcases Nat.le_total (count.log2 - 52) k with h | h
  · exact .inl (Nat.pow_dvd_pow 2 h)
  · exact .inr (Nat.pow_dvd_pow 2 h)

/-- What is rounded from a whole number of ones is a whole number of ones: either the
grid there is finer than one, or all of it is whole. -/
theorem dvd_nearestUnits (n : Nat) : 2 ^ unitPlaces ∣ nearestUnits (n * 2 ^ unitPlaces) 1 := by
  have hn : 2 ^ unitPlaces ∣ n * 2 ^ unitPlaces := Nat.dvd_mul_left _ n
  rcases spacing_dvd_or (n * 2 ^ unitPlaces) unitPlaces with hfine | hcoarse
  · have hgrid := nearestUnits_mul Nat.one_pos (Nat.dvd_trans hfine hn)
    rw [Nat.mul_one] at hgrid
    rw [hgrid]
    exact hn
  · rw [nearestUnits, Nat.div_one]
    exact Nat.dvd_trans hcoarse (Nat.dvd_mul_left _ _)

theorem dvd_units_ofUnits {count : Nat} (h : 2 ^ unitPlaces ∣ count) (hlog : count.log2 < 2098) :
    2 ^ unitPlaces ∣ (ofUnits count).units := by
  rw [units_ofUnits hlog]
  rcases spacing_dvd_or count unitPlaces with hfine | hcoarse
  · rw [Nat.div_mul_cancel (Nat.dvd_trans hfine h)]
    exact h
  · exact Nat.dvd_trans hcoarse (Nat.dvd_mul_left _ _)

theorem ofUnits_of_le {count : Nat} (h : 2098 ≤ count.log2) : ofUnits count = infinity := by
  rw [ofUnits, if_neg (by omega), if_neg (by omega)]

theorem isFinite_ofUnits_iff {count : Nat} :
    (ofUnits count).isFinite = true ↔ count.log2 < 2098 := by
  constructor
  · intro h
    apply Nat.lt_of_not_le
    intro hlog
    rw [ofUnits_of_le hlog] at h
    exact absurd h (by decide)
  · intro h
    have hlow : (count.log2 - 51) % exponentCount ≠ 2047 := by
      simp only [exponentCount]
      omega
    unfold ofUnits
    split
    · rfl
    · simp [isFinite, ofFields, hlow]

/-- **An integer is rounded to an integer**, if it is rounded to a finite number. -/
theorem isIntegral_of_nearest {v : Binary64} {d : Decimal} (h : v.isFinite = true)
    (hd : nearest d = v.abs) (hwhole : 10 ^ d.places ∣ d.digits) : v.isIntegral = true := by
  obtain ⟨n, hn⟩ := hwhole
  have hint : nearest d = nearest ⟨n, 0⟩ := nearest_congr (by
    show d.digits * 10 ^ 0 = n * 10 ^ d.places
    rw [hn, Nat.pow_zero, Nat.mul_one, Nat.mul_comm])
  rw [hint, nearest, Nat.pow_zero] at hd
  have hfinite : (ofUnits (nearestUnits (n * 2 ^ unitPlaces) 1)).isFinite = true := by
    rw [hd]
    exact h
  have hdvd := dvd_units_ofUnits (dvd_nearestUnits n) (isFinite_ofUnits_iff.mp hfinite)
  rw [hd, units_abs] at hdvd
  exact isIntegral_iff.mpr hdvd

end Binary64

end SeqScan
