import SeqScan.Proofs.NumberValue

/-
  The rationals that are rounded to one number.

  They are an interval: what lies between two of them is rounded as they are. Its ends are
  half way to the neighbours of the number, on either side at a distance of its own, and
  belong to it if the fraction is even. No two neighbours have even fractions, so every
  rational is rounded to one number alone, and a decimal reads back as a number just if its
  value is in the interval.

  What is proved:
    1. `IsNearest.convex`: what lies between two rationals of one number is rounded to it.
    2. `exists_between`: between two numbers with even fractions there is another.
    3. `IsNearest.unique`: a rational is rounded to one number alone.
    4. `readsBack_iff`: the decimals that read back are those whose value is in the interval.
-/

namespace SeqScan

namespace Binary64

/-! Between two rationals -/

section

variable {a b q : ℚ}

theorem abs_sub_le_iff_of_lt (h : a < b) : |a - q| ≤ |b - q| ↔ 2 * q ≤ a + b := by
  rw [← sq_le_sq]
  constructor
  · intro hsq
    nlinarith
  · intro hmid
    nlinarith

theorem abs_sub_le_iff_of_gt (h : b < a) : |a - q| ≤ |b - q| ↔ a + b ≤ 2 * q := by
  rw [← sq_le_sq]
  constructor
  · intro hsq
    nlinarith
  · intro hmid
    nlinarith

end

/-- **What lies between** two rationals that are rounded to a number is rounded to it. -/
theorem IsNearest.convex {v : Binary64} {x y z : ℚ} (hx : IsNearest x v) (hz : IsNearest z v)
    (hxy : x ≤ y) (hyz : y ≤ z) : IsNearest y v where
  not_nan := hx.not_nan
  not_negative := hx.not_negative
  infinite := ⟨fun h => (hx.infinite.mp h).trans hxy, fun h => hz.infinite.mpr (h.trans hyz)⟩
  zero := ⟨fun h => hyz.trans (hz.zero.mp h), fun h => hx.zero.mpr (hxy.trans h)⟩
  finite := ⟨fun h => hyz.trans_lt (hz.finite.mp h), fun h => hx.finite.mpr (hxy.trans_lt h)⟩
  closest := by
    intro h w hw
    have hxw := hx.closest h w hw
    have hzw := hz.closest h w hw
    obtain hlt | heq | hgt := lt_trichotomy v.value w.value
    · rw [abs_sub_le_iff_of_lt hlt] at hzw ⊢
      linarith
    · rw [heq]
    · rw [abs_sub_le_iff_of_gt hgt] at hxw ⊢
      linarith
  even := by
    intro h w hw htie hne
    obtain hlt | hgt := lt_or_gt_of_ne hne.symm
    · -- `y` is half way to a greater number, so `z` is not beyond it
      have hmid := (abs_sub_le_iff_of_gt hlt).mp htie.ge
      have hlimit := (abs_sub_le_iff_of_lt hlt).mp (hz.closest h w hw)
      obtain rfl : y = z := by linarith
      exact hz.even h w hw htie hne
    · have hmid := (abs_sub_le_iff_of_lt hgt).mp htie.ge
      have hlimit := (abs_sub_le_iff_of_gt hgt).mp (hx.closest h w hw)
      obtain rfl : x = y := by linarith
      exact hx.even h w hw htie hne

/-! Neighbours -/

variable {v w : Binary64}

theorem value_lt_iff (hv : v.negative = false) (hw : w.negative = false) :
    v.value < w.value ↔ v.units < w.units := by
  have hunit : (0 : ℚ) < (2 ^ unitPlaces)⁻¹ := by positivity
  rw [value_eq, value_eq, mul_lt_mul_iff_left₀ hunit, signedUnits, signedUnits, hv, hw,
    if_neg Bool.false_ne_true, if_neg Bool.false_ne_true]
  norm_cast

theorem eq_of_units_eq (hv : v.isFinite = true) (hw : w.isFinite = true)
    (hvn : v.negative = false) (hwn : w.negative = false) (h : v.units = w.units) : v = w := by
  have habs : ∀ u : Binary64, u.negative = false → u.abs = u := by
    intro u hu
    rw [abs, ← hu]
  rw [← habs v hvn, ← habs w hwn, ← ofUnits_units hv, ← ofUnits_units hw, h]

/-- A greater number has no finer grid. -/
theorem scale_le_of_units_lt (h : v.units < w.units) : v.scale ≤ w.scale := by
  apply Nat.le_of_not_lt
  intro hlt
  have hnormal : fractionCount ≤ v.significand := by
    have hne : v.exponent.val ≠ 0 := by
      intro hz
      simp only [scale, hz] at hlt
      omega
    rw [significand, if_neg hne]
    exact Nat.le_add_right _ _
  have hpow : 2 ^ w.scale * 2 ≤ 2 ^ v.scale := by
    rw [← Nat.pow_succ]
    exact Nat.pow_le_pow_right (by decide) hlt
  have hle : w.units ≤ v.units :=
    calc w.units ≤ 2 * fractionCount * 2 ^ w.scale :=
          Nat.mul_le_mul_right _ w.significand_lt.le
      _ = fractionCount * (2 ^ w.scale * 2) := by
          rw [Nat.mul_comm 2, Nat.mul_assoc, Nat.mul_comm 2]
      _ ≤ fractionCount * 2 ^ v.scale := Nat.mul_le_mul_left _ hpow
      _ ≤ v.units := Nat.mul_le_mul_right _ hnormal
  omega

/-- **Between two numbers with even fractions** there is another, the one next to the lesser. -/
theorem exists_between (hv : v.isFinite = true) (hw : w.isFinite = true)
    (hwn : w.negative = false) (hveven : v.fraction.val % 2 = 0)
    (hweven : w.fraction.val % 2 = 0) (h : v.units < w.units) :
    ∃ u : Binary64, u.isFinite = true ∧ u.negative = false ∧ v.units < u.units ∧
      u.units < w.units := by
  have hfraction : v.fraction.val + 1 < fractionCount := by
    have := v.fraction.isLt
    simp only [fractionCount] at this ⊢
    omega
  obtain ⟨u, hu⟩ : ∃ u : Binary64, u = ⟨false, v.exponent, ⟨v.fraction.val + 1, hfraction⟩⟩ :=
    ⟨_, rfl⟩
  have hufin : u.isFinite = true := by
    rw [hu]
    exact hv
  have hnext : u.units = v.units + 2 ^ v.scale := by
    rw [hu]
    simp only [units, significand, scale]
    split
    · rw [Nat.succ_mul]
    · rw [← Nat.add_assoc, Nat.succ_mul]
  have hstep : 0 < 2 ^ v.scale := Nat.pow_pos (by decide)
  -- both counts are on the grid of the lesser number
  have hgrid : 2 ^ v.scale ∣ w.units - v.units := by
    refine Nat.dvd_sub ?_ (Nat.dvd_mul_left _ _)
    exact Nat.dvd_trans (Nat.pow_dvd_pow 2 (scale_le_of_units_lt h)) (Nat.dvd_mul_left _ _)
  have hle := Nat.le_of_dvd (Nat.sub_pos_of_lt h) hgrid
  have hne : u.units ≠ w.units := by
    intro heq
    have hsame := eq_of_units_eq hufin hw (by rw [hu]) hwn heq
    rw [← hsame, hu] at hweven
    simp only at hweven
    omega
  exact ⟨u, hufin, by rw [hu], by omega, by omega⟩

/-- **A rational is rounded to one number alone.** -/
theorem IsNearest.unique {q : ℚ} (hv : IsNearest q v) (hw : IsNearest q w) : v = w := by
  by_cases hfin : v.isFinite = true
  · have hwfin : w.isFinite = true := hw.finite.mpr (hv.finite.mp hfin)
    -- a lesser of the two would not be nearest, as there is another number between them
    have hnot : ∀ v w : Binary64, IsNearest q v → IsNearest q w → v.isFinite = true →
        w.isFinite = true → ¬ v.units < w.units := by
      intro v w hv hw hfin hwfin hlt
      have hvalue := (value_lt_iff hv.not_negative hw.not_negative).mpr hlt
      have htie := le_antisymm (hv.closest hfin w hwfin) (hw.closest hwfin v hfin)
      have hveven := hv.even hfin w hwfin htie hvalue.ne'
      have hweven := hw.even hwfin v hfin htie.symm hvalue.ne
      obtain ⟨u, hufin, hun, hvu, huw⟩ :=
        exists_between hfin hwfin hw.not_negative hveven hweven hlt
      have hvu := (value_lt_iff hv.not_negative hun).mpr hvu
      have huw := (value_lt_iff hun hw.not_negative).mpr huw
      have hmid := (abs_sub_le_iff_of_gt hvalue).mp htie.ge
      have hlimit := (abs_sub_le_iff_of_lt hvu).mp (hv.closest hfin u hufin)
      linarith
    have hunits := Nat.le_antisymm (Nat.le_of_not_lt (hnot w v hw hv hwfin hfin))
      (Nat.le_of_not_lt (hnot v w hv hw hfin hwfin))
    exact eq_of_units_eq hfin hwfin hv.not_negative hw.not_negative hunits
  · have hlimit := le_of_not_gt fun hlt => hfin (hv.finite.mpr hlt)
    rw [hv.infinite.mpr hlimit, hw.infinite.mpr hlimit]

/-- A decimal reads back as a number if its value is rounded to it. -/
theorem readsBack_iff {d : Decimal} :
    v.readsBack d = true ↔ IsNearest (d.digits / 10 ^ d.places) v.abs := by
  rw [readsBack, beq_iff_eq]
  constructor
  · intro h
    rw [← h]
    exact isNearest_nearest d
  · exact (isNearest_nearest d).unique

end Binary64

end SeqScan
