import Mathlib.Algebra.Order.Field.Rat
import Mathlib.Data.Nat.Cast.Order.Field
import Mathlib.Tactic.FieldSimp
import Mathlib.Tactic.Linarith
import Mathlib.Tactic.Positivity
import SeqScan.Proofs.Rounding

/-
  The nearest representable number.

  A quotient is rounded on the grid that belongs to its integer part. No representable
  number above the power of two below it is off that grid, and those below that power are
  farther away than the power itself, which is on the grid. So what is nearest on the grid
  is nearest of all, and of two equally near numbers the one taken is an even multiple of
  the spacing. Its fraction is even then, also when the leading bits were rounded up to the
  next power of two.

  What is proved:
    1. `nearestIn_roundHalfEven`: of the integers the nearest is taken, and an even one if
       another is as near.
    2. `nearestIn_nearestUnits`: so it is of the representable counts.
    3. `units_ofUnits_nearestUnits`: the count that is taken is one of 53 bits.
    4. `even_fraction`: an even multiple of the spacing has an even fraction.
    5. `two_pow_le_nearestUnits_iff`, `nearestUnits_eq_zero_iff`: from where on a power of
       two is reached, and where zero is left.
-/

namespace SeqScan

/-! The nearest integer -/

/-- Of the numbers in `S` none is nearer to `x` than `c`, and `even` holds if another one is
as near. -/
structure NearestIn (S : ℚ → Prop) (x c : ℚ) (even : Prop) : Prop where
  closest : ∀ y, S y → |c - x| ≤ |y - x|
  even_of_tie : ∀ y, S y → y ≠ c → |c - x| = |y - x| → even

namespace NearestIn

variable {S T : ℚ → Prop} {x c : ℚ} {even : Prop}

theorem scale (h : NearestIn S x c even) {s : ℚ} (hs : 0 < s) :
    NearestIn (fun y => ∃ z, S z ∧ y = z * s) (x * s) (c * s) even where
  closest := by
    rintro _ ⟨z, hz, rfl⟩
    rw [← sub_mul, ← sub_mul, abs_mul, abs_mul]
    exact mul_le_mul_of_nonneg_right (h.closest z hz) (abs_nonneg s)
  even_of_tie := by
    rintro _ ⟨z, hz, rfl⟩ hne htie
    rw [← sub_mul, ← sub_mul, abs_mul, abs_mul] at htie
    have hz' : z ≠ c := by
      rintro rfl
      exact hne rfl
    exact h.even_of_tie z hz hz' (mul_right_cancel₀ (abs_pos.mpr hs.ne').ne' htie)

/-- More numbers do not matter if they are farther away than those there are. -/
theorem extend (h : NearestIn S x c even)
    (hT : ∀ y, T y → S y ∨ ∃ z, S z ∧ |z - x| < |y - x|) : NearestIn T x c even where
  closest y hy := by
    obtain hS | ⟨z, hz, hlt⟩ := hT y hy
    · exact h.closest y hS
    · exact (h.closest z hz).trans hlt.le
  even_of_tie y hy hne htie := by
    obtain hS | ⟨z, hz, hlt⟩ := hT y hy
    · exact h.even_of_tie y hS hne htie
    · exact absurd htie (lt_of_le_of_lt (h.closest z hz) hlt).ne

theorem imp {p : Prop} (h : NearestIn S x c even) (hp : even → p) : NearestIn S x c p :=
  ⟨h.closest, fun y hy hne htie => hp (h.even_of_tie y hy hne htie)⟩

end NearestIn

section

variable {num den k : Nat}

theorem roundHalfEven_le (hden : 0 < den) (h : num ≤ k * den) : roundHalfEven num den ≤ k := by
  have hupper := roundHalfEven_upper num hden
  apply Nat.le_of_lt_succ
  apply Nat.lt_of_mul_lt_mul_right (a := 2 * den)
  grind

theorem le_roundHalfEven (hden : 0 < den) (h : k * den ≤ num) : k ≤ roundHalfEven num den := by
  have hlower := roundHalfEven_lower num hden
  apply Nat.le_of_lt_succ
  apply Nat.lt_of_mul_lt_mul_right (a := 2 * den)
  grind

/-- Half way between two integers the remainder is half the divisor. -/
theorem tie_of_odd {j : Nat} (h : 2 * num = (2 * j + 1) * den) : 2 * (num % den) = den :=
  calc 2 * (num % den) = (2 * j + 1) * den % (2 * den) := by
        rw [← Nat.mul_mod_mul_left, h]
    _ = den := by
        rw [Nat.mul_mod_mul_right, Nat.mul_add_mod, Nat.mod_eq_of_lt (by decide), Nat.one_mul]

/-- An even number is reached half way from the number before. -/
theorem le_roundHalfEven_iff (hden : 0 < den) (heven : k % 2 = 0) :
    k ≤ roundHalfEven num den ↔ 2 * k * den ≤ 2 * num + den := by
  have hlower := roundHalfEven_lower num hden
  have hupper := roundHalfEven_upper num hden
  have htie := @roundHalfEven_of_tie num den
  obtain ⟨r, hr⟩ : ∃ r, roundHalfEven num den = r := ⟨_, rfl⟩
  rw [hr] at hlower hupper htie ⊢
  constructor
  · intro h
    calc 2 * k * den ≤ 2 * r * den := Nat.mul_le_mul_right den (Nat.mul_le_mul_left 2 h)
      _ ≤ 2 * num + den := hupper
  · intro h
    apply Nat.le_of_not_lt
    intro hlt
    -- then the number before is half a step below, and even
    have hstep : (2 * r + 1) * den + den ≤ 2 * k * den := by
      rw [← Nat.succ_mul]
      exact Nat.mul_le_mul_right den (by omega)
    have hhalf : 2 * num = (2 * r + 1) * den := by omega
    have hk : 2 * k * den ≤ (2 * r + 2) * den :=
      calc 2 * k * den ≤ 2 * num + den := h
        _ = (2 * r + 1) * den + den := by rw [hhalf]
        _ = (2 * r + 2) * den := (Nat.succ_mul _ den).symm
    have hle := Nat.le_of_mul_le_mul_right hk hden
    have hodd := htie (tie_of_odd hhalf)
    omega

/-- What is rounded is at most half away. -/
theorem abs_roundHalfEven_sub_le (num : Nat) (hden : 0 < den) :
    |(roundHalfEven num den : ℚ) - num / den| ≤ 1 / 2 := by
  have hpos : (0 : ℚ) < den := Nat.cast_pos.mpr hden
  have hlower : 2 * (num : ℚ) ≤ (2 * roundHalfEven num den + 1) * den := by
    exact_mod_cast roundHalfEven_lower num hden
  have hupper : 2 * (roundHalfEven num den : ℚ) * den ≤ 2 * num + den := by
    exact_mod_cast roundHalfEven_upper num hden
  rw [abs_sub_le_iff]
  constructor
  · rw [sub_le_iff_le_add, ← sub_le_iff_le_add', le_div_iff₀ hpos]
    linarith
  · rw [sub_le_iff_le_add, div_le_iff₀ hpos]
    linarith

/-- Half way between two integers the even one is taken. -/
theorem even_of_abs_eq_half (hden : 0 < den)
    (h : |(roundHalfEven num den : ℚ) - num / den| = 1 / 2) : roundHalfEven num den % 2 = 0 := by
  have hpos : (0 : ℚ) < den := Nat.cast_pos.mpr hden
  obtain ⟨r, hr⟩ : ∃ r, roundHalfEven num den = r := ⟨_, rfl⟩
  rw [hr] at h
  apply roundHalfEven_of_tie
  rcases (abs_eq (by norm_num)).mp h with habove | hbelow
  · -- the number before is as near
    have hnum : 2 * (num : ℚ) + den = 2 * r * den := by
      field_simp at habove
      linarith
    cases r with
    | zero =>
      have : (0 : ℚ) ≤ num := Nat.cast_nonneg num
      simp at hnum
      linarith
    | succ j =>
      apply tie_of_odd (j := j)
      have hnat : 2 * num + den = 2 * (j + 1) * den := by exact_mod_cast hnum
      grind
  · have hnum : 2 * (num : ℚ) = (2 * r + 1) * den := by
      field_simp at hbelow
      linarith
    exact tie_of_odd (j := r) (by exact_mod_cast hnum)

/-- **No integer is nearer** than the one that is taken, which is even if another one is
as near. -/
theorem nearestIn_roundHalfEven (num : Nat) (hden : 0 < den) :
    NearestIn (fun y => ∃ k : ℤ, y = k) (num / den) (roundHalfEven num den)
      (roundHalfEven num den % 2 = 0) := by
  have hhalf := abs_roundHalfEven_sub_le num hden
  have hother : ∀ k : ℤ, (k : ℚ) ≠ roundHalfEven num den → 1 / 2 ≤ |(k : ℚ) - num / den| := by
    intro k hk
    have hne : k - (roundHalfEven num den : ℤ) ≠ 0 := by
      rw [sub_ne_zero]
      exact_mod_cast hk
    have hone : (1 : ℚ) ≤ |(k : ℚ) - roundHalfEven num den| := by
      exact_mod_cast Int.one_le_abs hne
    have hvia := abs_sub_le (k : ℚ) (num / den) (roundHalfEven num den)
    rw [abs_sub_comm ((num : ℚ) / den)] at hvia
    linarith
  constructor
  · rintro _ ⟨k, rfl⟩
    by_cases hk : (k : ℚ) = roundHalfEven num den
    · rw [hk]
    · exact hhalf.trans (hother k hk)
  · rintro _ ⟨k, rfl⟩ hk htie
    exact even_of_abs_eq_half hden (le_antisymm hhalf (htie ▸ hother k hk))

end

namespace Binary64

/-! The grid around a quotient -/

section

variable {num den count : Nat}

/-- The leading bits that are taken for a quotient, which count steps of its grid. -/
def leadingBits (num den : Nat) : Nat := roundHalfEven num (den * spacing (num / den))

theorem nearestUnits_eq (num den : Nat) :
    nearestUnits num den = leadingBits num den * spacing (num / den) := rfl

/-- A representable number is on the grid, or below the power of two where it starts. -/
theorem dvd_or_lt (floor : Nat) (h : spacing count ∣ count) :
    spacing floor ∣ count ∨
      count < fractionCount * spacing floor ∧ fractionCount * spacing floor ≤ floor := by
  obtain ⟨-, -, hone⟩ | ⟨k, -, hspacing, hlow, -⟩ := spacing_cases floor
  · rw [hone]
    exact .inl (Nat.one_dvd count)
  · rw [hspacing]
    by_cases hlt : count < fractionCount * 2 ^ k
    · exact .inr ⟨hlt, hlow⟩
    · refine .inl (Nat.dvd_trans (Nat.pow_dvd_pow 2 ?_) h)
      have hle : 2 ^ (fractionBits + k) ≤ count := by
        rw [Nat.pow_add, two_pow_fractionBits]
        exact Nat.le_of_not_lt hlt
      have hlog := (Nat.le_log2 (by grind)).mpr hle
      simp only [fractionBits] at hlog
      omega

/-- **No representable number is nearer** than the one that is taken, whose leading bits are
even if another is as near. -/
theorem nearestIn_nearestUnits (num : Nat) (hden : 0 < den) :
    NearestIn (fun y => ∃ z : ℤ, spacing z.natAbs ∣ z.natAbs ∧ y = z) (num / den)
      (nearestUnits num den) (leadingBits num den % 2 = 0) := by
  have hpos : (0 : ℚ) < den := Nat.cast_pos.mpr hden
  have hstep : (0 : ℚ) < spacing (num / den) := Nat.cast_pos.mpr (spacing_pos _)
  have hdivisor := Nat.mul_pos hden (spacing_pos (num / den))
  have hgrid := (nearestIn_roundHalfEven num hdivisor).scale hstep
  have hscaled : (num : ℚ) / (den * spacing (num / den) : Nat) * spacing (num / den) =
      num / den := by
    rw [Nat.cast_mul]
    field_simp
  rw [hscaled, ← leadingBits, ← Nat.cast_mul, ← nearestUnits_eq] at hgrid
  apply hgrid.extend
  rintro _ ⟨z, hz, rfl⟩
  obtain hdvd | ⟨hlt, hle⟩ := dvd_or_lt (num / den) hz
  · obtain ⟨k, hk⟩ := Int.natCast_dvd.mpr hdvd
    refine .inl ⟨k, ⟨k, rfl⟩, ?_⟩
    rw [hk, mul_comm]
    push_cast
    rfl
  · -- the power of two is nearer, and on the grid
    refine .inr ⟨_, ⟨fractionCount, ⟨fractionCount, rfl⟩, rfl⟩, ?_⟩
    have hfloor : ((num / den : Nat) : ℚ) ≤ num / den := Nat.cast_div_le
    have hpower : (fractionCount : ℚ) * spacing (num / den) ≤ num / den :=
      le_trans (by exact_mod_cast hle) hfloor
    have hbelow : (z : ℚ) < fractionCount * spacing (num / den) := by
      have h : z < (fractionCount * spacing (num / den) : Nat) := by omega
      exact_mod_cast h
    rw [abs_of_nonpos (by linarith), abs_of_neg (by linarith)]
    linarith

end

/-! The count that is taken -/

theorem lt_mul_spacing (floor : Nat) : floor < 2 * fractionCount * spacing floor := by
  obtain ⟨-, hlt, hone⟩ | ⟨k, -, hspacing, -, hlt⟩ := spacing_cases floor
  · rw [hone]
    omega
  · rw [hspacing]
    exact hlt

theorem mul_spacing_le {floor : Nat} (h : 1 < spacing floor) :
    fractionCount * spacing floor ≤ floor := by
  obtain ⟨-, -, hone⟩ | ⟨k, -, hspacing, hle, -⟩ := spacing_cases floor
  · omega
  · rw [hspacing]
    exact hle

section

variable {num den : Nat}

/-- The leading bits are at most 53, or the least number of 54 bits. -/
theorem leadingBits_le (num : Nat) (hden : 0 < den) : leadingBits num den ≤ 2 * fractionCount := by
  apply roundHalfEven_le (Nat.mul_pos hden (spacing_pos _))
  have hlt := (Nat.div_lt_iff_lt_mul hden).mp (lt_mul_spacing (num / den))
  rw [Nat.mul_comm den, ← Nat.mul_assoc]
  exact hlt.le

theorem fractionCount_le_leadingBits (hden : 0 < den) (h : 1 < spacing (num / den)) :
    fractionCount ≤ leadingBits num den := by
  apply le_roundHalfEven (Nat.mul_pos hden (spacing_pos _))
  have hle := (Nat.le_div_iff_mul_le hden).mp (mul_spacing_le h)
  rw [Nat.mul_comm den, ← Nat.mul_assoc]
  exact hle

/-- What is taken is representable, also when it is the next power of two. -/
theorem spacing_dvd_nearestUnits (num : Nat) (hden : 0 < den) :
    spacing (nearestUnits num den) ∣ nearestUnits num den := by
  have hle := leadingBits_le num hden
  obtain ⟨k, hk⟩ : ∃ k, spacing (num / den) = 2 ^ k := ⟨_, rfl⟩
  rw [nearestUnits_eq, hk]
  obtain ⟨r, hr⟩ : ∃ r, leadingBits num den = r := ⟨_, rfl⟩
  rw [hr] at hle ⊢
  obtain hlt | rfl := Nat.lt_or_eq_of_le hle
  · have hlog := (log2_lt_iff k).mpr (Nat.mul_lt_mul_of_pos_right hlt (Nat.pow_pos (by decide)))
    exact Nat.dvd_trans (spacing_dvd hlog) (Nat.dvd_mul_left (2 ^ k) r)
  · rw [← two_pow_add, spacing, Nat.log2_two_pow]
    exact Nat.pow_dvd_pow 2 (Nat.sub_le _ _)

/-- The number of the count that is taken has that count. -/
theorem units_ofUnits_nearestUnits (hden : 0 < den) (h : (nearestUnits num den).log2 < 2098) :
    (ofUnits (nearestUnits num den)).units = nearestUnits num den := by
  rw [units_ofUnits h, Nat.div_mul_cancel (spacing_dvd_nearestUnits num hden)]

/-- An even number of at most 53 bits, or the least one of 54, leaves an even fraction. -/
theorem even_fraction {v : Binary64} {r floor : Nat} (h : v.units = r * spacing floor)
    (hr : r ≤ 2 * fractionCount) (heven : r % 2 = 0) : v.fraction.val % 2 = 0 := by
  obtain ⟨k, hk⟩ : ∃ k, spacing floor = 2 ^ k := ⟨_, rfl⟩
  have hparity : v.significand % 2 = v.fraction.val % 2 := by
    unfold significand fractionCount
    split <;> omega
  have hpos : ∀ j, 0 < 2 ^ j := fun j => Nat.pow_pos (by decide)
  rw [units, hk] at h
  obtain hlt | hle := Nat.lt_or_ge k v.scale
  · -- the leading bits were rounded up to a power of two
    obtain ⟨j, hj⟩ := Nat.exists_eq_add_of_lt hlt
    have hbits : v.significand * 2 ^ j * 2 = r := by
      apply Nat.eq_of_mul_eq_mul_right (hpos k)
      rw [← h, hj, Nat.pow_succ, Nat.pow_add]
      grind
    have hlow : v.significand = fractionCount + v.fraction.val := by
      have hne : v.exponent.val ≠ 0 := by
        intro hz
        simp only [scale, hz] at hlt
        omega
      rw [significand, if_neg hne]
    have hhigh : v.significand ≤ v.significand * 2 ^ j := Nat.le_mul_of_pos_right _ (hpos j)
    omega
  · obtain ⟨j, rfl⟩ := Nat.exists_eq_add_of_le hle
    have hsignificand : v.significand = r * 2 ^ j := by
      apply Nat.eq_of_mul_eq_mul_right (hpos v.scale)
      rw [h, Nat.pow_add, Nat.mul_assoc, Nat.mul_comm (2 ^ v.scale)]
    rw [← hparity, hsignificand, Nat.mul_mod, heven, Nat.zero_mul, Nat.zero_mod]

/-- **A power of two is reached** half a step of the grid before it. -/
theorem two_pow_le_nearestUnits_iff (num : Nat) (hden : 0 < den) (k : Nat) :
    2 * fractionCount * 2 ^ k ≤ nearestUnits num den ↔
      (4 * fractionCount - 1) * 2 ^ k * den ≤ 2 * num := by
  obtain ⟨m, hm⟩ : ∃ m, spacing (num / den) = 2 ^ m := ⟨_, rfl⟩
  have hdouble : ∀ {i j : Nat}, i < j → 2 * 2 ^ i ≤ 2 ^ j := by
    intro i j h
    rw [Nat.mul_comm, ← Nat.pow_succ]
    exact Nat.pow_le_pow_right (by decide) h
  rw [nearestUnits_eq, Nat.mul_assoc _ _ den]
  obtain hlt | rfl | hgt := Nat.lt_trichotomy m k
  · -- the quotient is below half of the power
    have hhalf := hdouble hlt
    have hpos : 0 < 2 ^ m := Nat.pow_pos (by decide)
    have hbits := Nat.mul_le_mul_right (2 ^ m) (leadingBits_le num hden)
    have hnum := (Nat.div_lt_iff_lt_mul hden).mp (lt_mul_spacing (num / den))
    have hscaled := Nat.mul_le_mul_right den hhalf
    rw [Nat.mul_assoc] at hscaled
    rw [hm, Nat.mul_assoc _ _ den] at hnum
    rw [hm]
    generalize 2 ^ m * den = a at *
    generalize 2 ^ k * den = b at *
    generalize leadingBits num den * 2 ^ m = c at *
    generalize 2 ^ m = p at *
    generalize 2 ^ k = q at *
    simp only [fractionCount] at hbits hnum ⊢
    omega
  · have hpos : 0 < 2 ^ m := Nat.pow_pos (by decide)
    have hbits : 2 * fractionCount ≤ leadingBits num den ↔ _ :=
      le_roundHalfEven_iff (Nat.mul_pos hden (spacing_pos _)) (by decide)
    rw [hm, Nat.mul_le_mul_right_iff hpos, hbits, hm, Nat.mul_comm den]
    generalize 2 ^ m * den = a
    simp only [fractionCount]
    omega
  · -- the quotient is above the power
    have hhalf := hdouble hgt
    have hone : 1 < spacing (num / den) := by
      have hpos : 0 < 2 ^ k := Nat.pow_pos (by decide)
      omega
    have hbits := Nat.mul_le_mul_right (2 ^ m) (fractionCount_le_leadingBits hden hone)
    have hnum := (Nat.le_div_iff_mul_le hden).mp (mul_spacing_le hone)
    have hscaled := Nat.mul_le_mul_right den hhalf
    rw [Nat.mul_assoc] at hscaled
    rw [hm, Nat.mul_assoc _ _ den] at hnum
    rw [hm]
    generalize 2 ^ m * den = a at *
    generalize 2 ^ k * den = b at *
    generalize leadingBits num den * 2 ^ m = c at *
    generalize 2 ^ m = p at *
    generalize 2 ^ k = q at *
    simp only [fractionCount] at hbits hnum ⊢
    omega

/-- **Zero is left** above half of the least number. -/
theorem nearestUnits_eq_zero_iff (num : Nat) (hden : 0 < den) :
    nearestUnits num den = 0 ↔ 2 * num ≤ den := by
  have hspacing : spacing (num / den) ≠ 0 := (spacing_pos _).ne'
  rw [nearestUnits_eq, Nat.mul_eq_zero, or_iff_left hspacing]
  constructor
  · intro hzero
    have hone : ¬ 1 < spacing (num / den) := by
      intro h
      have := fractionCount_le_leadingBits hden h
      simp only [fractionCount] at this
      omega
    have hlower := roundHalfEven_lower num (Nat.mul_pos hden (spacing_pos (num / den)))
    rw [← leadingBits, hzero, show spacing (num / den) = 1 by omega] at hlower
    omega
  · intro hle
    have hlt : num < den := by omega
    have hfloor : num / den = 0 := Nat.div_eq_of_lt hlt
    rw [leadingBits, hfloor, show spacing 0 = 1 from rfl, Nat.mul_one, roundHalfEven]
    simp only [hfloor, Nat.mod_eq_of_lt hlt]
    split
    · rfl
    · rw [if_neg (by omega)]

end

end Binary64

end SeqScan
