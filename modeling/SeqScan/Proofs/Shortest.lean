import SeqScan.Proofs.RoundingInterval

/-
  The shortest decimal that reads back.

  The search goes from coarse grids to fine ones and looks at two multiples of the step
  alone, the one at or below the exact decimal and the next. That is enough: a decimal of
  as many digits as the grid leaves is not between the two, wherever its own point is, and
  what it passes on its way to the exact decimal is rounded as both are. So a grid that is
  given up has no decimal that reads back, and on the one that is taken none is nearer.

  What is proved:
    1. `exists_step`: the step that the search stops at, and that it gave up all coarser ones.
    2. `le_lower_or_upper_le`: a decimal of few digits is not between two neighbours.
    3. `exists_reached`: where such a decimal reads back, one of the neighbours does, and is at
       least as near.
    4. `fewest_shortenFrom`: no decimal of fewer digits reads back than the search finds, and none
       of as many is nearer.
-/

namespace SeqScan

/-! The two neighbours -/

namespace Decimal

/-- The greatest multiple of a step that is not above the digits. -/
def lower (d : Decimal) (step : Nat) : Decimal := ⟨d.digits / step * step, d.places⟩

/-- The next multiple. -/
def upper (d : Decimal) (step : Nat) : Decimal := ⟨d.digits / step * step + step, d.places⟩

theorem lower_le (d : Decimal) (step : Nat) : (d.lower step).digits ≤ d.digits :=
  Nat.div_mul_le_self d.digits step

theorem lt_upper (d : Decimal) {step : Nat} (hstep : 0 < step) :
    d.digits < (d.upper step).digits := by
  rw [upper, ← Nat.succ_mul, ← Nat.div_lt_iff_lt_mul hstep]
  exact Nat.lt_succ_self _

/-- How far another number of digits is away from those of a decimal. -/
def gap (d : Decimal) (x : ℚ) : ℚ := |x - d.digits|

end Decimal

namespace Binary64

variable {v : Binary64} {d found : Decimal} {step : Nat}

theorem neighbour?_eq (v : Binary64) (d : Decimal) (step : Nat) : v.neighbour? d step =
    if v.readsBack (d.upper step) && (!v.readsBack (d.lower step) ||
      (d.upper step).digits - d.digits ≤ d.digits - (d.lower step).digits) then
      some (d.upper step)
    else if v.readsBack (d.lower step) then some (d.lower step) else none := rfl

theorem neighbour?_eq_none_iff : v.neighbour? d step = none ↔
    v.readsBack (d.lower step) = false ∧ v.readsBack (d.upper step) = false := by
  rw [neighbour?_eq]
  split
  next h =>
    rw [Bool.and_eq_true] at h
    simp [h.1]
  next h =>
    split
    next hlow => simp [hlow]
    next hlow => simp_all

/-- What is found is one of the two, and as near as the other if that reads back. -/
structure Found (v : Binary64) (d : Decimal) (step : Nat) (found : Decimal) : Prop where
  multiple : ∃ k, k ≤ d.digits / step + 1 ∧ found = ⟨k * step, d.places⟩
  readsBack : v.readsBack found = true
  lower : v.readsBack (d.lower step) = true →
    d.gap found.digits ≤ d.gap (d.lower step).digits
  upper : v.readsBack (d.upper step) = true →
    d.gap found.digits ≤ d.gap (d.upper step).digits

theorem found_of_neighbour? (hstep : 0 < step) (h : v.neighbour? d step = some found) :
    Found v d step found := by
  have hlow := d.lower_le step
  have hhigh := (d.lt_upper hstep).le
  have hlower : d.gap (d.lower step).digits = (d.digits - (d.lower step).digits : Nat) := by
    rw [Decimal.gap, Nat.cast_sub hlow, abs_sub_comm, abs_of_nonneg]
    exact sub_nonneg.mpr (Nat.cast_le.mpr hlow)
  have hupper : d.gap (d.upper step).digits = ((d.upper step).digits - d.digits : Nat) := by
    rw [Decimal.gap, Nat.cast_sub hhigh, abs_of_nonneg]
    exact sub_nonneg.mpr (Nat.cast_le.mpr hhigh)
  have hback := readsBack_neighbour? h
  rw [neighbour?_eq] at h
  split at h
  next hchoice =>
    obtain rfl := Option.some.inj h
    refine ⟨⟨_, Nat.le_refl _, by rw [Decimal.upper, Nat.succ_mul]⟩, hback, ?_, fun _ => le_rfl⟩
    intro hlowback
    simp only [hback, hlowback, Bool.true_and, Bool.not_true, Bool.false_or,
      decide_eq_true_eq] at hchoice
    rw [hlower, hupper]
    exact_mod_cast hchoice
  next hchoice =>
    split at h
    next hlowback =>
      obtain rfl := Option.some.inj h
      refine ⟨⟨_, Nat.le_succ _, rfl⟩, hback, fun _ => le_rfl, ?_⟩
      intro hhighback
      simp only [hlowback, hhighback, Bool.true_and, Bool.not_true, Bool.false_or,
        decide_eq_true_eq] at hchoice
      rw [hlower, hupper]
      exact_mod_cast (Nat.lt_of_not_le hchoice).le
    next => cases h

/-! The search -/

/-- **The step that the search stops at.** No coarser one has a neighbour that reads back. -/
theorem exists_step (hd : v.readsBack d = true) {bound : Nat} (hbound : 0 < bound) :
    ∃ b < bound, Found v d (10 ^ b) (v.shortenFrom d bound) ∧
      ∀ c, b < c → c < bound → v.neighbour? d (10 ^ c) = none := by
  induction bound with
  | zero => cases hbound
  | succ bound ih =>
    rw [shortenFrom]
    cases hfound : v.neighbour? d (10 ^ bound) with
    | some n =>
      refine ⟨bound, Nat.lt_succ_self _, found_of_neighbour? (Nat.pow_pos (by decide)) hfound, ?_⟩
      intro c hc hlt
      omega
    | none =>
      cases bound with
      | zero =>
        -- on the finest grid the decimal is its own lower neighbour
        have hself : d.lower (10 ^ 0) = d := by
          rw [Decimal.lower, Nat.pow_zero, Nat.div_one, Nat.mul_one]
        have hlower := (neighbour?_eq_none_iff.mp hfound).1
        rw [hself, hd] at hlower
        cases hlower
      | succ bound =>
        obtain ⟨b, hb, hstep, hnone⟩ := ih (Nat.succ_pos _)
        rw [Option.getD_none]
        refine ⟨b, Nat.lt_succ_of_lt hb, hstep, ?_⟩
        intro c hbc hc
        obtain hlt | rfl := Nat.lt_succ_iff_lt_or_eq.mp hc
        · exact hnone c hbc hlt
        · exact hfound

/-! Decimals of few digits -/

/-- **A decimal of few digits is not between two neighbours**: it is a multiple of their step,
or less than a power of ten that is not above them. -/
theorem le_lower_or_upper_le {j b m : Nat} (hd : 10 ^ (j + b) ≤ d.digits) (hm : m < 10 ^ (j + 1))
    (e : ℤ) : (m : ℚ) * 10 ^ e ≤ (d.lower (10 ^ b)).digits ∨
      ((d.upper (10 ^ b)).digits : ℚ) ≤ m * 10 ^ e := by
  have hstep : 0 < 10 ^ b := Nat.pow_pos (by decide)
  obtain hle | hlt := le_or_gt (b : ℤ) e
  · obtain ⟨i, rfl⟩ := Int.le.dest hle
    have hmultiple : (m : ℚ) * 10 ^ ((b : ℤ) + i) = (m * 10 ^ i * 10 ^ b : Nat) := by
      rw [zpow_add₀ (by norm_num), zpow_natCast, zpow_natCast]
      push_cast
      ring
    rw [hmultiple]
    obtain hbelow | habove := Nat.lt_or_ge (d.digits / 10 ^ b) (m * 10 ^ i)
    · right
      have h := Nat.mul_le_mul_right (10 ^ b) (Nat.succ_le_of_lt hbelow)
      rw [Nat.succ_mul] at h
      exact Nat.cast_le.mpr h
    · exact .inl (Nat.cast_le.mpr (Nat.mul_le_mul_right _ habove))
  · left
    have hpower : 10 ^ j * 10 ^ b ≤ d.digits / 10 ^ b * 10 ^ b := by
      apply Nat.mul_le_mul_right
      rw [Nat.le_div_iff_mul_le hstep, ← Nat.pow_add]
      exact hd
    calc (m : ℚ) * 10 ^ e ≤ 10 ^ (j + 1) * 10 ^ e := by
          apply mul_le_mul_of_nonneg_right _ (zpow_pos (by norm_num) e).le
          exact_mod_cast hm.le
      _ = 10 ^ ((j : ℤ) + 1 + e) := by
          rw [zpow_add₀ (by norm_num)]
          norm_cast
      _ ≤ 10 ^ ((j : ℤ) + b) := zpow_le_zpow_right₀ (by norm_num) (by omega)
      _ = (10 ^ j * 10 ^ b : Nat) := by
          rw [zpow_add₀ (by norm_num)]
          push_cast
          rw [zpow_natCast, zpow_natCast]
      _ ≤ (d.lower (10 ^ b)).digits := Nat.cast_le.mpr hpower

/-- **A neighbour reads back** where a rational does that is not between them, and it is at
least as near to the decimal. -/
theorem exists_reached {x : ℚ} (hstep : 0 < step) (hd : v.readsBack d = true)
    (hx : IsNearest (x / 10 ^ d.places) v.abs)
    (hapart : x ≤ (d.lower step).digits ∨ ((d.upper step).digits : ℚ) ≤ x) :
    v.readsBack (d.lower step) = true ∧ d.gap (d.lower step).digits ≤ d.gap x ∨
      v.readsBack (d.upper step) = true ∧ d.gap (d.upper step).digits ≤ d.gap x := by
  have hpow : (0 : ℚ) ≤ 10 ^ d.places := by positivity
  have hlow : ((d.lower step).digits : ℚ) ≤ d.digits := Nat.cast_le.mpr (d.lower_le step)
  have hhigh : (d.digits : ℚ) ≤ (d.upper step).digits := Nat.cast_le.mpr (d.lt_upper hstep).le
  have hself := readsBack_iff.mp hd
  simp only [Decimal.gap]
  rcases hapart with hbelow | habove
  · refine .inl ⟨readsBack_iff.mpr (hx.convex hself ?_ ?_), ?_⟩
    · exact div_le_div_of_nonneg_right hbelow hpow
    · exact div_le_div_of_nonneg_right hlow hpow
    · rw [abs_of_nonpos (by linarith), abs_of_nonpos (by linarith)]
      linarith
  · refine .inr ⟨readsBack_iff.mpr (hself.convex hx ?_ ?_), ?_⟩
    · exact div_le_div_of_nonneg_right hhigh hpow
    · exact div_le_div_of_nonneg_right habove hpow
    · rw [abs_of_nonneg (by linarith), abs_of_nonneg (by linarith)]
      linarith

/-! What the search finds -/

/-- No decimal of fewer than `n` digits reads back, and none of `n` is nearer to `d` than
`found`, which is a multiple of a power of ten that leaves `n` digits. -/
structure Fewest (v : Binary64) (d : Decimal) (n : Nat) (found : Decimal) : Prop where
  multiple : ∃ t b, t ≤ 10 ^ n ∧ found = ⟨t * 10 ^ b, d.places⟩
  positive : 0 < n
  fewest : ∀ (k m : Nat) (e : ℤ), m < 10 ^ k → IsNearest (m * 10 ^ e / 10 ^ d.places) v.abs →
    n ≤ k
  closest : ∀ (m : Nat) (e : ℤ), m < 10 ^ n → IsNearest (m * 10 ^ e / 10 ^ d.places) v.abs →
    d.gap found.digits ≤ d.gap (m * 10 ^ e)

theorem eq_zero_of_isNearest_zero (h : IsNearest 0 v) : v = zero :=
  h.zero.mpr (zpow_pos (by norm_num) _).le

theorem exists_length {n : Nat} (hn : n ≠ 0) :
    ∃ j, (Nat.toDigits 10 n).length = j + 1 ∧ 10 ^ j ≤ n ∧ n < 10 ^ (j + 1) := by
  obtain ⟨j, hj⟩ := Nat.exists_eq_succ_of_ne_zero (@Nat.length_toDigits_pos 10 n).ne'
  refine ⟨j, hj, ?_, (Nat.length_toDigits_le_iff (by decide) (Nat.succ_pos j)).mp hj.le⟩
  cases j with
  | zero => exact Nat.pos_of_ne_zero hn
  | succ j =>
    apply Nat.le_of_not_lt
    intro hlt
    have hle := (Nat.length_toDigits_le_iff (b := 10) (by decide) (Nat.succ_pos j)).mpr hlt
    omega

/-- **The search finds the fewest digits** that read back, and of those the nearest. -/
theorem fewest_shortenFrom (hd : v.readsBack d = true) (hne : d.digits ≠ 0)
    (hzero : v.abs ≠ zero) :
    ∃ n, Fewest v d n (v.shortenFrom d (Nat.toDigits 10 d.digits).length) := by
  obtain ⟨j, hlength, hlow, hhigh⟩ := exists_length hne
  rw [hlength]
  obtain ⟨b, hb, hfound, hnone⟩ := exists_step hd (Nat.succ_pos j)
  obtain ⟨i, rfl⟩ : ∃ i, j = i + b := ⟨j - b, by omega⟩
  refine ⟨i + 1, ?_, Nat.succ_pos i, ?_, ?_⟩
  · obtain ⟨t, ht, heq⟩ := hfound.multiple
    refine ⟨t, b, Nat.le_trans ht ?_, heq⟩
    rw [Nat.succ_le_iff, Nat.div_lt_iff_lt_mul (Nat.pow_pos (by decide)), ← Nat.pow_add,
      Nat.succ_add_eq_add_succ]
    exact hhigh
  · intro k m e hm hx
    apply Nat.le_of_not_lt
    intro hk
    cases k with
    | zero =>
      obtain rfl : m = 0 := by simpa using hm
      rw [Nat.cast_zero, zero_mul, zero_div] at hx
      exact hzero (eq_zero_of_isNearest_zero hx)
    | succ k =>
      -- the grid that leaves as many digits was given up
      obtain ⟨c, hc⟩ : ∃ c, i + b = k + c := ⟨i + b - k, by omega⟩
      obtain ⟨hlower, hupper⟩ :=
        neighbour?_eq_none_iff.mp (hnone c (by omega) (by omega))
      rw [hc] at hlow
      rcases exists_reached (Nat.pow_pos (by decide)) hd hx (le_lower_or_upper_le hlow hm e) with
        ⟨hback, -⟩ | ⟨hback, -⟩
      · rw [hlower] at hback
        cases hback
      · rw [hupper] at hback
        cases hback
  · intro m e hm hx
    rcases exists_reached (Nat.pow_pos (by decide)) hd hx (le_lower_or_upper_le hlow hm e) with
      ⟨hback, hle⟩ | ⟨hback, hle⟩
    · exact (hfound.lower hback).trans hle
    · exact (hfound.upper hback).trans hle

end Binary64

end SeqScan
