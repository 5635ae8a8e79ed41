import Mathlib.Data.List.Forall2
import SeqScan.Proofs.RoundingInterval

/-
  Equality of scans is exact.

  Scans are compared field by field, and their numbers by value: a NaN differs from itself,
  and the two zeros are equal though their signs differ. So equality of arbitrary tokens is
  neither reflexive nor equality of bits. A decimal, however long, is rounded to a number
  that is not a NaN and has no sign, and of these no two have one value. So scans are equal
  just if they are the same in every field, to the last bit.

  What is proved:
    1. `Binary64.equals_iff_sameValue`: numbers are compared by value.
    2. `Scan.equals_iff_agree`: scans are compared field by field, and their numbers by value.
    3. `Token.equals_eq_false_self_iff`, `Token.equals_and_ne_iff`: where equality of
       arbitrary tokens is not that of bits.
    4. `Scan.isPlain_of_mem_tokens`: the numbers that are scanned.
    5. `exactEquality_scan`: two scans, of any sources and with any tables.
-/

namespace SeqScan

/-! Agreement -/

/-- Finite numbers of one value, or infinite ones of one sign. -/
inductive Binary64.SameValue : Binary64 → Binary64 → Prop
  | finite {v w : Binary64} : v.isFinite = true → w.isFinite = true → v.value = w.value →
    SameValue v w
  | infinite {v w : Binary64} : v.isFinite = false → v.isNaN = false → w.isFinite = false →
    w.isNaN = false → v.negative = w.negative → SameValue v w

def Binary64.SameBits (v w : Binary64) : Prop := v.bits = w.bits

/-- The literals are of one kind. Strings are the same, and numbers are related. -/
inductive Literal.Agree (same : Binary64 → Binary64 → Prop) : Literal → Literal → Prop
  | number {v w : Binary64} : same v w → Agree same (.number v) (.number w)
  | string {s : String} : Agree same (.string s) (.string s)

/-- All fields are the same, but for numbers, which are related. -/
structure Token.Agree (same : Binary64 → Binary64 → Prop) (t u : Token) : Prop where
  kind : t.kind = u.kind
  lexeme : t.lexeme = u.lexeme
  literal : Option.Rel (Literal.Agree same) t.literal u.literal
  span : t.span = u.span

/-- The same diagnostics, and as many tokens, which agree one by one. -/
structure Scan.Agree (same : Binary64 → Binary64 → Prop) (a b : Scan) : Prop where
  tokens : List.Forall₂ (Token.Agree same) a.tokens b.tokens
  diagnostics : a.diagnostics = b.diagnostics

/-- What equality of two scans says, and what it would say of arbitrary tokens. -/
structure ExactEquality (a b : Scan) : Prop where
  /-- Numbers are compared by value. -/
  value : a.equals b = true ↔ a.Agree Binary64.SameValue b
  /-- In these scans that is equality of bits. -/
  bits : a.equals b = true ↔ a.Agree Binary64.SameBits b
  identical : a.equals b = true ↔ a = b
  self : a.equals a = true
  /-- A token differs from itself if its value is a NaN. -/
  nan : ∀ t : Token, t.equals t = false ↔ ∃ v, t.literal = some (.number v) ∧ v.isNaN = true
  /-- Two tokens that are not the same are equal if their values are the two zeros, and they
  differ in nothing else. -/
  zeros : ∀ t u : Token, t.equals u = true ∧ t ≠ u ↔
    ∃ v w : Binary64, t.literal = some (.number v) ∧ u = { t with literal := some (.number w) } ∧
      v.isZero = true ∧ w.isZero = true ∧ v.negative ≠ w.negative

/-! Numbers -/

namespace Binary64

variable {v w : Binary64}

theorem bits_inj (h : v.bits = w.bits) : v = w := by
  rw [← ofBits_bits v, h, ofBits_bits]

theorem equals_iff : v.equals w = true ↔
    v.isNaN = false ∧ w.isNaN = false ∧ (v = w ∨ v.isZero = true ∧ w.isZero = true) := by
  simp [equals, and_assoc]

theorem isNaN_of_isFinite (h : v.isFinite = true) : v.isNaN = false := by
  have hne : v.exponent.val ≠ 2047 := bne_iff_ne.mp h
  simp [isNaN, hne]

theorem isFinite_of_isZero (h : v.isZero = true) : v.isFinite = true := by
  simp only [isZero, Bool.and_eq_true, beq_iff_eq] at h
  simp [isFinite, h.1]

theorem eq_of_fields (hn : v.negative = w.negative) (he : v.exponent.val = w.exponent.val)
    (hf : v.fraction.val = w.fraction.val) : v = w := by
  obtain ⟨negative, exponent, fraction⟩ := v
  obtain ⟨negative', exponent', fraction'⟩ := w
  rw [mk.injEq]
  exact ⟨hn, Fin.ext he, Fin.ext hf⟩

theorem eq_of_isZero (hv : v.isZero = true) (hw : w.isZero = true)
    (h : v.negative = w.negative) : v = w := by
  simp only [isZero, Bool.and_eq_true, beq_iff_eq] at hv hw
  exact eq_of_fields h (hv.1.trans hw.1.symm) (hv.2.trans hw.2.symm)

theorem eq_of_infinite (hv : v.isFinite = false) (hvn : v.isNaN = false)
    (hw : w.isFinite = false) (hwn : w.isNaN = false) (h : v.negative = w.negative) : v = w := by
  have hfields : ∀ u : Binary64, u.isFinite = false → u.isNaN = false →
      u.exponent.val = 2047 ∧ u.fraction.val = 0 := by
    intro u hu hun
    have hexponent : u.exponent.val = 2047 := by simpa [isFinite] using hu
    exact ⟨hexponent, by simpa [isNaN, hexponent] using hun⟩
  have hv' := hfields v hv hvn
  have hw' := hfields w hw hwn
  exact eq_of_fields h (hv'.1.trans hw'.1.symm) (hv'.2.trans hw'.2.symm)

theorem isZero_iff : v.isZero = true ↔ v.units = 0 := by
  have hpow : 2 ^ v.scale ≠ 0 := (Nat.pow_pos (by decide)).ne'
  rw [units, Nat.mul_eq_zero, or_iff_left hpow, significand]
  simp only [isZero, Bool.and_eq_true, beq_iff_eq]
  split
  next he => exact and_iff_right he
  next he =>
    constructor
    · exact fun h => absurd h.1 he
    · intro h
      simp only [fractionCount] at h
      omega

theorem value_eq_iff : v.value = w.value ↔ v.signedUnits = w.signedUnits := by
  have hunit : (2 : ℚ) ^ unitPlaces ≠ 0 := by positivity
  rw [← mul_left_inj' hunit, value_mul, value_mul, Int.cast_inj]

theorem negative_eq (h : v.units ≠ 0) : v.negative = decide (v.signedUnits < 0) := by
  unfold signedUnits
  cases v.negative with
  | false =>
    rw [if_neg Bool.false_ne_true, eq_comm, decide_eq_false_iff_not]
    omega
  | true =>
    rw [if_pos rfl, eq_comm, decide_eq_true_iff]
    omega

theorem signedUnits_of_isZero (h : v.isZero = true) : v.signedUnits = 0 := by
  rw [← Int.natAbs_eq_zero, natAbs_signedUnits, isZero_iff.mp h]

/-- Finite numbers of one value are the same, or both are zeros. -/
theorem eq_or_isZero_of_value_eq (hv : v.isFinite = true) (hw : w.isFinite = true)
    (h : v.value = w.value) : v = w ∨ v.isZero = true ∧ w.isZero = true := by
  have hsigned := value_eq_iff.mp h
  have hunits : v.units = w.units := by
    rw [← natAbs_signedUnits v, hsigned, natAbs_signedUnits]
  have habs : v.abs = w.abs := by rw [← ofUnits_units hv, hunits, ofUnits_units hw]
  by_cases hzero : v.units = 0
  · exact .inr ⟨isZero_iff.mpr hzero, isZero_iff.mpr (hunits ▸ hzero)⟩
  · refine .inl ?_
    have hnegative : v.negative = w.negative := by
      rw [negative_eq hzero, hsigned, ← negative_eq (hunits ▸ hzero)]
    simp only [abs, mk.injEq, true_and] at habs
    exact eq_of_fields hnegative (congrArg Fin.val habs.1) (congrArg Fin.val habs.2)

/-- **Numbers are compared by value.** -/
theorem equals_iff_sameValue : v.equals w = true ↔ SameValue v w := by
  rw [equals_iff]
  constructor
  · rintro ⟨hv, hw, rfl | ⟨hvz, hwz⟩⟩
    · cases hfinite : v.isFinite with
      | true => exact .finite hfinite hfinite rfl
      | false => exact .infinite hfinite hv hfinite hv rfl
    · refine .finite (isFinite_of_isZero hvz) (isFinite_of_isZero hwz) (value_eq_iff.mpr ?_)
      rw [signedUnits_of_isZero hvz, signedUnits_of_isZero hwz]
  · rintro (⟨hv, hw, hvalue⟩ | ⟨hv, hvn, hw, hwn, hnegative⟩)
    · exact ⟨isNaN_of_isFinite hv, isNaN_of_isFinite hw, eq_or_isZero_of_value_eq hv hw hvalue⟩
    · exact ⟨hvn, hwn, .inl (eq_of_infinite hv hvn hw hwn hnegative)⟩

theorem equals_and_ne_iff : v.equals w = true ∧ v ≠ w ↔
    v.isZero = true ∧ w.isZero = true ∧ v.negative ≠ w.negative := by
  rw [equals_iff]
  constructor
  · rintro ⟨⟨-, -, rfl | ⟨hv, hw⟩⟩, hne⟩
    · exact absurd rfl hne
    · exact ⟨hv, hw, fun h => hne (eq_of_isZero hv hw h)⟩
  · rintro ⟨hv, hw, hne⟩
    refine ⟨⟨?_, ?_, .inr ⟨hv, hw⟩⟩, fun h => hne (congrArg negative h)⟩
    · exact isNaN_of_isFinite (isFinite_of_isZero hv)
    · exact isNaN_of_isFinite (isFinite_of_isZero hw)

/-- A number that is no NaN and has no sign. -/
structure IsPlain (v : Binary64) : Prop where
  not_nan : v.isNaN = false
  not_negative : v.negative = false

/-- Of such numbers no two are equal. -/
theorem IsPlain.sameValue_iff (hv : v.IsPlain) (hw : w.IsPlain) : SameValue v w ↔ v = w := by
  rw [← equals_iff_sameValue]
  constructor
  · intro h
    by_contra hne
    obtain ⟨-, -, hnegative⟩ := equals_and_ne_iff.mp ⟨h, hne⟩
    exact hnegative (hv.not_negative.trans hw.not_negative.symm)
  · rintro rfl
    exact (equals_self_iff v).mpr hv.not_nan

theorem sameBits_iff : SameBits v w ↔ v = w := ⟨bits_inj, congrArg bits⟩

theorem isPlain_nearest (d : Decimal) : (nearest d).IsPlain :=
  ⟨nearest_isNaN d, nearest_negative d⟩

end Binary64

/-! Comparison field by field -/

/-- **Literals are compared by value.** -/
theorem Literal.equals_iff_agree {x y : Literal} :
    x.equals y = true ↔ Literal.Agree Binary64.SameValue x y := by
  cases x with
  | number v =>
    cases y with
    | number w =>
      rw [equals, Binary64.equals_iff_sameValue]
      constructor
      · exact .number
      · rintro ⟨h⟩
        exact h
    | string s => exact iff_of_false Bool.false_ne_true (by rintro ⟨⟩)
  | string r =>
    cases y with
    | number w => exact iff_of_false Bool.false_ne_true (by rintro ⟨⟩)
    | string s =>
      rw [equals, decide_eq_true_iff]
      constructor
      · rintro rfl
        exact .string
      · rintro ⟨⟩
        rfl

namespace Token

theorem literalEquals_iff_agree {x y : Option Literal} :
    literalEquals x y = true ↔ Option.Rel (Literal.Agree Binary64.SameValue) x y := by
  cases x with
  | none =>
    cases y with
    | none => exact iff_of_true rfl .none
    | some _ => exact iff_of_false Bool.false_ne_true (by rintro ⟨⟩)
  | some a =>
    cases y with
    | none => exact iff_of_false Bool.false_ne_true (by rintro ⟨⟩)
    | some b => rw [Option.rel_some_some, literalEquals, Literal.equals_iff_agree]

/-- **Tokens are compared field by field.** -/
theorem equals_iff_agree {t u : Token} :
    t.equals u = true ↔ t.Agree Binary64.SameValue u := by
  simp only [equals, Bool.and_eq_true, decide_eq_true_iff, literalEquals_iff_agree]
  constructor
  · rintro ⟨⟨⟨hkind, hlexeme⟩, hliteral⟩, hspan⟩
    exact ⟨hkind, hlexeme, hliteral, hspan⟩
  · rintro ⟨hkind, hlexeme, hliteral, hspan⟩
    exact ⟨⟨⟨hkind, hlexeme⟩, hliteral⟩, hspan⟩

end Token

namespace Scan

theorem tokensEqual_iff_agree {ts us : List Token} :
    tokensEqual ts us = true ↔ List.Forall₂ (Token.Agree Binary64.SameValue) ts us := by
  induction ts generalizing us with
  | nil =>
    cases us with
    | nil => exact iff_of_true rfl .nil
    | cons u us => exact iff_of_false Bool.false_ne_true (by rintro ⟨⟩)
  | cons t ts ih =>
    cases us with
    | nil => exact iff_of_false Bool.false_ne_true (by rintro ⟨⟩)
    | cons u us =>
      rw [tokensEqual, Bool.and_eq_true, Token.equals_iff_agree, ih, List.forall₂_cons]

/-- **Scans are compared field by field.** -/
theorem equals_iff_agree {a b : Scan} : a.equals b = true ↔ a.Agree Binary64.SameValue b := by
  rw [equals, Bool.and_eq_true, decide_eq_true_iff, tokensEqual_iff_agree]
  constructor
  · rintro ⟨htokens, hdiagnostics⟩
    exact ⟨htokens, hdiagnostics⟩
  · rintro ⟨htokens, hdiagnostics⟩
    exact ⟨htokens, hdiagnostics⟩

end Scan

namespace Token

/-- Only a NaN keeps a token from being equal to itself. -/
theorem equals_eq_false_self_iff {t : Token} :
    t.equals t = false ↔ ∃ v, t.literal = some (.number v) ∧ v.isNaN = true := by
  have hself : t.equals t = literalEquals t.literal t.literal := by simp [equals]
  rw [hself]
  rcases t.literal with _ | (v | s)
  · simp [literalEquals]
  · rw [literalEquals, Literal.equals, ← Bool.not_eq_true, Binary64.equals_self_iff]
    simp
  · simp [literalEquals, Literal.equals]

theorem Agree.eq_or_number {same : Binary64 → Binary64 → Prop} {t u : Token}
    (h : t.Agree same u) : t = u ∨ ∃ v w : Binary64, t.literal = some (.number v) ∧
      u = { t with literal := some (.number w) } ∧ same v w := by
  obtain ⟨kind, lexeme, literal, span⟩ := t
  obtain ⟨kind', lexeme', literal', span'⟩ := u
  obtain ⟨hkind, hlexeme, hliteral, hspan⟩ := h
  dsimp only at hkind hlexeme hliteral hspan
  subst hkind hlexeme hspan
  cases hliteral with
  | none => exact .inl rfl
  | some h =>
    cases h with
    | string => exact .inl rfl
    | @number v w hvw => exact .inr ⟨v, w, rfl, rfl, hvw⟩

theorem equals_and_ne_iff {t u : Token} : t.equals u = true ∧ t ≠ u ↔
    ∃ v w : Binary64, t.literal = some (.number v) ∧ u = { t with literal := some (.number w) } ∧
      v.isZero = true ∧ w.isZero = true ∧ v.negative ≠ w.negative := by
  rw [equals_iff_agree]
  constructor
  · rintro ⟨hagree, hne⟩
    obtain rfl | ⟨v, w, hv, rfl, hvalue⟩ := hagree.eq_or_number
    · exact absurd rfl hne
    · have hdiffer : v ≠ w := by
        rintro rfl
        rw [← hv] at hne
        exact hne rfl
      have hequals := Binary64.equals_iff_sameValue.mpr hvalue
      exact ⟨v, w, hv, rfl, Binary64.equals_and_ne_iff.mp ⟨hequals, hdiffer⟩⟩
  · rintro ⟨v, w, hv, rfl, hzeros⟩
    obtain ⟨hequals, hdiffer⟩ := Binary64.equals_and_ne_iff.mpr hzeros
    refine ⟨⟨rfl, rfl, ?_, rfl⟩, ?_⟩
    · rw [hv]
      exact .some (.number (Binary64.equals_iff_sameValue.mp hequals))
    · intro h
      have hliteral := congrArg literal h
      rw [hv, Option.some.injEq, Literal.number.injEq] at hliteral
      exact hdiffer hliteral

example : (Token.mk .number "" (some (.number ⟨false, 0, 0⟩)) ⟨0, 0, 1, 1⟩).equals
    ⟨.number, "", some (.number ⟨true, 0, 0⟩), ⟨0, 0, 1, 1⟩⟩ = true := by decide +kernel

end Token

/-! Agreement and identity -/

/-- The value of a token is one of some numbers, if it is a number. -/
def Token.Within (good : Binary64 → Prop) (t : Token) : Prop :=
  ∀ v, t.literal = some (.number v) → good v

section

variable {same : Binary64 → Binary64 → Prop} {good : Binary64 → Prop}
  (hsame : ∀ v w, good v → good w → (same v w ↔ v = w))

include hsame

theorem Token.agree_iff {t u : Token} (ht : t.Within good) (hu : u.Within good) :
    t.Agree same u ↔ t = u := by
  constructor
  · intro h
    obtain rfl | ⟨v, w, hv, rfl, hvw⟩ := h.eq_or_number
    · rfl
    · obtain rfl := (hsame v w (ht v hv) (hu w rfl)).mp hvw
      rw [← hv]
  · rintro rfl
    refine ⟨rfl, rfl, ?_, rfl⟩
    cases hliteral : t.literal with
    | none => exact .none
    | some x =>
      cases x with
      | string s => exact .some .string
      | number v => exact .some (.number ((hsame v v (ht v hliteral) (ht v hliteral)).mpr rfl))

theorem Scan.forall₂_agree_iff {ts us : List Token} (hts : ∀ t ∈ ts, t.Within good)
    (hus : ∀ u ∈ us, u.Within good) : List.Forall₂ (Token.Agree same) ts us ↔ ts = us := by
  induction ts generalizing us with
  | nil =>
    rw [List.forall₂_nil_left_iff]
    exact eq_comm
  | cons t ts ih =>
    cases us with
    | nil => exact iff_of_false (by rintro ⟨⟩) (List.cons_ne_nil t ts)
    | cons u us =>
      obtain ⟨ht, hts⟩ := List.forall_mem_cons.mp hts
      obtain ⟨hu, hus⟩ := List.forall_mem_cons.mp hus
      rw [List.forall₂_cons, Token.agree_iff hsame ht hu, ih hts hus, List.cons.injEq]

theorem Scan.agree_iff {a b : Scan} (ha : ∀ t ∈ a.tokens, t.Within good)
    (hb : ∀ t ∈ b.tokens, t.Within good) : a.Agree same b ↔ a = b := by
  have htokens := Scan.forall₂_agree_iff hsame ha hb
  constructor
  · rintro ⟨h, hdiagnostics⟩
    obtain ⟨tokens, diagnostics⟩ := a
    rw [Scan.mk.injEq]
    exact ⟨htokens.mp h, hdiagnostics⟩
  · rintro rfl
    exact ⟨htokens.mpr rfl, rfl⟩

end

/-! Numbers that are scanned -/

/-- **No number that is scanned is a NaN or has a sign**, whatever its digits. -/
theorem Scan.isPlain_of_mem_tokens {table : ReservedWords} {source : String} {t : Token}
    (h : t ∈ (ofSource table source).tokens) : t.Within Binary64.IsPlain := by
  intro v hv
  rcases mem_tokensFrom [] h with ⟨u, p, rest, _, _, htok⟩ | rfl
  · obtain ⟨kind, _, rfl⟩ := Option.map_eq_some_iff.mp htok
    have hliteral : p.literal? = some (.number v) := hv
    unfold Piece.literal? at hliteral
    split at hliteral
    · cases hliteral
    · cases hliteral
      exact Binary64.isPlain_nearest _
    · cases hliteral
  · cases hv

theorem Scan.agree_sameBits_iff {a b : Scan} : a.Agree Binary64.SameBits b ↔ a = b :=
  agree_iff (fun _ _ (_ : True) (_ : True) => Binary64.sameBits_iff)
    (fun _ _ _ _ => trivial) (fun _ _ _ _ => trivial)

/-- Scans without a NaN and without signs are equal just if they are the same. -/
theorem Scan.equals_iff_eq {a b : Scan} (ha : ∀ t ∈ a.tokens, t.Within Binary64.IsPlain)
    (hb : ∀ t ∈ b.tokens, t.Within Binary64.IsPlain) : a.equals b = true ↔ a = b := by
  rw [equals_iff_agree]
  exact agree_iff (fun _ _ hv hw => hv.sameValue_iff hw) ha hb

/-- **Equality of scans is exact**, for any two sources and with any tables. -/
theorem exactEquality_scan (first second : ReservedWords) (a b : String) :
    ExactEquality (Scan.ofSource first a) (Scan.ofSource second b) := by
  have ha : ∀ t ∈ (Scan.ofSource first a).tokens, t.Within Binary64.IsPlain :=
    fun _ ht => Scan.isPlain_of_mem_tokens ht
  have hb : ∀ t ∈ (Scan.ofSource second b).tokens, t.Within Binary64.IsPlain :=
    fun _ ht => Scan.isPlain_of_mem_tokens ht
  exact {
    value := Scan.equals_iff_agree
    bits := by rw [Scan.agree_sameBits_iff, Scan.equals_iff_eq ha hb]
    identical := Scan.equals_iff_eq ha hb
    self := (Scan.equals_iff_eq ha ha).mpr rfl
    nan := fun _ => Token.equals_eq_false_self_iff
    zeros := fun _ _ => Token.equals_and_ne_iff }

end SeqScan
