import SeqScan.Proofs.Rounding
import SeqScan.Proofs.Words

/-
  Numbers that are written and scanned.

  A finite number is written as its sign and a decimal, an integer with all its digits and
  `.0`, any other number with the digits that are enough. Scanning takes the sign for a
  minus, the decimal for one number, and reads it: the digits have the value they
  were written for, whether or not a zero was put after the point, and that value is
  rounded to the magnitude of the number. So nothing is lost but the sign, and
  the minus tells it.

  What is proved:
    1. `Decimal.read_text`: a decimal that is written is read to its value.
    2. `point_mem_plain_shortest`: the digits that are enough have a point in them for
       exactly the numbers that are no integers, so `.0` is put where none stands.
    3. `Scan.contents_number`, `Scan.contents_minus`: how a decimal is scanned, and a
       minus before it.
    4. `writtenNumber_scan`: the text of every finite number and its scan.
-/

namespace SeqScan

/-! A decimal that is written -/

namespace Decimal

/-- The digits after the point have the value of the remainder. -/
theorem ofDigitChars_fractionDigits {places remainder : Nat} (hsmall : remainder < 10 ^ places)
    (whole : Nat) :
    Nat.ofDigitChars 10 (fractionDigits places remainder) whole * 10 ^ places =
      (whole * 10 ^ places + remainder) * 10 ^ (fractionDigits places remainder).length := by
  induction places generalizing remainder whole with
  | zero =>
    obtain rfl : remainder = 0 := by simpa using hsmall
    simp [fractionDigits]
  | succ places ih =>
    by_cases hz : remainder = 0
    · simp only [fractionDigits, hz, if_true, Nat.ofDigitChars_nil, List.length_nil, Nat.pow_zero,
        Nat.mul_one, Nat.add_zero]
    · have hpos : 0 < 10 ^ places := Nat.pow_pos (by decide)
      -- the first digit joins what stands before it
      have hvalue : (10 * whole + remainder / 10 ^ places) * 10 ^ places + remainder % 10 ^ places =
          whole * 10 ^ (places + 1) + remainder := by
        rw [Nat.add_mul, Nat.add_assoc, Nat.mul_comm (remainder / _), Nat.div_add_mod,
          Nat.mul_comm 10, Nat.mul_assoc, ← Nat.pow_succ']
      have hrest := ih (Nat.mod_lt remainder hpos) (10 * whole + remainder / 10 ^ places)
      rw [hvalue] at hrest
      rw [fractionDigits, if_neg hz, Nat.ofDigitChars_cons_digitChar_of_lt_ten (lead_lt_ten hsmall),
        List.length_cons, Nat.pow_succ, ← Nat.mul_assoc, hrest, Nat.pow_succ, Nat.mul_assoc]
      rfl

theorem fractionDigits_eq_nil_iff {places remainder : Nat} (hsmall : remainder < 10 ^ places) :
    fractionDigits places remainder = [] ↔ remainder = 0 := by
  cases places with
  | zero =>
    obtain rfl : remainder = 0 := by simpa using hsmall
    simp [fractionDigits]
  | succ places =>
    unfold fractionDigits
    split
    next hz => simp [hz]
    next hz => simp [hz]

theorem remainder_lt (d : Decimal) : d.digits % 10 ^ d.places < 10 ^ d.places :=
  Nat.mod_lt _ (Nat.pow_pos (by decide))

/-- What is written after the point has the value of the remainder. -/
theorem ofDigitChars_fraction (d : Decimal) (whole : Nat) :
    Nat.ofDigitChars 10 d.fraction whole * 10 ^ d.places =
      (whole * 10 ^ d.places + d.digits % 10 ^ d.places) * 10 ^ d.fraction.length := by
  have hdigits := ofDigitChars_fractionDigits d.remainder_lt whole
  unfold fraction
  split
  next hnil =>
    -- a zero stands for no remainder
    rw [(fractionDigits_eq_nil_iff d.remainder_lt).mp hnil]
    show (10 * whole + 0) * 10 ^ d.places = (whole * 10 ^ d.places + 0) * 10
    rw [Nat.add_zero, Nat.add_zero, Nat.mul_comm 10, Nat.mul_right_comm]
  next => exact hdigits

/-- **A decimal that is written is read to its value.** -/
theorem read_text (d : Decimal) :
    (read d.text).digits * 10 ^ d.places = d.digits * 10 ^ (read d.text).places := by
  have hsplit := Nat.div_add_mod d.digits (10 ^ d.places)
  simp only [read, splitPoint_text]
  rw [Nat.ofDigitChars_append, wholeDigits, Nat.ofDigitChars_ten_toDigits, ofDigitChars_fraction,
    Nat.mul_comm (d.digits / _), hsplit]

/-! The point -/

/-- The plain form without a superfluous point: nothing stands after the whole digits
of an integer. -/
def plain (d : Decimal) : List Char :=
  match fractionDigits d.places (d.digits % 10 ^ d.places) with
  | [] => d.wholeDigits
  | digits => d.wholeDigits ++ '.' :: digits

theorem plain_of_dvd {d : Decimal} (h : 10 ^ d.places ∣ d.digits) :
    d.plain = d.wholeDigits ∧ d.text = d.wholeDigits ++ ['.', '0'] := by
  have hnil := (fractionDigits_eq_nil_iff d.remainder_lt).mpr (Nat.mod_eq_zero_of_dvd h)
  rw [plain, text, fraction, hnil]
  exact ⟨rfl, rfl⟩

theorem plain_of_not_dvd {d : Decimal} (h : ¬ 10 ^ d.places ∣ d.digits) : d.plain = d.text := by
  have hne : fractionDigits d.places (d.digits % 10 ^ d.places) ≠ [] := fun hnil =>
    h (Nat.dvd_of_mod_eq_zero ((fractionDigits_eq_nil_iff d.remainder_lt).mp hnil))
  obtain ⟨c, digits, hcons⟩ := List.exists_cons_of_ne_nil hne
  rw [plain, text, fraction, hcons]

theorem point_mem_plain_iff {d : Decimal} : '.' ∈ d.plain ↔ ¬ 10 ^ d.places ∣ d.digits := by
  constructor
  · intro hm hdvd
    rw [(plain_of_dvd hdvd).1] at hm
    exact absurd (isDigit_of_mem_wholeDigits hm) (by decide)
  · intro h
    rw [plain_of_not_dvd h, text]
    exact List.mem_append_right _ List.mem_cons_self

end Decimal

namespace Binary64

variable {v : Binary64}

theorem places_shortenFrom (v : Binary64) (d : Decimal) (bound : Nat) :
    (v.shortenFrom d bound).places = d.places := by
  induction bound with
  | zero => rfl
  | succ bound ih =>
    unfold shortenFrom neighbour?
    dsimp only
    split
    · rfl
    · split
      · rfl
      · exact ih

theorem places_of_isIntegral (h : v.isIntegral = true) : v.exact.places = 0 := beq_iff_eq.mp h

/-- **The digits that are enough have a point** for all numbers but the integers. -/
theorem point_mem_plain_shortest (h : v.isFinite = true) :
    '.' ∈ v.shortest.plain ↔ v.isIntegral = false := by
  rw [Decimal.point_mem_plain_iff, ← Bool.not_eq_true]
  constructor
  · intro hnot hint
    apply hnot
    rw [shortest, places_shortenFrom, places_of_isIntegral hint]
    exact Nat.one_dvd _
  · intro hnot hdvd
    exact hnot (isIntegral_of_nearest h (nearest_shortest h) hdvd)

/-- A zero after the point is written for integers, and for no other number. -/
theorem text_decimal (h : v.isFinite = true) :
    v.decimal.text =
      if v.isIntegral then v.exact.wholeDigits ++ ['.', '0'] else v.shortest.plain := by
  unfold decimal
  split
  next hint =>
    have hdvd : 10 ^ v.exact.places ∣ v.exact.digits := by
      rw [places_of_isIntegral hint]
      exact Nat.one_dvd _
    exact (Decimal.plain_of_dvd hdvd).2
  next hnot =>
    have hpoint := (point_mem_plain_shortest h).mpr (Bool.not_eq_true _ ▸ hnot)
    exact (Decimal.plain_of_not_dvd (Decimal.point_mem_plain_iff.mp hpoint)).symm

end Binary64

/-! The scan of a decimal -/

theorem Operator.not_continues_minus (d : Char) : ¬ Continues ['-'] d := by
  have hall : ∀ e ∈ spellings, e.1.head? = some '-' → e.1.length = 1 := by decide
  intro h
  rcases h with hm | ⟨hslash, _⟩
  · obtain ⟨e, he, heq⟩ := List.mem_map.mp hm
    have hlen := hall e he (by rw [heq]; rfl)
    rw [heq] at hlen
    exact absurd hlen (by simp)
  · exact absurd hslash (by decide)

namespace Scan

variable (table : ReservedWords) (pos : Position)

theorem contents_minus (rest : List Char) :
    (tokensFrom table pos ('-' :: rest)).map Token.content =
        (.operator .minus, "-", none) ::
          (tokensFrom table (pos.after ['-']) rest).map Token.content ∧
      diagnosticsFrom pos ('-' :: rest) = diagnosticsFrom (pos.after ['-']) rest := by
  have hcut : Cut ⟨.operator .minus, '-', []⟩ rest :=
    .operator (by decide) fun d _ => Operator.not_continues_minus d
  constructor
  · exact congrArg (List.map Token.content) (tokensFrom_cut table pos hcut)
  · exact diagnosticsFrom_cut pos hcut

theorem contents_number {whole fraction : List Char} (hw : whole ≠ []) (hf : fraction ≠ [])
    (hdigit : ∀ c ∈ whole ++ fraction, c.isDigit = true) :
    (tokensFrom table pos (whole ++ '.' :: fraction)).map Token.content =
        [(.number, String.ofList (whole ++ '.' :: fraction),
            some (.number (Binary64.nearest (Decimal.read (whole ++ '.' :: fraction))))),
          Token.endContent] ∧
      diagnosticsFrom pos (whole ++ '.' :: fraction) = [] := by
  obtain ⟨c, ds, rfl⟩ := List.exists_cons_of_ne_nil hw
  obtain ⟨f, fs, rfl⟩ := List.exists_cons_of_ne_nil hf
  simp only [List.cons_append, List.mem_cons, List.mem_append, forall_eq_or_imp] at hdigit
  have hcut : Cut ⟨.number, c, ds ++ '.' :: f :: fs⟩ [] :=
    .fraction hdigit.1 (fun d hd => hdigit.2 d (.inl hd)) (hdigit.2 f (.inr (.inl rfl)))
      (fun d hd => hdigit.2 d (.inr (.inr hd))) (Stops.nil _)
  have htokens := tokensFrom_cut table pos hcut
  have hdiagnostics := diagnosticsFrom_cut pos hcut
  rw [List.append_nil] at htokens hdiagnostics
  rw [tokensFrom_nil] at htokens
  rw [diagnosticsFrom_nil] at hdiagnostics
  constructor
  · exact congrArg (List.map Token.content) htokens
  · exact hdiagnostics

end Scan

/-! The whole text -/

/-- How a number is written, and what the scan of that text is. -/
structure WrittenNumber (table : ReservedWords) (v : Binary64) : Prop where
  /-- An integer is written with all its digits and `.0`, any other number with the digits
  that are enough, and a sign before them. -/
  format : (Literal.number v).text.toList = (if v.negative then ['-'] else []) ++
    if v.isIntegral then v.exact.wholeDigits ++ ['.', '0'] else v.shortest.plain
  /-- So `.0` is put just where the digits that are enough have no point in them. -/
  guarded : '.' ∈ v.shortest.plain ↔ v.isIntegral = false
  /-- The sign is a minus, and the rest is one number with the bits of the magnitude. -/
  scanned : ∃ whole fraction : List Char, whole ≠ [] ∧ fraction ≠ [] ∧
    (∀ c ∈ whole ++ fraction, Digit c) ∧
    (Literal.number v).text.toList =
      (if v.negative then ['-'] else []) ++ (whole ++ '.' :: fraction) ∧
    (Scan.ofSource table (Literal.number v).text).tokens.map Token.content =
      (if v.negative then [(.operator .minus, "-", none)] else []) ++
        [(.number, String.ofList (whole ++ '.' :: fraction), some (.number v.abs)),
          Token.endContent]
  /-- Nothing is wrong with it. -/
  clean : (Scan.ofSource table (Literal.number v).text).diagnostics = []

namespace Binary64

variable {v : Binary64}

theorem toList_text_number (h : v.isFinite = true) :
    (Literal.number v).text.toList = v.sign ++ v.decimal.text := by
  show (String.ofList v.chars).toList = _
  rw [String.toList_ofList, chars, if_pos h]

/-- What is written after the sign is read as the magnitude. -/
theorem nearest_read_text (h : v.isFinite = true) :
    nearest (Decimal.read v.decimal.text) = v.abs := by
  rw [nearest_congr (Decimal.read_text v.decimal), nearest_decimal h]

end Binary64

namespace Scan

theorem contents_signed (table : ReservedWords) {v : Binary64} (h : v.isFinite = true) :
    (ofChars table (v.sign ++ v.decimal.text)).tokens.map Token.content =
        (if v.negative then [(.operator .minus, "-", none)] else []) ++
          [(.number, String.ofList v.decimal.text, some (.number v.abs)), Token.endContent] ∧
      (ofChars table (v.sign ++ v.decimal.text)).diagnostics = [] := by
  have hnumber := fun pos => contents_number table pos v.decimal.wholeDigits_ne_nil
    v.decimal.fraction_ne_nil fun _ => Decimal.isDigit_of_mem_digits
  rw [← Decimal.text, Binary64.nearest_read_text h] at hnumber
  cases hsign : v.negative with
  | false =>
    rw [Binary64.sign, hsign]
    exact hnumber .first
  | true =>
    obtain ⟨htokens, hdiagnostics⟩ := contents_minus table .first v.decimal.text
    obtain ⟨hcontents, hclean⟩ := hnumber (Position.first.after ['-'])
    rw [hcontents] at htokens
    rw [hclean] at hdiagnostics
    rw [Binary64.sign, hsign]
    exact ⟨htokens, hdiagnostics⟩

end Scan

/-- **A finite number that is written is scanned as itself**: a minus for its sign, and its
magnitude. -/
theorem writtenNumber_scan (table : ReservedWords) {v : Binary64} (h : v.isFinite = true) :
    WrittenNumber table v := by
  have htext := Binary64.toList_text_number h
  obtain ⟨hcontents, hclean⟩ := Scan.contents_signed table h
  rw [← htext] at hcontents hclean
  refine ⟨?_, Binary64.point_mem_plain_shortest h, ?_, hclean⟩
  · rw [htext, Binary64.text_decimal h, Binary64.sign]
  · exact ⟨v.decimal.wholeDigits, v.decimal.fraction, v.decimal.wholeDigits_ne_nil,
      v.decimal.fraction_ne_nil,
      fun _ hc => Text.isDigit_iff.mp (Decimal.isDigit_of_mem_digits hc), htext, hcontents⟩

/-- The negative number next to zero, whose digits stand after 323 zeros. -/
theorem writtenNumber_scan_least :
    Binary64.isFinite ⟨true, 0, 1⟩ = true ∧ WrittenNumber .standard ⟨true, 0, 1⟩ :=
  ⟨by decide, writtenNumber_scan .standard (by decide)⟩

end SeqScan
