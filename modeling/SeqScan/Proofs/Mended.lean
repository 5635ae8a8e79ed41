import SeqScan.Proofs.Lookahead
import SeqScan.Proofs.Modes

/-
  A text without its unexpected characters.

  A character that starts nothing is reported and skipped. A blank in its place is skipped
  as well, and nothing shows the difference: no piece takes an unexpected character into
  itself or looks past it, and to whatever stands before it, it is a character that divides,
  as a blank is. In a string or a comment no character is unexpected, and there none is
  replaced.

  What is proved:
    1. `Cut.mend`: a piece ends where it did when what follows it is mended, in whatever
       mode the automaton is.
    2. `Scan.mend_from`: from any place on, mending keeps the tokens, and of the diagnostics
       all that are not of a character.
    3. `Scan.mended_eq`: the characters that the automaton reports are those that the
       diagnostics point at.
    4. `mended_scan`: the whole law, for every source and every table.
-/

namespace SeqScan

/-! Mending -/

def Fault.isCharacter : Fault → Bool
  | unexpectedCharacter _ => true
  | unterminatedString => false

namespace Scan

def pointsAt (s : Scan) (text : List Char) (p : Nat) : Bool :=
  s.diagnostics.any fun d =>
    d.fault.isCharacter && d.line = lineAt text p && d.column = columnAt text p

/-- The text with a space in place of every character that a diagnostic points at. -/
def mended (s : Scan) (text : List Char) : List Char :=
  text.mapIdx fun p c => if s.pointsAt text p then ' ' else c

end Scan

namespace Mode

variable {m : Mode} {c d : Char} {text : List Char}

/-- The text with a space in place of every character that the automaton reports. -/
def mend : Mode → List Char → List Char
  | _, [] => []
  | m, c :: cs => (if reports m c then ' ' else c) :: mend (m.step c) cs

theorem mend_append (m : Mode) (a b : List Char) :
    mend m (a ++ b) = mend m a ++ mend (m.run a) b := by
  induction a generalizing m with
  | nil => rfl
  | cons c a ih => rw [List.cons_append, mend, mend, ih, List.cons_append, run_cons]

theorem getElem?_mend (m : Mode) (text : List Char) (i : Nat) : (mend m text)[i]? =
    text[i]?.map fun c => if reports (m.run (text.take i)) c then ' ' else c := by
  induction text generalizing m i with
  | nil => rfl
  | cons c cs ih =>
    cases i with
    | zero => rfl
    | succ i => exact ih (m.step c) i

theorem mend_of_hits {p : Nat} (h : hits reports m p text = []) : mend m text = text := by
  induction text generalizing m p with
  | nil => rfl
  | cons c cs ih =>
    rw [hits_cons, List.append_eq_nil_iff] at h
    have hc : reports m c = false := by simpa using h.1
    rw [mend, hc, ih h.2]
    rfl

theorem mend_eq_cons {cs : List Char} (h : mend m text = c :: cs) :
    ∃ x xs, text = x :: xs ∧ cs = mend (m.step x) xs ∧
      (c = x ∨ c = ' ' ∧ Text.isRecognised x = false) := by
  cases text with
  | nil => cases h
  | cons x xs =>
    obtain ⟨hc, hcs⟩ := List.cons.inj h
    refine ⟨x, xs, rfl, hcs.symm, ?_⟩
    cases hr : reports m x with
    | false => exact .inl (by rw [← hc, hr]; rfl)
    | true =>
      rw [reports, Bool.and_eq_true, Bool.not_eq_true'] at hr
      exact .inr ⟨by rw [← hc, reports, hr.1, hr.2]; rfl, hr.2⟩

end Mode

/-- **A piece does not see** whether what follows it is mended. -/
theorem Cut.mend {p : Piece} {rest : List Char} (h : Cut p rest) (m : Mode) :
    Cut p (m.mend rest) := by
  by_cases hu : p.shape = .unterminated
  · obtain ⟨_, _, _, rfl⟩ := h.of_unterminated hu
    exact h
  have hspace : Text.Divides ' ' := Text.divides_of_isBlank (by decide)
  refine h.of_next hu ?_ ?_
  · intro d hd
    obtain ⟨cs, hmend⟩ := List.head?_eq_some_iff.mp hd
    obtain ⟨x, xs, rfl, _, rfl | ⟨rfl, hx⟩⟩ := Mode.mend_eq_cons hmend
    · exact .inl rfl
    · -- after a comment a line feed stands, which is recognised
      refine .inr ⟨hspace, fun hs => ?_⟩
      cases h <;> simp only [reduceCtorEq] at hs
      case comment hr =>
        have hline : x = '\n' := by simpa using hr
        rw [hline] at hx
        exact absurd hx (by decide)
  · intro d more hmend hd
    obtain ⟨x, xs, rfl, hxs, rfl | ⟨hx, _⟩⟩ := Mode.mend_eq_cons hmend
    · obtain ⟨y, ys, rfl, _, rfl | ⟨rfl, _⟩⟩ := Mode.mend_eq_cons hxs.symm
      · exact ⟨ys, rfl⟩
      · exact absurd hd (by decide)
    · exact absurd hx (by decide)

namespace Scan

variable {m : Mode} {text : List Char}

/-- From any place on, mending keeps the tokens and all diagnostics but those of characters. -/
theorem mend_from (table : ReservedWords) (pos : Position) (hr : Ready m text) :
    tokensFrom table pos (m.mend text) = tokensFrom table pos text ∧
      diagnosticsFrom pos (m.mend text) =
        (diagnosticsFrom pos text).filter (!·.fault.isCharacter) := by
  induction text using Piece.cut_induction generalizing m pos with
  | nil =>
    rw [Mode.mend, diagnosticsFrom_nil]
    exact ⟨rfl, rfl⟩
  | cut p rest h ih =>
    have hp := hits_piece h hr 0
    obtain ⟨htokens, hdiagnostics⟩ := ih (pos.after p.text) hp.ready
    rw [Mode.mend_append, tokensFrom_cut table pos h, diagnosticsFrom_cut pos h,
      List.filter_append, ← htokens, ← hdiagnostics]
    by_cases hx : p.shape = .unexpected
    · obtain ⟨htext, hrec⟩ := h.of_unexpected hx
      have hfault : p.fault? = some (.unexpectedCharacter p.first) := by simp [Piece.fault?, hx]
      have hreports : Mode.reports m p.first = true := by
        have hhits := hp.reports
        rw [if_pos hx, htext, Mode.hits_cons] at hhits
        cases hc : Mode.reports m p.first with
        | true => rfl
        | false =>
          rw [hc] at hhits
          cases hhits
      -- neither the character nor the space is a line feed, so the next place is the same
      have hplace : pos.after p.text = pos.advance ' ' := by
        have hline : p.first ≠ '\n' :=
          (Text.ne_of_test (q := Text.isRecognised) (by decide) hrec).symm
        rw [htext, Position.after_cons, Position.after_nil, Position.advance, if_neg hline]
        rfl
      have hmend : m.mend p.text = [' '] := by
        rw [htext, Mode.mend, hreports]
        rfl
      rw [hmend, hplace, Placed.token?_of_fault hfault, Placed.diagnostic?_of_fault hfault]
      exact ⟨tokensFrom_blank table pos (by decide), diagnosticsFrom_blank pos (by decide)⟩
    · have hmend : m.mend p.text = p.text :=
        Mode.mend_of_hits (hp.reports.trans (if_neg hx))
      have hcut := h.mend (m.run p.text)
      have hkeep : (Placed.diagnostic? ⟨p, pos⟩).toList.filter (!·.fault.isCharacter) =
          (Placed.diagnostic? ⟨p, pos⟩).toList := by
        rw [List.filter_eq_self]
        intro d hd
        obtain ⟨fault, hfault, rfl⟩ := Option.map_eq_some_iff.mp (Option.mem_toList.mp hd)
        rw [Piece.fault?_of_ne_unexpected hx hfault]
        rfl
      rw [hmend, hkeep, tokensFrom_cut table pos hcut, diagnosticsFrom_cut pos hcut]
      exact ⟨rfl, rfl⟩

/-- The diagnostics point at a character if and only if the automaton reports it. -/
theorem pointsAt_iff (table : ReservedWords) {p : Nat} {c : Char} (hc : text[p]? = some c) :
    (ofChars table text).pointsAt text p = true ↔ Mode.reports (modeAt text p) c = true := by
  have hp := (List.getElem?_eq_some_iff.mp hc).1
  have hreports : Mode.reports (modeAt text p) c = true ↔ (p, c) ∈ reported text := by
    rw [mem_reported_iff, Mode.reports, Bool.and_eq_true, Bool.not_eq_true']
    exact (and_iff_right hc).symm
  rw [hreports, pointsAt, List.any_eq_true, diagnostics_eq]
  constructor
  · intro h
    obtain ⟨d, hd, hat⟩ := h
    simp only [Bool.and_eq_true, decide_eq_true_eq] at hat
    obtain ⟨⟨hfault, hline⟩, hcolumn⟩ := hat
    rcases List.mem_append.mp hd with hd | hd
    · obtain ⟨⟨q, x⟩, hq, rfl⟩ := List.mem_map.mp hd
      have hx := (mem_reported_iff.mp hq).1
      have hlt := (List.getElem?_eq_some_iff.mp hx).1
      obtain rfl := offset_unique (Nat.le_of_lt hlt) (Nat.le_of_lt hp) hline hcolumn
      obtain rfl : x = c := Option.some.inj (hx.symm.trans hc)
      exact hq
    · obtain ⟨_, _, rfl⟩ := List.mem_map.mp hd
      cases hfault
  · intro h
    refine ⟨_, List.mem_append_left _ (List.mem_map_of_mem h), ?_⟩
    simp [unexpectedAt, diagnosticAt, Fault.isCharacter]

theorem mended_eq (table : ReservedWords) (text : List Char) :
    (ofChars table text).mended text = Mode.mend .code text := by
  apply List.ext_getElem?
  intro p
  rw [mended, List.getElem?_mapIdx, Mode.getElem?_mend]
  cases hc : text[p]? with
  | none => rfl
  | some c =>
    have hiff := pointsAt_iff table hc
    rw [modeAt] at hiff
    simp only [Option.map_some, hiff]

/-- In a string and in a comment nothing is replaced. -/
example : (ofSource .standard "1.#\"#\"//#\n#").mended "1.#\"#\"//#\n#".toList =
    "1. \"#\"//#\n ".toList := by
  decide +kernel

end Scan

/-- **A space in place of every unexpected character** changes no token, and of the diagnostics
it takes away those of the characters alone, for every source and every table of reserved
words. -/
theorem mended_scan (table : ReservedWords) (source : String) :
    (Scan.ofSource table
        (String.ofList ((Scan.ofSource table source).mended source.toList))).tokens =
      (Scan.ofSource table source).tokens ∧
    (Scan.ofSource table
        (String.ofList ((Scan.ofSource table source).mended source.toList))).diagnostics =
      (Scan.ofSource table source).diagnostics.filter (!·.fault.isCharacter) := by
  have hmend := @Scan.mend_from .code source.toList table .first trivial
  rw [← Scan.mended_eq table] at hmend
  rw [Scan.ofSource, Scan.ofSource, String.toList_ofList]
  exact hmend

end SeqScan
