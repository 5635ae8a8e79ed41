import SeqScan.Proofs.Automaton
import SeqScan.Proofs.LongestMatch
import SeqScan.Proofs.Places

/-
  Strings, comments and faults without tokens.

  A scan cuts off whole tokens and looks two characters ahead; the automaton of
  modes does neither. That they agree means that no number, name or operator ever
  takes a quote, a slash or a bad character into itself, or hides one.

  What is proved:
    1. `diagnosticsFrom_eq`, `stringsFrom_eq`: from any place on, the diagnostics
       and the string tokens are those of the automaton.
    2. `length_opened`: at most one string of a text stays open.
    3. `followsModes_scan`: the whole law, for every source and every table.
-/

namespace SeqScan

/-! Scans and the automaton -/

def unexpectedAt (text : List Char) (x : Nat × Char) : Diagnostic :=
  diagnosticAt text (x.1, .unexpectedCharacter x.2)

def unterminatedAt (text : List Char) (x : Nat × Char) : Diagnostic :=
  diagnosticAt text (x.1, .unterminatedString)

def stringAt (text : List Char) (x y : Nat × Char) : Token where
  kind := .string
  lexeme := String.ofList (slice text x.1 (y.1 + 1))
  literal := some (.string (String.ofList (slice text (x.1 + 1) y.1)))
  span := ⟨x.1, y.1 + 1, lineAt text x.1, columnAt text x.1⟩

namespace Piece

theorem kind?_eq_string_iff {table : ReservedWords} {p : Piece} :
    p.kind? table = some .string ↔ p.shape = .string := by
  have hname : (p.nameClass table).tokenKind ≠ .string := by
    rcases (p.nameClass table).tokenKind_cases with h | h | h <;> simp [h]
  cases hs : p.shape <;> simp [kind?, hs, hname]

end Piece

namespace Scan

variable {m : Mode} {rest : List Char}

/-- From any place on, the diagnostics are the reports of the automaton, and a
last one for the quote that it leaves open. -/
theorem diagnosticsFrom_eq (before : List Char) (hr : Ready m rest) :
    diagnosticsFrom (Position.first.after before) rest =
      (Mode.hits Mode.reports m before.length rest).map (unexpectedAt (before ++ rest)) ++
      ((Mode.hits Mode.opens m before.length rest).drop
        (Mode.hits Mode.closes m before.length rest).length).map
          (unterminatedAt (before ++ rest)) := by
  induction rest using Piece.cut_induction generalizing m before with
  | nil => simp
  | cut p rest h ih =>
    have hp := hits_piece h hr before.length
    -- the mode after the piece is another one, and fits what is left
    have ih := ih (before ++ p.text) hp.ready
    rw [List.append_assoc, List.length_append, Position.after_append] at ih
    rw [diagnosticsFrom_cut _ h, ih, Mode.hits_append, Mode.hits_append, Mode.hits_append,
      hp.reports, hp.opens, hp.closes]
    have hplace := after_eq before (p.text ++ rest)
    rcases LexemeClass.exists_shape p.shape with ⟨cls, hs⟩ | hs | hs
    · rw [Placed.diagnostic?_of_no_fault (Piece.fault?_eq_none hs)]
      cases cls <;> simp [hs, LexemeClass.shape]
    · have hfault : p.fault? = some .unterminatedString := by simp [Piece.fault?, hs]
      obtain ⟨_, _, _, rfl⟩ := h.of_unterminated hs
      rw [Placed.diagnostic?_of_fault hfault, hplace]
      simp [hs, placeAt, unterminatedAt, diagnosticAt]
    · have hfault : p.fault? = some (.unexpectedCharacter p.first) := by simp [Piece.fault?, hs]
      rw [Placed.diagnostic?_of_fault hfault, hplace]
      simp [hs, placeAt, unexpectedAt, diagnosticAt]

theorem token?_of_string {p : Piece} (h : Cut p rest) (hs : p.shape = .string)
    (table : ReservedWords) (before : List Char) :
    Placed.token? table ⟨p, Position.first.after before⟩ =
      some (stringAt (before ++ (p.text ++ rest)) (before.length, '"')
        (before.length + p.rest.length, '"')) := by
  have hplace := after_eq before (p.text ++ rest)
  have hwhole := slice_append before p.text rest
  rw [Piece.length_text, ← Nat.add_assoc] at hwhole
  cases h <;> simp only [reduceCtorEq] at hs
  case string body hb =>
    have hlen : (body ++ ['"']).length = body.length + 1 := by simp
    have hinner := slice_append (before ++ ['"']) body ('"' :: rest)
    have htext : before ++ ['"'] ++ (body ++ '"' :: rest) =
        before ++ ('"' :: (body ++ ['"']) ++ rest) := by simp
    rw [htext, List.length_append, List.length_singleton, Nat.add_assoc, Nat.add_comm 1] at hinner
    simp only [Placed.token?, Piece.kind?, Piece.literal?, Placed.span, Piece.lexeme, hplace,
      Option.map_some, stringAt, placeAt, Piece.text, hlen, List.dropLast_concat,
      List.length_cons] at hwhole ⊢
    rw [hwhole, hinner]
    rfl

theorem token?_filter_of_ne {p : Piece} (hs : p.shape ≠ .string) (table : ReservedWords)
    (pos : Position) : (Placed.token? table ⟨p, pos⟩).toList.filter (·.kind = .string) = [] := by
  cases hk : p.kind? table with
  | none => simp [Placed.token?, hk]
  | some kind =>
    have hne : kind ≠ .string := by
      intro he
      rw [he] at hk
      exact hs (Piece.kind?_eq_string_iff.mp hk)
    simp [Placed.token?, hk, hne]

/-- From any place on, the string tokens are the stretches between a quote that
opens and the one that closes it. -/
theorem stringsFrom_eq (table : ReservedWords) (before : List Char) (hr : Ready m rest) :
    (tokensFrom table (Position.first.after before) rest).filter (·.kind = .string) =
      ((Mode.hits Mode.opens m before.length rest).zip
        (Mode.hits Mode.closes m before.length rest)).map
          (fun xy => stringAt (before ++ rest) xy.1 xy.2) := by
  induction rest using Piece.cut_induction generalizing m before with
  | nil => simp [Token.eof]
  | cut p rest h ih =>
    have hp := hits_piece h hr before.length
    have ih := ih (before ++ p.text) hp.ready
    rw [List.append_assoc, List.length_append, Position.after_append] at ih
    rw [tokensFrom_cut table _ h, List.filter_append, ih, Mode.hits_append, Mode.hits_append,
      hp.opens, hp.closes]
    -- a piece opens and closes a string or does neither, so the pairs stay in step
    by_cases hs : p.shape = .string
    · rw [token?_of_string h hs]
      simp [hs, stringAt]
    · rw [token?_filter_of_ne hs]
      by_cases ho : p.shape = .unterminated
      · -- nothing follows the quote that stays open, and it has no pair
        obtain ⟨_, _, _, rfl⟩ := h.of_unterminated ho
        simp [ho]
      · simp [hs, ho]

end Scan

/-! The whole text -/

/-- The characters of a text that the automaton reports, with their offsets. -/
def reported (text : List Char) : List (Nat × Char) := Mode.hits Mode.reports .code 0 text

def opened (text : List Char) : List (Nat × Char) := Mode.hits Mode.opens .code 0 text

def closed (text : List Char) : List (Nat × Char) := Mode.hits Mode.closes .code 0 text

/-- A scan of a text agrees with the automaton. -/
structure FollowsModes (text : List Char) (scan : Scan) : Prop where
  /-- A character is reported if and only if it is read as code and not recognised. -/
  reported_iff : ∀ p c, text[p]? = some c →
    (unexpectedAt text (p, c) ∈ scan.diagnostics ↔
      (modeAt text p).isCode = true ∧ Text.isRecognised c = false)
  /-- If the text does not end in a string, nothing else is reported. -/
  diagnostics_of_closed : modeAt text text.length ≠ .inString →
    scan.diagnostics = (reported text).map (unexpectedAt text)
  /-- If it does, that is reported once more, at the end. -/
  diagnostics_of_open : modeAt text text.length = .inString →
    ∃ d : Diagnostic, d.fault = .unterminatedString ∧
      scan.diagnostics = (reported text).map (unexpectedAt text) ++ [d]
  /-- The string tokens are the stretches from a quote that opens to the one that closes. -/
  strings : scan.tokens.filter (·.kind = .string) =
    ((opened text).zip (closed text)).map (fun xy => stringAt text xy.1 xy.2)
  /-- There are no faults if nothing is reported and the text does not end in a string. -/
  hasFaults_iff : scan.hasFaults = false ↔
    reported text = [] ∧ modeAt text text.length ≠ .inString

theorem mem_reported_iff {text : List Char} {p : Nat} {c : Char} : (p, c) ∈ reported text ↔
    text[p]? = some c ∧ (modeAt text p).isCode = true ∧ Text.isRecognised c = false := by
  rw [reported, Mode.mem_hits_iff]
  constructor
  · intro h
    obtain ⟨i, rfl, hc, ht⟩ := h
    rw [Nat.zero_add]
    simp only [Mode.reports, Bool.and_eq_true, Bool.not_eq_true'] at ht
    exact ⟨hc, ht⟩
  · intro h
    obtain ⟨hc, hm, hr⟩ := h
    refine ⟨p, (Nat.zero_add p).symm, hc, ?_⟩
    rw [modeAt] at hm
    simp [Mode.reports, hm, hr]

/-- Two reports are the same only if they are of one offset. -/
theorem unexpectedAt_mem_map_iff {text : List Char} {p : Nat} {c : Char}
    (hc : text[p]? = some c) :
    unexpectedAt text (p, c) ∈ (reported text).map (unexpectedAt text) ↔
      (p, c) ∈ reported text := by
  have hp := (List.getElem?_eq_some_iff.mp hc).1
  constructor
  · intro h
    obtain ⟨⟨q, d⟩, hq, heq⟩ := List.mem_map.mp h
    have hd := (mem_reported_iff.mp hq).1
    have hlt := (List.getElem?_eq_some_iff.mp hd).1
    obtain ⟨hf, hl, hcol⟩ := Diagnostic.mk.inj heq
    obtain rfl := Fault.unexpectedCharacter.inj hf
    obtain rfl := offset_unique (Nat.le_of_lt hlt) (Nat.le_of_lt hp) hl hcol
    exact hq
  · exact List.mem_map_of_mem

/-- The quotes that open strings are as many as those that close them, and one
more if the text ends in a string. -/
theorem length_opened (text : List Char) : (opened text).length =
    (closed text).length + (if modeAt text text.length = .inString then 1 else 0) := by
  have h := Mode.length_opens .code 0 text
  rw [if_neg nofun, Nat.add_zero] at h
  rw [modeAt, List.take_length]
  exact h

theorem unclosed_eq_nil {text : List Char} (h : modeAt text text.length ≠ .inString) :
    (opened text).drop (closed text).length = [] := by
  have hlen := length_opened text
  rw [if_neg h] at hlen
  exact List.drop_eq_nil_of_le (Nat.le_of_eq hlen)

theorem exists_unclosed {text : List Char} (h : modeAt text text.length = .inString) :
    ∃ x, (opened text).drop (closed text).length = [x] := by
  have hlen := length_opened text
  rw [if_pos h] at hlen
  apply List.length_eq_one_iff.mp
  rw [List.length_drop]
  omega

theorem diagnostics_eq (table : ReservedWords) (text : List Char) :
    (Scan.ofChars table text).diagnostics = (reported text).map (unexpectedAt text) ++
      ((opened text).drop (closed text).length).map (unterminatedAt text) :=
  Scan.diagnosticsFrom_eq (m := .code) [] trivial

/-- **A scan agrees with the automaton**, for every source and every table of
reserved words. -/
theorem followsModes_scan (table : ReservedWords) (source : String) :
    FollowsModes source.toList (Scan.ofSource table source) where
  reported_iff := by
    intro p c hc
    have hlast : unexpectedAt source.toList (p, c) ∉
        ((opened source.toList).drop (closed source.toList).length).map
          (unterminatedAt source.toList) := by
      intro h
      obtain ⟨_, _, heq⟩ := List.mem_map.mp h
      cases (Diagnostic.mk.inj heq).1
    rw [Scan.ofSource, diagnostics_eq, List.mem_append, or_iff_left hlast,
      unexpectedAt_mem_map_iff hc, mem_reported_iff]
    exact and_iff_right hc
  diagnostics_of_closed := by
    intro h
    rw [Scan.ofSource, diagnostics_eq, unclosed_eq_nil h, List.map_nil, List.append_nil]
  diagnostics_of_open := by
    intro h
    obtain ⟨x, hx⟩ := exists_unclosed h
    refine ⟨unterminatedAt source.toList x, rfl, ?_⟩
    rw [Scan.ofSource, diagnostics_eq, hx, List.map_singleton]
  strings := Scan.stringsFrom_eq table (m := .code) [] trivial
  hasFaults_iff := by
    rw [Scan.hasFaults, Bool.not_eq_false', List.isEmpty_iff, Scan.ofSource, diagnostics_eq,
      List.append_eq_nil_iff, List.map_eq_nil_iff, List.map_eq_nil_iff]
    apply and_congr_right
    intro _
    constructor
    · intro hnil hopen
      obtain ⟨x, hx⟩ := exists_unclosed hopen
      rw [hnil] at hx
      cases hx
    · exact unclosed_eq_nil

end SeqScan
