import SeqScan.Proofs.Automaton
import SeqScan.Proofs.Places

/-
  Every token and every diagnostic carries its true place.

  The place of an offset is counted in the text alone (`lineAt`, `columnAt`).
  For a token the offset is the start of its span, and its characters stand
  there. For a diagnostic it is the offset of the fault: a character that is
  read as code and not recognised, or a quote that is read as code with no quote
  after it. The automaton of modes, which knows no places, says which offsets
  these are.

  What is proved:
    1. `exists_faults`: from any place on, the diagnostics stand at offsets of
       faults that increase strictly.
    2. `truePlaces_scan`: every token and every diagnostic of a scan, the end
       token included, is in its true place.
-/

namespace SeqScan

/-- The offset `p` is that of a fault. -/
def FaultAt (text : List Char) (p : Nat) : Fault → Prop
  | .unexpectedCharacter c =>
    text[p]? = some c ∧ (modeAt text p).isCode = true ∧ Text.isRecognised c = false
  | .unterminatedString =>
    text[p]? = some '"' ∧ (modeAt text p).isCode = true ∧ '"' ∉ text.drop (p + 1)

/-- Everything in a scan of a text is in its true place. -/
structure TruePlaces (text : List Char) (scan : Scan) : Prop where
  /-- A token starts where its lexeme stands, in the line and column of that offset. -/
  tokens : ∀ t ∈ scan.tokens, t.lexeme.toList <+: text.drop t.span.start ∧
    t.span.line = lineAt text t.span.start ∧ t.span.column = columnAt text t.span.start
  /-- The last token stands at the end of the text. -/
  eof : ∃ t, scan.tokens.getLast? = some t ∧ t.kind = .eof ∧ t.span.start = text.length
  /-- The diagnostics stand, one by one, at the offsets of their faults. -/
  diagnostics : ∃ faults : List (Nat × Fault), faults.Pairwise (fun x y => x.1 < y.1) ∧
    (∀ x ∈ faults, FaultAt text x.1 x.2) ∧ scan.diagnostics = faults.map (diagnosticAt text)

/-! Faults -/

namespace Piece

theorem faultAt {p : Piece} {before rest : List Char} {fault : Fault} (h : Cut p rest)
    (hr : Ready (Mode.run .code before) (p.text ++ rest)) (hf : p.fault? = some fault) :
    FaultAt (before ++ (p.text ++ rest)) before.length fault := by
  have hmode : modeAt (before ++ (p.text ++ rest)) before.length = Mode.run .code before := by
    rw [modeAt, List.take_left]
  have hchar : (before ++ (p.text ++ rest))[before.length]? = some p.first :=
    getElem?_length_append before p.first (p.rest ++ rest)
  cases h <;> simp only [fault?, reduceCtorEq, Option.some.injEq] at hf <;> subst hf
  case unterminated body hb =>
    refine ⟨hchar, ?_, ?_⟩
    · rw [hmode]
      exact hr.isCode (show '"' ≠ '\n' by decide)
    · rw [List.append_nil, ← List.drop_drop, List.drop_left]
      exact hb
  case unexpected c hc =>
    refine ⟨hchar, ?_, hc⟩
    rw [hmode]
    exact hr.isCode (Text.ne_of_test (q := Text.isRecognised) (by decide) hc).symm

end Piece

theorem exists_faults (before : List Char) {rest : List Char}
    (hr : Ready (Mode.run .code before) rest) :
    ∃ faults : List (Nat × Fault), faults.Pairwise (fun x y => x.1 < y.1) ∧
      (∀ x ∈ faults, before.length ≤ x.1 ∧ FaultAt (before ++ rest) x.1 x.2) ∧
      Scan.diagnosticsFrom (Position.first.after before) rest =
        faults.map (diagnosticAt (before ++ rest)) := by
  induction rest using Piece.cut_induction generalizing before with
  | nil => exact ⟨[], .nil, by simp, by simp⟩
  | cut p rest h ih =>
    have hready := (hits_piece h hr 0).ready
    rw [← Mode.run_append] at hready
    obtain ⟨faults, hsorted, hfaults, hdiag⟩ := ih (before ++ p.text) hready
    rw [List.append_assoc] at hfaults hdiag
    rw [Scan.diagnosticsFrom_cut _ h, ← Position.after_append, hdiag]
    -- what comes later stands after this piece
    have hlater : ∀ x ∈ faults, before.length < x.1 := by
      intro x hx
      have := (hfaults x hx).1
      rw [List.length_append, Piece.length_text] at this
      omega
    have hrest : ∀ x ∈ faults,
        before.length ≤ x.1 ∧ FaultAt (before ++ (p.text ++ rest)) x.1 x.2 :=
      fun x hx => ⟨Nat.le_of_lt (hlater x hx), (hfaults x hx).2⟩
    cases hf : p.fault? with
    | none =>
      rw [Placed.diagnostic?_of_no_fault hf]
      exact ⟨faults, hsorted, hrest, rfl⟩
    | some fault =>
      rw [Placed.diagnostic?_of_fault hf, after_eq before (p.text ++ rest)]
      refine ⟨(before.length, fault) :: faults, List.pairwise_cons.mpr ⟨hlater, hsorted⟩, ?_, rfl⟩
      intro x hx
      rcases List.mem_cons.mp hx with rfl | hx
      · exact ⟨Nat.le_refl _, Piece.faultAt h hr hf⟩
      · exact hrest x hx

/-! The whole text -/

/-- **Every place in a scan is true**, for every source and every table of
reserved words. -/
theorem truePlaces_scan (table : ReservedWords) (source : String) :
    TruePlaces source.toList (Scan.ofSource table source) where
  tokens := by
    intro t ht
    obtain ⟨_, hlex, hline, hcolumn⟩ := Scan.place_of_mem_tokens ht
    refine ⟨?_, hline, hcolumn⟩
    rw [hlex]
    exact slice_prefix source.toList t.span.start t.span.stop
  eof := by
    refine ⟨_, Scan.getLast?_tokens table source.toList, rfl, ?_⟩
    rw [after_eq_length]
    rfl
  diagnostics := by
    have hready : Ready (Mode.run .code []) source.toList := trivial
    obtain ⟨faults, hsorted, hfaults, hdiag⟩ := exists_faults [] hready
    exact ⟨faults, hsorted, fun x hx => (hfaults x hx).2, hdiag⟩

end SeqScan
