import SeqScan.Proofs.Cut

/-
  Scans that start in another place.

  A scan asks its place for nothing but to say it. So if a translation of places goes along
  with the place from character to character, a scan that starts in the translated place is
  the scan, translated. There need be no such translation of all places: it is enough to
  have one of those that can be reached.

  What is proved:
    1. `Translates.after`: a translation goes along over any text.
    2. `Translates.tokensFrom`, `Translates.diagnosticsFrom`: it translates every scan.
-/

namespace SeqScan

/-- Places that meet `I` are translated by `f`, and by the two other functions in tokens and in
diagnostics. -/
structure Translates (I : Position → Prop) (f : Position → Position)
    (onToken : Token → Token) (onDiagnostic : Diagnostic → Diagnostic) : Prop where
  onward : ∀ q c, I q → I (q.advance c)
  advance : ∀ q c, I q → (f q).advance c = f (q.advance c)
  token : ∀ kind lexeme literal q n, I q →
    onToken ⟨kind, lexeme, literal, ⟨q.offset, q.offset + n, q.line, q.column⟩⟩ =
      ⟨kind, lexeme, literal, ⟨(f q).offset, (f q).offset + n, (f q).line, (f q).column⟩⟩
  diagnostic : ∀ fault q, I q →
    onDiagnostic ⟨fault, q.line, q.column⟩ = ⟨fault, (f q).line, (f q).column⟩

namespace Translates

variable {I : Position → Prop} {f : Position → Position} {onToken : Token → Token}
  {onDiagnostic : Diagnostic → Diagnostic} {q : Position}

theorem after (h : Translates I f onToken onDiagnostic) (hq : I q) (text : List Char) :
    I (q.after text) ∧ (f q).after text = f (q.after text) := by
  induction text generalizing q with
  | nil => exact ⟨hq, rfl⟩
  | cons c rest ih =>
    rw [Position.after_cons, Position.after_cons, h.advance q c hq]
    exact ih (h.onward q c hq)

theorem tokensFrom (h : Translates I f onToken onDiagnostic) (hq : I q) (table : ReservedWords)
    (text : List Char) :
    Scan.tokensFrom table (f q) text = (Scan.tokensFrom table q text).map onToken := by
  induction text using Piece.cut_induction generalizing q with
  | nil =>
    rw [Scan.tokensFrom_nil, Scan.tokensFrom_nil]
    exact congrArg (fun t => [t]) (h.token .eof "" none q 0 hq).symm
  | cut p rest hcut ih =>
    obtain ⟨hnext, hafter⟩ := h.after hq p.text
    have htoken : Placed.token? table ⟨p, f q⟩ = (Placed.token? table ⟨p, q⟩).map onToken := by
      unfold Placed.token?
      cases p.kind? table with
      | none => rfl
      | some kind => exact congrArg some (h.token kind _ _ q _ hq).symm
    rw [Scan.tokensFrom_cut table _ hcut, Scan.tokensFrom_cut table _ hcut, hafter, ih hnext,
      htoken, List.map_append]
    cases Placed.token? table ⟨p, q⟩ <;> rfl

theorem diagnosticsFrom (h : Translates I f onToken onDiagnostic) (hq : I q) (text : List Char) :
    Scan.diagnosticsFrom (f q) text = (Scan.diagnosticsFrom q text).map onDiagnostic := by
  induction text using Piece.cut_induction generalizing q with
  | nil => rw [Scan.diagnosticsFrom_nil, Scan.diagnosticsFrom_nil]; rfl
  | cut p rest hcut ih =>
    obtain ⟨hnext, hafter⟩ := h.after hq p.text
    have hreport : Placed.diagnostic? ⟨p, f q⟩ =
        (Placed.diagnostic? ⟨p, q⟩).map onDiagnostic := by
      unfold Placed.diagnostic?
      cases p.fault? with
      | none => rfl
      | some fault => exact congrArg some (h.diagnostic fault q hq).symm
    rw [Scan.diagnosticsFrom_cut _ hcut, Scan.diagnosticsFrom_cut _ hcut, hafter, ih hnext,
      hreport, List.map_append]
    cases Placed.diagnostic? ⟨p, q⟩ <;> rfl

end Translates

end SeqScan
