import SeqScan.Proofs.Modes

/-
  No text is lost, read twice or moved.

  The tokens of a scan stand in the text one after the other, each with the
  characters of its own lexeme. What lies between two of them is made of blanks,
  comments, and what the diagnostics report: single characters, and at the end
  possibly one string that stays open. `Gap` describes such a stretch by the
  characters of the text alone, and collects the diagnostics it calls for.

  What is proved:
    1. `gap_of_piece`: a piece that gives no token puts its characters, and its
       diagnostic if it has one, in front of the gap that goes on after it.
    2. `gaps_from`: from any place on, the gaps before the tokens call for the
       diagnostics of the scan, in their order and for no others.
    3. `Gaps.pairwise`: where there are gaps between tokens, tokens do not overlap.
    4. `keepsText_scan`: the whole law, for every source and every table.
-/

namespace SeqScan

/-! Text without tokens -/

/-- `Gap text p q ds`: from the offset `p` up to `q` the text is made of blanks,
comments and reported stretches, and `ds` are the reports, one for each. -/
inductive Gap (text : List Char) : Nat → Nat → List Diagnostic → Prop
  | nil {p : Nat} : Gap text p p []
  | blank {p q : Nat} {c : Char} {ds : List Diagnostic} :
    text[p]? = some c → Text.isBlank c = true → Gap text (p + 1) q ds → Gap text p q ds
  /-- A comment goes up to the next line feed or to the end. -/
  | comment {p r q : Nat} {body : List Char} {ds : List Diagnostic} :
    slice text p r = '/' :: '/' :: body → '\n' ∉ body →
    r = text.length ∨ text[r]? = some '\n' → Gap text r q ds → Gap text p q ds
  | unexpected {p q : Nat} {c : Char} {ds : List Diagnostic} :
    text[p]? = some c → Text.isRecognised c = false → Gap text (p + 1) q ds →
    Gap text p q (diagnosticAt text (p, .unexpectedCharacter c) :: ds)
  /-- A string that stays open takes all that is left, so nothing comes after it. -/
  | unterminated {p : Nat} :
    text[p]? = some '"' → '"' ∉ text.drop (p + 1) →
    Gap text p text.length [diagnosticAt text (p, .unterminatedString)]

/-- From the offset `p` on, there is a gap before each token, and the reports of
these gaps are the diagnostics. -/
inductive Gaps (text : List Char) : Nat → List Token → List Diagnostic → Prop
  | nil {p : Nat} : Gaps text p [] []
  | cons {p : Nat} {t : Token} {ts : List Token} {ds more : List Diagnostic} :
    Gap text p t.span.start ds → Gaps text t.span.stop ts more →
    Gaps text p (t :: ts) (ds ++ more)

/-- A scan keeps all of a text, in its order. -/
structure KeepsText (text : List Char) (scan : Scan) : Prop where
  /-- A token has the characters that its span covers. -/
  lexemes : ∀ t ∈ scan.tokens, t.span.stop ≤ text.length ∧
    t.lexeme.toList = slice text t.span.start t.span.stop
  /-- No token starts before an earlier one has stopped. -/
  ordered : scan.tokens.Pairwise (fun a b => a.span.stop ≤ b.span.start)
  /-- The last token and no other is for the end of the text; the others are not empty. -/
  eof : ∃ (ts : List Token) (line column : Nat),
    scan.tokens = ts ++ [⟨.eof, "", none, ⟨text.length, text.length, line, column⟩⟩] ∧
    ∀ t ∈ ts, t.kind ≠ .eof ∧ t.span.start < t.span.stop
  /-- What lies between the tokens is blank, a comment or reported. -/
  gaps : Gaps text 0 scan.tokens scan.diagnostics
  /-- No string but the last thing reported stays open. -/
  unterminated_last : ∀ d ∈ scan.diagnostics.dropLast, d.fault ≠ .unterminatedString

/-! Gaps -/

theorem Gap.le {text : List Char} {p q : Nat} {ds : List Diagnostic} (h : Gap text p q ds) :
    p ≤ q := by
  induction h with
  | nil => exact Nat.le_refl _
  | blank _ _ _ ih => omega
  | @comment p r q body ds hbody _ _ _ ih =>
    have hlen := congrArg List.length hbody
    simp only [slice, List.length_drop, List.length_take, List.length_cons] at hlen
    omega
  | unexpected _ _ _ ih => omega
  | unterminated hquote _ =>
    have := (List.getElem?_eq_some_iff.mp hquote).1
    omega

namespace Gaps

variable {text : List Char} {p k : Nat} {ts : List Token} {ds more : List Diagnostic}

theorem token {t : Token} (hstart : t.span.start = p) (h : Gaps text t.span.stop ts ds) :
    Gaps text p (t :: ts) ds := by
  subst hstart
  exact .cons .nil h

/-- What stands in front of the first gap joins it. -/
theorem extend (h : Gaps text k ts more) (hne : ts ≠ [])
    (hgap : ∀ q fs, Gap text k q fs → Gap text p q (ds ++ fs)) :
    Gaps text p ts (ds ++ more) := by
  cases h with
  | nil => exact absurd rfl hne
  | cons hfirst hrest =>
    rw [← List.append_assoc]
    exact .cons (hgap _ _ hfirst) hrest

theorem pairwise (h : Gaps text p ts ds) (hspan : ∀ t ∈ ts, t.span.start ≤ t.span.stop) :
    (∀ t ∈ ts, p ≤ t.span.start) ∧ ts.Pairwise (fun a b => a.span.stop ≤ b.span.start) := by
  induction h with
  | nil => exact ⟨by simp, .nil⟩
  | @cons p t ts ds more hgap _ ih =>
    obtain ⟨hstart, hpair⟩ := ih fun u hu => hspan u (List.mem_cons_of_mem t hu)
    have hp := hgap.le
    have ht := hspan t List.mem_cons_self
    refine ⟨?_, List.pairwise_cons.mpr ⟨hstart, hpair⟩⟩
    intro u hu
    rcases List.mem_cons.mp hu with rfl | hu
    · exact hp
    · have := hstart u hu
      omega

end Gaps

/-! One piece -/

theorem gap_of_piece {p : Piece} {before rest : List Char} {q : Nat} {ds : List Diagnostic}
    {table : ReservedWords} (h : Cut p rest) (hk : p.kind? table = none)
    (hu : p.shape ≠ .unterminated)
    (hg : Gap (before ++ (p.text ++ rest)) (before.length + p.text.length) q ds) :
    Gap (before ++ (p.text ++ rest)) before.length q
      ((Placed.diagnostic? ⟨p, Position.first.after before⟩).toList ++ ds) := by
  cases h <;> simp only [Piece.kind?, reduceCtorEq, ne_eq, not_true_eq_false] at hk hu
  case blank c hc => exact .blank (getElem?_length_append before c rest) hc hg
  case comment body hb hr =>
    have hslice := slice_append before ('/' :: '/' :: body) rest
    refine .comment hslice hb ?_ hg
    cases rest with
    | nil =>
      left
      simp [Piece.text]
    | cons d rest =>
      right
      have hd : d = '\n' := by simpa using hr
      rw [← List.append_assoc, Piece.text, ← List.length_append, hd]
      exact getElem?_length_append _ '\n' rest
  case unexpected c hc =>
    rw [Placed.diagnostic?_of_fault rfl, after_eq before _]
    exact .unexpected (getElem?_length_append before c rest) hc hg

theorem gap_of_unterminated (before : List Char) {p : Piece} {rest : List Char} (h : Cut p rest)
    (hu : p.shape = .unterminated) :
    Gap (before ++ (p.text ++ rest)) before.length (before ++ (p.text ++ rest)).length
      (Placed.diagnostic? ⟨p, Position.first.after before⟩).toList := by
  cases h <;> simp only [reduceCtorEq] at hu
  case unterminated body hb =>
    rw [Placed.diagnostic?_of_fault rfl, after_eq before _]
    refine .unterminated (getElem?_length_append before '"' _) ?_
    rw [List.append_nil, ← List.drop_drop, List.drop_left]
    exact hb

/-! The whole text -/

namespace Piece

theorem fault?_eq_none_of_kind? {table : ReservedWords} {p : Piece} {kind : TokenKind}
    (h : p.kind? table = some kind) : p.fault? = none := by
  cases hf : p.fault? with
  | none => rfl
  | some fault =>
    rw [kind?_eq_none_of_fault? hf] at h
    cases h

theorem kind?_ne_eof (table : ReservedWords) (p : Piece) : p.kind? table ≠ some .eof := by
  have hname : (p.nameClass table).tokenKind ≠ .eof := by
    rcases (p.nameClass table).tokenKind_cases with h | h | h <;> simp [h]
  cases hs : p.shape <;> simp [kind?, hs, hname]

end Piece

/-- A token of a piece is not empty, and is not for the end of the text. -/
theorem start_lt_stop_of_token? {table : ReservedWords} {p : Placed} {t : Token}
    (h : p.token? table = some t) : t.kind ≠ .eof ∧ t.span.start < t.span.stop := by
  obtain ⟨kind, hkind, rfl⟩ := Option.map_eq_some_iff.mp h
  constructor
  · show kind ≠ .eof
    intro he
    rw [he] at hkind
    exact Piece.kind?_ne_eof table p.piece hkind
  · have hlen := p.piece.length_text
    show p.start.offset < p.start.offset + p.piece.text.length
    omega

/-- **The gaps of a scan.** From any place on, what the tokens leave out is made of
gaps, and their reports are the diagnostics. -/
theorem gaps_from (table : ReservedWords) (before rest : List Char) :
    Gaps (before ++ rest) before.length
      (Scan.tokensFrom table (Position.first.after before) rest)
      (Scan.diagnosticsFrom (Position.first.after before) rest) := by
  induction rest using Piece.cut_induction generalizing before with
  | nil =>
    rw [Scan.tokensFrom_nil, Scan.diagnosticsFrom_nil]
    exact .token (by rw [after_eq_length]; rfl) .nil
  | cut p rest h ih =>
    have ih := ih (before ++ p.text)
    rw [List.append_assoc, List.length_append, Position.after_append] at ih
    rw [Scan.tokensFrom_cut table _ h, Scan.diagnosticsFrom_cut _ h]
    have hstart : (Position.first.after before).offset = before.length := by
      rw [after_eq_length]
      rfl
    cases hk : p.kind? table with
    | some kind =>
      rw [Placed.diagnostic?_of_no_fault (Piece.fault?_eq_none_of_kind? hk), Placed.token?, hk]
      -- the token starts where the text does
      refine .token hstart ?_
      show Gaps _ ((Position.first.after before).offset + p.text.length) _ _
      rw [hstart]
      exact ih
    | none =>
      rw [Placed.token?, hk]
      -- the piece joins the gap before the next token, unless it takes all that is left
      by_cases hu : p.shape = .unterminated
      · have hgap := gap_of_unterminated before h hu
        obtain ⟨_, _, _, rfl⟩ := h.of_unterminated hu
        rw [Scan.tokensFrom_nil, Scan.diagnosticsFrom_nil]
        refine .cons ?_ .nil
        rw [← Position.after_append, List.append_nil, after_eq_length, ← List.append_nil p.text]
        exact hgap
      · exact ih.extend (by simp [Scan.tokensFrom]) fun q fs hg => gap_of_piece h hk hu hg

theorem unterminated_mem_dropLast (table : ReservedWords) (text : List Char) :
    ∀ d ∈ (Scan.ofChars table text).diagnostics.dropLast, d.fault ≠ .unterminatedString := by
  have hreported : ∀ d ∈ (reported text).map (unexpectedAt text),
      d.fault ≠ .unterminatedString := by
    intro d hd
    obtain ⟨x, _, rfl⟩ := List.mem_map.mp hd
    exact nofun
  rw [diagnostics_eq]
  by_cases hopen : modeAt text text.length = .inString
  · obtain ⟨x, hx⟩ := exists_unclosed hopen
    rw [hx, List.map_singleton, List.dropLast_concat]
    exact hreported
  · rw [unclosed_eq_nil hopen, List.map_nil, List.append_nil]
    intro d hd
    exact hreported d ((List.dropLast_sublist _).subset hd)

/-- **A scan keeps all of its text**, for every source and every table of reserved
words. -/
theorem keepsText_scan (table : ReservedWords) (source : String) :
    KeepsText source.toList (Scan.ofSource table source) where
  lexemes := by
    intro t ht
    obtain ⟨hstop, hlex, _, _⟩ := Scan.place_of_mem_tokens ht
    exact ⟨hstop, hlex⟩
  ordered := by
    refine ((gaps_from table [] source.toList).pairwise ?_).2
    intro t ht
    rcases List.mem_append.mp ht with ht | ht
    · obtain ⟨p, _, htok⟩ := List.mem_filterMap.mp ht
      exact Nat.le_of_lt (start_lt_stop_of_token? htok).2
    · rw [List.mem_singleton.mp ht]
      exact Nat.le_refl _
  eof := by
    refine ⟨(Placed.ofText source.toList).filterMap (Placed.token? table),
      lineAt source.toList source.toList.length, columnAt source.toList source.toList.length,
      ?_, ?_⟩
    · show _ ++ [Token.eof (Position.first.after source.toList)] = _
      rw [after_eq_length]
      rfl
    · intro t ht
      obtain ⟨p, _, htok⟩ := List.mem_filterMap.mp ht
      exact start_lt_stop_of_token? htok
  gaps := gaps_from table [] source.toList
  unterminated_last := unterminated_mem_dropLast table source.toList

end SeqScan
