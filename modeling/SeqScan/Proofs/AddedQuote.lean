import SeqScan.Proofs.Words

/-
  A text with one more quote.

  What a quote does at the end of a text is decided by the last piece of the text alone. A
  string that is open there is closed by it, a comment takes it in, and after anything else
  it opens a string that stays open. Nothing that stands before the last piece is scanned in
  another way. So a string is reported as open if and only if one more quote would make a
  token of it.

  What is proved:
    1. `EndsWith.exists_of_ne_nil`: what is put after a text joins its last piece or follows it, and
       all that stands before that piece is scanned as it was.
    2. `Mode.run_eq_comment_iff`: a text ends inside a comment if its last piece is one.
    3. `Scan.quote_closes`, `Scan.quote_joins`, `Scan.quote_opens`: a quote after the last
       piece.
    4. `addedQuote_scan`: the whole law, for every source and every table.
-/

namespace SeqScan

/-! The last piece -/

theorem Ready.of_append {m : Mode} {p : Piece} {rest : List Char} (h : Ready m (p.text ++ rest))
    (rest' : List Char) : Ready m (p.text ++ rest') := by
  cases m with
  | code => trivial
  | slash => exact h
  | comment => exact h
  | inString => cases h

theorem Mode.run_eq_comment_iff {m : Mode} {p : Piece} (h : Cut p [])
    (hr : Ready m (p.text ++ [])) (hu : p.shape ≠ .unterminated) :
    m.run p.text = .comment ↔ p.shape = .comment := by
  constructor
  · intro hrun
    apply Decidable.byContradiction
    intro hs
    -- a blank may follow the piece, and would be no part of a comment
    have hcut := h.append_blank hu (show Text.isBlank ' ' = true by decide)
      (fun hcom => absurd hcom hs) []
    have hready := (hits_piece hcut (hr.of_append [' ']) 0).ready
    rw [hrun] at hready
    exact absurd (Stops.cons_iff.mp (show Stops (· != '\n') [' '] from hready)) (by decide)
  · intro hs
    cases h <;> simp only [reduceCtorEq] at hs
    case comment body hb _ =>
      obtain rfl := hr.eq_code_of_slash
      exact PieceHits.run_comment hb

/-- The text `a` ends with the piece `p`. Whatever is put after it, a digit apart, joins that
piece or follows it: `ts` and `ds` are found before the piece, and no string is open there. -/
structure EndsWith (table : ReservedWords) (pos : Position) (a u : List Char) (p : Piece)
    (ts : List Token) (ds : List Diagnostic) : Prop where
  text : a = u ++ p.text
  cut : Cut p []
  ready : ∀ m, Ready m a → Ready (m.run u) (p.text ++ [])
  words : ∀ t ∈ ts, t.kind ≠ .eof
  closed : ∀ d ∈ ds, d.fault ≠ .unterminatedString
  tokens : ∀ b, Stops Char.isDigit b → Scan.tokensFrom table pos (a ++ b) =
    ts ++ Scan.tokensFrom table (pos.after u) (p.text ++ b)
  diagnostics : ∀ b, Stops Char.isDigit b → Scan.diagnosticsFrom pos (a ++ b) =
    ds ++ Scan.diagnosticsFrom (pos.after u) (p.text ++ b)

theorem Piece.fault_ne_unterminatedString {p : Piece} {pos : Position}
    (hu : p.shape ≠ .unterminated) :
    ∀ d ∈ (Placed.diagnostic? ⟨p, pos⟩).toList, d.fault ≠ .unterminatedString := by
  intro d hd hopen
  obtain ⟨fault, hfault, rfl⟩ := Option.map_eq_some_iff.mp (Option.mem_toList.mp hd)
  exact hu (fault?_eq_unterminatedString_iff.mp (hopen ▸ hfault))

namespace EndsWith

variable {table : ReservedWords} {pos : Position} {a u : List Char} {p last : Piece}
  {ts : List Token} {ds : List Diagnostic}

theorem single (h : Cut p []) : EndsWith table pos p.text [] p [] [] where
  text := rfl
  cut := h
  ready m hr := by rwa [List.append_nil]
  words := by simp
  closed := by simp
  tokens _ _ := rfl
  diagnostics _ _ := rfl

/-- A piece in front of the text joins what stands before the last one. -/
theorem cons (h : Cut p a) (hne : a ≠ [])
    (he : EndsWith table (pos.after p.text) a u last ts ds) :
    EndsWith table pos (p.text ++ a) (p.text ++ u) last
      ((Placed.token? table ⟨p, pos⟩).toList ++ ts)
      ((Placed.diagnostic? ⟨p, pos⟩).toList ++ ds) where
  text := by rw [he.text, List.append_assoc]
  cut := he.cut
  ready m hr := by
    rw [Mode.run_append]
    exact he.ready _ (hits_piece h hr 0).ready
  words := by
    intro t ht
    rcases List.mem_append.mp ht with ht | ht
    · exact (start_lt_stop_of_token? (Option.mem_toList.mp ht)).1
    · exact he.words t ht
  closed :=
    List.forall_mem_append.mpr
      ⟨Piece.fault_ne_unterminatedString (h.shape_ne_of_ne_nil hne), he.closed⟩
  tokens b hb := by
    rw [List.append_assoc, Scan.tokensFrom_cut table pos (h.append_of_ne_nil hne fun _ => hb),
      he.tokens b hb, Position.after_append, List.append_assoc]
  diagnostics b hb := by
    rw [List.append_assoc, Scan.diagnosticsFrom_cut pos (h.append_of_ne_nil hne fun _ => hb),
      he.diagnostics b hb, Position.after_append, List.append_assoc]

/-- **Every text ends with a piece**, unless there is no text. -/
theorem exists_of_ne_nil (table : ReservedWords) (pos : Position) {a : List Char} (ha : a ≠ []) :
    ∃ u p ts ds, EndsWith table pos a u p ts ds := by
  induction a using Piece.cut_induction generalizing pos with
  | nil => exact absurd rfl ha
  | cut p rest h ih =>
    by_cases hrest : rest = []
    · rw [hrest, List.append_nil]
      exact ⟨[], p, [], [], .single (hrest ▸ h)⟩
    · obtain ⟨u, last, ts, ds, he⟩ := ih (pos.after p.text) hrest
      exact ⟨_, last, _, _, he.cons h hrest⟩

end EndsWith

namespace Scan

/-! A quote after the last piece -/

variable (table : ReservedWords) (pos : Position) {p : Piece} {body : List Char}

theorem scan_piece (h : Cut p []) :
    tokensFrom table pos p.text =
        (Placed.token? table ⟨p, pos⟩).toList ++ [Token.eof (pos.after p.text)] ∧
      diagnosticsFrom pos p.text = (Placed.diagnostic? ⟨p, pos⟩).toList := by
  have htokens := tokensFrom_cut table pos h
  have hdiagnostics := diagnosticsFrom_cut pos h
  rw [List.append_nil, tokensFrom_nil] at htokens
  rw [List.append_nil, diagnosticsFrom_nil, List.append_nil] at hdiagnostics
  exact ⟨htokens, hdiagnostics⟩

theorem scan_open (hb : '"' ∉ body) :
    tokensFrom table pos ('"' :: body) = [Token.eof (pos.after ('"' :: body))] ∧
      diagnosticsFrom pos ('"' :: body) = [⟨.unterminatedString, pos.line, pos.column⟩] :=
  scan_piece table pos (.unterminated hb)

/-- A quote closes it. -/
theorem quote_closes (hb : '"' ∉ body) :
    tokensFrom table pos ('"' :: body ++ ['"']) =
        [⟨.string, String.ofList ('"' :: body ++ ['"']), some (.string (String.ofList body)),
            ⟨pos.offset, pos.offset + (body.length + 2), pos.line, pos.column⟩⟩,
          Token.eof (pos.after ('"' :: body ++ ['"']))] ∧
      diagnosticsFrom pos ('"' :: body ++ ['"']) = [] := by
  obtain ⟨htokens, hdiagnostics⟩ := scan_piece table pos (p := ⟨.string, '"', body ++ ['"']⟩)
    (.string hb)
  refine ⟨?_, hdiagnostics⟩
  simpa [Placed.token?, Piece.kind?, Piece.literal?, Piece.lexeme, Placed.span, Piece.text]
    using htokens

/-- A comment takes a quote in. -/
theorem quote_joins (h : Cut p []) (hs : p.shape = .comment) :
    tokensFrom table pos (p.text ++ ['"']) = [Token.eof (pos.after (p.text ++ ['"']))] ∧
      diagnosticsFrom pos (p.text ++ ['"']) = [] :=
  scan_piece table pos (h.append_comment hs (by decide))

/-- After any other piece a quote opens a string. -/
theorem quote_opens (h : Cut p []) (hu : p.shape ≠ .unterminated) (hcom : p.shape ≠ .comment) :
    tokensFrom table pos (p.text ++ ['"']) = (Placed.token? table ⟨p, pos⟩).toList ++
        [Token.eof (pos.after (p.text ++ ['"']))] ∧
      diagnosticsFrom pos (p.text ++ ['"']) = (Placed.diagnostic? ⟨p, pos⟩).toList ++
        [⟨.unterminatedString, (pos.after p.text).line, (pos.after p.text).column⟩] := by
  have hcut : Cut p ['"'] := h.append_divider hu ⟨by decide, by decide⟩
    (fun hs => absurd hs hcom) []
  obtain ⟨htokens, hdiagnostics⟩ := scan_open table (pos.after p.text) (List.not_mem_nil (a := '"'))
  rw [tokensFrom_cut table pos hcut, diagnosticsFrom_cut pos hcut, htokens, hdiagnostics,
    Position.after_append]
  exact ⟨rfl, rfl⟩

theorem words_eq {text : List Char} {ts : List Token}
    (h : tokensFrom table .first text = ts ++ [Token.eof (Position.first.after text)]) :
    (ofChars table text).words = ts :=
  List.append_cancel_right ((tokens_eq_words table text).symm.trans h)

end Scan

/-! The whole text -/

/-- What one more quote makes of the scan of a text. -/
structure AddedQuote (text : List Char) (scan quoted : Scan) : Prop where
  /-- It closes a string that is reported as open, and that report was the last. -/
  closes : ∀ d ∈ scan.diagnostics, d.fault = .unterminatedString →
    ∃ q, text[q]? = some '"' ∧ d = diagnosticAt text (q, .unterminatedString) ∧
      quoted.tokens = scan.words ++
        [⟨.string, String.ofList (text.drop q ++ ['"']),
            some (.string (String.ofList (text.drop (q + 1)))),
            ⟨q, text.length + 1, d.line, d.column⟩⟩,
          Token.eof (placeAt (text ++ ['"']) (text.length + 1))] ∧
      scan.diagnostics = quoted.diagnostics ++ [d]
  /-- If there is none, it opens one, unless the text ends inside a comment. -/
  opens : (∀ d ∈ scan.diagnostics, d.fault ≠ .unterminatedString) →
    quoted.tokens = scan.words ++ [Token.eof (placeAt (text ++ ['"']) (text.length + 1))] ∧
      quoted.diagnostics = scan.diagnostics ++
        if modeAt text text.length = .comment then []
        else [diagnosticAt text (text.length, .unterminatedString)]

namespace Scan

theorem eof_after_quote (text : List Char) :
    Token.eof (Position.first.after (text ++ ['"'])) =
      Token.eof (placeAt (text ++ ['"']) (text.length + 1)) := by
  rw [after_eq_length, List.length_append, List.length_singleton]

theorem addedQuote_nil (table : ReservedWords) :
    AddedQuote [] (ofChars table []) (ofChars table ['"']) where
  closes := by
    intro d hd
    rw [show (ofChars table []).diagnostics = [] from diagnosticsFrom_nil .first] at hd
    cases hd
  opens := by
    intro _
    obtain ⟨htokens, hdiagnostics⟩ := scan_open table .first (List.not_mem_nil (a := '"'))
    have hwords : (ofChars table []).words = [] := words_eq table (tokensFrom_nil table .first)
    have hnone : (ofChars table []).diagnostics = [] := diagnosticsFrom_nil .first
    rw [hwords, hnone]
    exact ⟨htokens, hdiagnostics⟩

section

variable {table : ReservedWords} {text u : List Char} {p : Piece} {ts : List Token}
  {ds : List Diagnostic} (h : EndsWith table .first text u p ts ds)
include h

theorem words_of_endsWith : (ofChars table text).words =
    ts ++ (Placed.token? table ⟨p, Position.first.after u⟩).toList := by
  have htokens := h.tokens [] (Stops.nil _)
  rw [List.append_nil, List.append_nil, (scan_piece table _ h.cut).1, ← List.append_assoc,
    ← Position.after_append, ← h.text] at htokens
  exact words_eq table htokens

theorem diagnostics_of_endsWith : (ofChars table text).diagnostics =
    ds ++ (Placed.diagnostic? ⟨p, Position.first.after u⟩).toList := by
  have hdiagnostics := h.diagnostics [] (Stops.nil _)
  rwa [List.append_nil, List.append_nil, (scan_piece table _ h.cut).2] at hdiagnostics

theorem eof_of_endsWith : Token.eof ((Position.first.after u).after (p.text ++ ['"'])) =
    Token.eof (placeAt (text ++ ['"']) (text.length + 1)) := by
  rw [← eof_after_quote, ← Position.after_append, ← List.append_assoc, ← h.text]

theorem addedQuote_of_open (hu : p.shape = .unterminated) :
    AddedQuote text (ofChars table text) (ofChars table (text ++ ['"'])) := by
  obtain ⟨body, hb, hbody, _⟩ := h.cut.of_unterminated hu
  have hfault := Piece.fault?_eq_unterminatedString_iff.mpr hu
  have hstops : Stops Char.isDigit ['"'] := by simp
  have heof := eof_of_endsWith h
  have hwords := words_of_endsWith h
  have hdiagnostics := diagnostics_of_endsWith h
  have hquoted := h.tokens _ hstops
  have hclean := h.diagnostics _ hstops
  rw [Placed.token?_of_fault hfault, Option.toList_none, List.append_nil] at hwords
  rw [Placed.diagnostic?_of_fault hfault, Option.toList_some] at hdiagnostics
  rw [hbody] at heof
  rw [hbody, (quote_closes table _ hb).1, heof, ← hwords] at hquoted
  rw [hbody, (quote_closes table _ hb).2, List.append_nil] at hclean
  constructor
  · intro d hd hopen
    rw [hdiagnostics, List.mem_append, List.mem_singleton] at hd
    obtain rfl := hd.resolve_left fun hm => h.closed d hm hopen
    have hplace := after_eq u ('"' :: body)
    obtain rfl : text = u ++ '"' :: body := hbody ▸ h.text
    refine ⟨u.length, getElem?_length_append u '"' body, ?_, ?_, ?_⟩
    · rw [hplace]
      rfl
    · have hdrop : (u ++ '"' :: body).drop (u.length + 1) = body := by
        rw [← List.drop_drop, List.drop_left]
        rfl
      have hstop : (u ++ '"' :: body).length + 1 = u.length + (body.length + 2) := by
        rw [List.length_append, List.length_cons]
        omega
      rw [List.drop_left, hdrop, show (u ++ '"' :: body).length + 1 = _ from hstop]
      rw [hplace, hstop] at hquoted
      rw [hplace]
      exact hquoted
    · exact hdiagnostics.trans (congrArg (· ++ _) hclean.symm)
  · intro hnone
    rw [hdiagnostics] at hnone
    exact absurd rfl (hnone _ (List.mem_append_right ds List.mem_cons_self))

theorem addedQuote_of_closed (hu : p.shape ≠ .unterminated) :
    AddedQuote text (ofChars table text) (ofChars table (text ++ ['"'])) := by
  have hstops : Stops Char.isDigit ['"'] := by simp
  have heof := eof_of_endsWith h
  have hwords := words_of_endsWith h
  have hdiagnostics := diagnostics_of_endsWith h
  have hquoted := h.tokens _ hstops
  have hreports := h.diagnostics _ hstops
  have hready := h.ready .code trivial
  have hmode : modeAt text text.length = .comment ↔ p.shape = .comment := by
    rw [← Mode.run_eq_comment_iff h.cut hready hu, modeAt, List.take_length, h.text,
      Mode.run_append]
  constructor
  · intro d hd hopen
    rw [hdiagnostics, List.mem_append] at hd
    rcases hd with hd | hd
    · exact absurd hopen (h.closed d hd)
    · exact absurd hopen (Piece.fault_ne_unterminatedString hu d hd)
  · intro _
    by_cases hcom : p.shape = .comment
    · have htoken : Placed.token? table ⟨p, Position.first.after u⟩ = none := by
        simp [Placed.token?, Piece.kind?, hcom]
      have hreport : Placed.diagnostic? ⟨p, Position.first.after u⟩ = none := by
        simp [Placed.diagnostic?, Piece.fault?, hcom]
      rw [htoken, Option.toList_none, List.append_nil] at hwords
      rw [hreport, Option.toList_none, List.append_nil] at hdiagnostics
      rw [(quote_joins table _ h.cut hcom).1, heof, ← hwords] at hquoted
      rw [(quote_joins table _ h.cut hcom).2, ← hdiagnostics] at hreports
      rw [if_pos (hmode.mpr hcom)]
      exact ⟨hquoted, hreports⟩
    · rw [(quote_opens table _ h.cut hu hcom).1, heof, ← List.append_assoc, ← hwords] at hquoted
      rw [(quote_opens table _ h.cut hu hcom).2, ← Position.after_append, ← h.text,
        ← List.append_assoc, ← hdiagnostics, after_eq_length] at hreports
      rw [if_neg fun hm => hcom (hmode.mp hm)]
      exact ⟨hquoted, hreports⟩

end

end Scan

/-- **One more quote** closes a string that is reported as open, and opens one if there is none,
for every source and every table of reserved words. -/
theorem addedQuote_scan (table : ReservedWords) (source : String) :
    AddedQuote source.toList (Scan.ofSource table source)
      (Scan.ofSource table (source ++ "\"")) := by
  have htext : (source ++ "\"").toList = source.toList ++ ['"'] := by
    rw [String.toList_append]
    rfl
  rw [Scan.ofSource, Scan.ofSource, htext]
  by_cases hne : source.toList = []
  · rw [hne]
    exact Scan.addedQuote_nil table
  · obtain ⟨u, p, ts, ds, h⟩ := EndsWith.exists_of_ne_nil table .first hne
    by_cases hu : p.shape = .unterminated
    · exact Scan.addedQuote_of_open h hu
    · exact Scan.addedQuote_of_closed h hu

end SeqScan
