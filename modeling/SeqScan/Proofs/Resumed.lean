import SeqScan.Proofs.Recorded
import SeqScan.Proofs.Translated

/-
  Scans that start at a token.

  A scan carries nothing from one piece to the next but its place. So the rest of a text,
  from where a token starts, is scanned on its own as it is scanned in the whole, but for
  the places. Offsets and lines are the same number further on everywhere. Columns are so
  on the first line of the rest alone, since a line feed takes a column back to the first
  one wherever it stood.

  What is proved:
    1. `translates_carried`: the places of a text are carried on from wherever it starts.
    2. `Scan.exists_rest`: the tokens of a text from one of them on are those of a rest of
       the text, and no diagnostic of the rest is before that token, while all others are.
    3. `resumed_scan`: the whole law, for every source, every token of it and every table.
-/

namespace SeqScan

/-! Places carried on -/

/-- The column of a place in a text that starts in `p`: `p` stands on the first line of the
text and on no other. -/
def Position.columnFrom (p : Position) (line column : Nat) : Nat :=
  if line = 1 then column + (p.column - 1) else column

/-- A place of a text that starts in `p`. -/
def Position.carried (p q : Position) : Position :=
  ⟨q.offset + p.offset, q.line + (p.line - 1), p.columnFrom q.line q.column⟩

def Token.carried (p : Position) (t : Token) : Token :=
  { t with span := ⟨t.span.start + p.offset, t.span.stop + p.offset, t.span.line + (p.line - 1),
      p.columnFrom t.span.line t.span.column⟩ }

def Diagnostic.carried (p : Position) (d : Diagnostic) : Diagnostic :=
  { d with line := d.line + (p.line - 1), column := p.columnFrom d.line d.column }

def Span.place (s : Span) : Position := ⟨s.start, s.line, s.column⟩

def Diagnostic.isBefore (d : Diagnostic) (p : Position) : Bool :=
  d.line < p.line ∨ d.line = p.line ∧ d.column < p.column

namespace Position

theorem one_le_line_advance {q : Position} (hq : 1 ≤ q.line) (c : Char) :
    1 ≤ (q.advance c).line := by
  rw [line_advance]
  exact Nat.le_add_right_of_le hq

theorem advance_carried (p : Position) {q : Position} (hq : 1 ≤ q.line) (c : Char) :
    (p.carried q).advance c = p.carried (q.advance c) := by
  by_cases hc : c = '\n'
  · -- the next line is not the first one of the text
    have hline : q.line + 1 ≠ 1 := by omega
    rw [advance, advance, if_pos hc, if_pos hc]
    simp only [carried, columnFrom, if_neg hline, Nat.add_right_comm]
  · rw [advance, advance, if_neg hc, if_neg hc]
    simp only [carried, columnFrom, Nat.add_right_comm]
    split <;> simp only [Nat.add_right_comm]

theorem carried_first {p : Position} (hline : 1 ≤ p.line) (hcolumn : 1 ≤ p.column) :
    p.carried first = p := by
  simp only [carried, columnFrom, first, if_true, Nat.zero_add, Nat.add_sub_cancel' hline,
    Nat.add_sub_cancel' hcolumn]

theorem one_le_first_after (text : List Char) :
    1 ≤ (first.after text).line ∧ 1 ≤ (first.after text).column := by
  have hplace := after_eq_length text
  rw [hplace, placeAt, lineAt, columnAt]
  exact ⟨Nat.le_add_right 1 _, Nat.le_add_right 1 _⟩

end Position

theorem translates_carried (p : Position) : Translates (fun q => 1 ≤ q.line) p.carried
    (Token.carried p) (Diagnostic.carried p) where
  onward _ c hq := Position.one_le_line_advance hq c
  advance _ c hq := p.advance_carried hq c
  token _ _ _ q n _ := by simp [Token.carried, Position.carried, Nat.add_right_comm]
  diagnostic _ _ _ := rfl

namespace Scan

/-- The scan of a text is carried to wherever the text starts. -/
theorem carried_ofChars (table : ReservedWords) {p : Position} (hline : 1 ≤ p.line)
    (hcolumn : 1 ≤ p.column) (text : List Char) :
    (ofChars table text).tokens.map (Token.carried p) = tokensFrom table p text ∧
      (ofChars table text).diagnostics.map (Diagnostic.carried p) = diagnosticsFrom p text := by
  have hfirst : 1 ≤ Position.first.line := Nat.le_refl 1
  have htokens := (translates_carried p).tokensFrom hfirst table text
  have hdiagnostics := (translates_carried p).diagnosticsFrom hfirst text
  rw [Position.carried_first hline hcolumn] at htokens hdiagnostics
  exact ⟨htokens.symm, hdiagnostics.symm⟩

/-! The rest of a text -/

/-- No diagnostic of a text is before the place where the text starts. -/
theorem isBefore_of_mem_diagnosticsFrom {pos : Position} {text : List Char} {d : Diagnostic}
    (h : d ∈ diagnosticsFrom pos text) : d.isBefore pos = false := by
  obtain ⟨p, hp, hd⟩ := List.mem_filterMap.mp h
  obtain ⟨_, _, rfl⟩ := Option.map_eq_some_iff.mp hd
  have hstart : ¬ p.start.Before pos := by
    rcases (Placed.pairwise_place pos (Piece.pieces text)).2 p hp with hsame | hlater
    · rw [hsame]
      unfold Position.Before
      omega
    · unfold Position.Before at *
      omega
  exact decide_eq_false hstart

/-- From its token `t` on, the text is `v`, which is scanned in its place to `t` and the tokens
after it. Every diagnostic of what is before `t` stands before it. -/
structure Rest (table : ReservedWords) (pos : Position) (whole u v : List Char) (t : Token)
    (back : List Token) : Prop where
  text : whole = u ++ v
  place : t.span.place = pos.after u
  tokens : tokensFrom table (pos.after u) v = t :: back
  diagnostics : ∃ ds, diagnosticsFrom pos whole = ds ++ diagnosticsFrom (pos.after u) v ∧
    ∀ d ∈ ds, d.isBefore (pos.after u) = true

namespace Rest

variable {table : ReservedWords} {pos : Position} {whole rest u v : List Char} {p : Piece}
  {t : Token} {front back : List Token}

/-- From its first token on, a text that starts with it is the whole text. -/
theorem here (htokens : tokensFrom table pos whole = t :: back) (hplace : t.span.place = pos) :
    Rest table pos whole [] whole t back where
  text := rfl
  place := hplace
  tokens := htokens
  diagnostics := ⟨[], rfl, by simp⟩

theorem cons (h : Cut p rest) (hr : Rest table (pos.after p.text) rest u v t back) :
    Rest table pos (p.text ++ rest) (p.text ++ u) v t back where
  text := by rw [hr.text, List.append_assoc]
  place := by rw [hr.place, Position.after_append]
  tokens := by rw [Position.after_append, hr.tokens]
  diagnostics := by
    obtain ⟨ds, hsplit, hbefore⟩ := hr.diagnostics
    rw [diagnosticsFrom_cut pos h, hsplit, Position.after_append, ← List.append_assoc]
    refine ⟨_, rfl, List.forall_mem_append.mpr ⟨?_, hbefore⟩⟩
    intro d hd
    obtain ⟨_, _, rfl⟩ := Option.map_eq_some_iff.mp (Option.mem_toList.mp hd)
    have hplace : pos.Before (pos.after (p.text ++ u)) :=
      Position.before_after pos p.first (p.rest ++ u)
    rw [Position.after_append] at hplace
    exact decide_eq_true hplace

/-- The rest of a text is what is left of it where its first token starts. -/
theorem drop_start (h : Rest table .first whole u v t back) : whole.drop t.span.start = v := by
  have hstart : t.span.start = u.length := by
    have hoffset := congrArg Position.offset h.place
    rw [Position.offset_after] at hoffset
    exact hoffset.trans (Nat.zero_add _)
  rw [hstart, h.text, List.drop_left]

/-- The diagnostics of the rest are those of the text that are not before it. -/
theorem filter_diagnostics (h : Rest table pos whole u v t back) :
    (diagnosticsFrom pos whole).filter (!·.isBefore (pos.after u)) =
      diagnosticsFrom (pos.after u) v := by
  obtain ⟨ds, hsplit, hbefore⟩ := h.diagnostics
  have hnone : ds.filter (!·.isBefore (pos.after u)) = [] := by
    rw [List.filter_eq_nil_iff]
    intro d hd
    simp [hbefore d hd]
  have hkeep : (diagnosticsFrom (pos.after u) v).filter (!·.isBefore (pos.after u)) =
      diagnosticsFrom (pos.after u) v := by
    rw [List.filter_eq_self]
    intro d hd
    simp [isBefore_of_mem_diagnosticsFrom hd]
  rw [hsplit, List.filter_append, hnone, hkeep, List.nil_append]

end Rest

/-- **The tokens of a text from one of them on** are those of the rest of the text. -/
theorem exists_rest {table : ReservedWords} {pos : Position} {whole : List Char} {t : Token}
    {front back : List Token} (h : tokensFrom table pos whole = front ++ t :: back) :
    ∃ u v, Rest table pos whole u v t back := by
  induction whole using Piece.cut_induction generalizing pos front with
  | nil =>
    rw [tokensFrom_nil] at h
    cases front with
    | nil =>
      obtain ⟨rfl, rfl⟩ := List.cons.inj h
      exact ⟨[], [], .here (tokensFrom_nil table pos) rfl⟩
    | cons x front =>
      have hnil := (List.cons.inj h).2
      simp at hnil
  | cut p rest hcut ih =>
    rw [tokensFrom_cut table pos hcut] at h
    cases htoken : Placed.token? table ⟨p, pos⟩ with
    | none =>
      rw [htoken] at h
      obtain ⟨u, v, hrest⟩ := ih h
      exact ⟨_, v, hrest.cons hcut⟩
    | some x =>
      have hwhole := h
      rw [htoken] at h
      cases front with
      | nil =>
        obtain ⟨rfl, _⟩ := List.cons.inj h
        rw [← tokensFrom_cut table pos hcut] at hwhole
        have hspan := (Placed.span_of_token? htoken).2
        exact ⟨[], _, .here hwhole (by rw [hspan]; rfl)⟩
      | cons y front =>
        obtain ⟨u, v, hrest⟩ := ih (List.cons.inj h).2
        exact ⟨_, v, hrest.cons hcut⟩

end Scan

/-- **The scan can be resumed at any token.** The rest of the source from there on, scanned on
its own and carried to where the token stands, gives the tokens from this one on and the
diagnostics that are not before it, for every source and every table of reserved words. -/
theorem resumed_scan (table : ReservedWords) (source : String) (k : Nat) (t : Token)
    (h : (Scan.ofSource table source).tokens[k]? = some t) :
    (Scan.ofSource table (String.ofList (source.toList.drop t.span.start))).tokens.map
        (Token.carried t.span.place) = (Scan.ofSource table source).tokens.drop k ∧
    (Scan.ofSource table (String.ofList (source.toList.drop t.span.start))).diagnostics.map
        (Diagnostic.carried t.span.place) =
      (Scan.ofSource table source).diagnostics.filter (!·.isBefore t.span.place) := by
  obtain ⟨hk, ht⟩ := List.getElem?_eq_some_iff.mp h
  have hdrop : (Scan.ofSource table source).tokens.drop k =
      t :: (Scan.ofSource table source).tokens.drop (k + 1) := by
    rw [List.drop_eq_getElem_cons hk, ht]
  have hsplit := (List.take_append_drop k (Scan.ofSource table source).tokens).symm
  rw [hdrop] at hsplit
  obtain ⟨u, v, hrest⟩ := @Scan.exists_rest table .first source.toList t _ _ hsplit
  obtain ⟨hline, hcolumn⟩ := Position.one_le_first_after u
  obtain ⟨htokens, hdiagnostics⟩ := Scan.carried_ofChars table hline hcolumn v
  rw [hdrop, hrest.drop_start, hrest.place, Scan.ofSource, String.toList_ofList]
  exact ⟨htokens.trans hrest.tokens, hdiagnostics.trans hrest.filter_diagnostics.symm⟩

/-- At a string over two lines, with a character that is reported before it and one after it. -/
theorem resumed_scan_at_string :
    (Scan.ofSource .standard "#\n  x \"a\nb\" # y").tokens[1]? = some
      ⟨.string, "\"a\nb\"", some (.string "a\nb"), ⟨6, 11, 2, 5⟩⟩ ∧
    (Scan.ofSource .standard
        (String.ofList ("#\n  x \"a\nb\" # y".toList.drop 6))).tokens.map
        (Token.carried ⟨6, 2, 5⟩) =
      (Scan.ofSource .standard "#\n  x \"a\nb\" # y").tokens.drop 1 ∧
    (Scan.ofSource .standard
        (String.ofList ("#\n  x \"a\nb\" # y".toList.drop 6))).diagnostics.map
        (Diagnostic.carried ⟨6, 2, 5⟩) =
      (Scan.ofSource .standard "#\n  x \"a\nb\" # y").diagnostics.filter
        (!·.isBefore ⟨6, 2, 5⟩) := by
  have h : (Scan.ofSource .standard "#\n  x \"a\nb\" # y").tokens[1]? = some
      ⟨.string, "\"a\nb\"", some (.string "a\nb"), ⟨6, 11, 2, 5⟩⟩ := by
    decide +kernel
  exact ⟨h, resumed_scan .standard "#\n  x \"a\nb\" # y" 1 _ h⟩

end SeqScan
