import SeqScan.Proofs.Coverage

/-
  How far a scan looks ahead.

  Where a piece ends is decided by its own characters and the next two. The
  second of them matters to digits before a point alone: a number takes the point
  in if a digit follows it. So text that is put after a text changes nothing in
  pieces that stop two characters before its end, and no report of a character.
  A blank put there decides as the end of the text does, and so does a quote.

  What is proved:
    1. `Cut.of_next`: the next character, and a digit after a point, are all that
       the end of a piece depends on.
    2. `Cut.append`: whatever is put after a text, its first piece ends where it
       did, unless that is at the end of the text or before a last point.
    3. `Cut.append_divider`: a blank or a quote put there leaves every piece as it is but
       an open string, or a comment that goes to the end.
    4. `scan_append_prefix`: what the scan of a longer text keeps of the scan of
       the shorter one.
-/

namespace SeqScan

/-! What follows a piece -/

namespace Text

/-- Whatever stands before the character, no number, name or operator goes on with it. -/
def Divides (c : Char) : Prop := isNameChar c = false ∧ c ∉ marks

theorem divides_of_isBlank {c : Char} (h : isBlank c = true) : Divides c := by
  refine ⟨isNameChar_of_isBlank h, ?_⟩
  intro hm
  rw [(class_of_mem_marks hm).1] at h
  cases h

theorem Divides.isDigit {c : Char} (h : Divides c) : c.isDigit = false := by
  have hname := h.1
  rw [isNameChar, Bool.or_eq_false_iff] at hname
  exact hname.2

end Text

theorem Operator.not_continues_of_divides {w : List Char} {c : Char} (hc : Text.Divides c) :
    ¬ Continues w c := by
  intro h
  rcases h with hm | ⟨_, rfl⟩
  · obtain ⟨⟨v, op⟩, he, rfl⟩ := List.mem_map.mp hm
    exact hc.2 (forall_mem_marks he c (List.mem_append_right w List.mem_cons_self))
  · exact hc.2 (by decide)

namespace Cut

variable {p : Piece} {rest rest' : List Char}

/-- A piece ends in the same way before another text, if that text starts as the
first one does or with a character that divides, and brings no digit after a point. -/
theorem of_next (h : Cut p rest) (hu : p.shape ≠ .unterminated)
    (hnext : ∀ d ∈ rest'.head?,
      d ∈ rest.head? ∨ Text.Divides d ∧ (p.shape = .comment → d = '\n'))
    (hpoint : ∀ d more, rest' = '.' :: d :: more → d.isDigit = true →
      ∃ more', rest = '.' :: d :: more') : Cut p rest' := by
  have hstop : ∀ q : Char → Bool, (∀ d, Text.Divides d → q d = false) →
      Stops q rest → Stops q rest' := by
    intro q hq hr d hd
    rcases hnext d hd with hsame | ⟨hdivides, _⟩
    · exact hr d hsame
    · exact hq d hdivides
  have hdigit := hstop Char.isDigit fun d hd => hd.isDigit
  cases h with
  | blank hc => exact .blank hc
  | string hb => exact .string hb
  | unterminated _ => exact absurd rfl hu
  | whole hc hds hr hp =>
    refine .whole hc hds (hdigit hr) ?_
    intro d more heq
    cases hd : d.isDigit with
    | false => rfl
    | true =>
      obtain ⟨more', hrest⟩ := hpoint d more heq hd
      rw [hp d more' hrest] at hd
      cases hd
  | fraction hc hds hf hfs hr => exact .fraction hc hds hf hfs (hdigit hr)
  | name hc hds hr =>
    exact .name hc hds (hstop Text.isNameChar (fun d hd => hd.1) hr)
  | comment hb hr =>
    refine .comment hb ?_
    intro d hd
    rcases hnext d hd with hsame | ⟨_, hline⟩
    · exact hr d hsame
    · rw [hline rfl]
      rfl
  | operator hw hr =>
    refine .operator hw ?_
    intro d hd
    rcases hnext d hd with hsame | ⟨hdivides, _⟩
    · exact hr d hsame
    · exact Operator.not_continues_of_divides hdivides
  | unexpected hc => exact .unexpected hc

/-- A piece that is not the last ends in the same way whatever follows the text, unless that
brings a digit after a last point. -/
theorem append_of_ne_nil {more : List Char} (h : Cut p rest) (hne : rest ≠ [])
    (hpoint : rest = ['.'] → Stops Char.isDigit more) : Cut p (rest ++ more) := by
  have hu := h.shape_ne_of_ne_nil hne
  obtain ⟨x, rest, rfl⟩ := List.exists_cons_of_ne_nil hne
  refine h.of_next hu (fun d hd => .inl hd) ?_
  intro d more' heq hd
  obtain ⟨rfl, htail⟩ := List.cons.inj heq
  cases rest with
  | nil =>
    obtain rfl : more = d :: more' := htail
    have hno := Stops.cons_iff.mp (hpoint rfl)
    rw [hd] at hno
    cases hno
  | cons y rest =>
    obtain ⟨rfl, _⟩ := List.cons.inj htail
    exact ⟨rest, rfl⟩

/-- Whatever is put after a text, its first piece ends where it did, unless that is at
the end of the text or before a last point. An unexpected character always stays alone. -/
theorem append (h : Cut p rest) (more : List Char) :
    Cut p (rest ++ more) ∨ p.shape ≠ .unexpected ∧ (rest = [] ∨ rest = ['.']) := by
  by_cases hx : p.shape = .unexpected
  · cases h <;> simp only [reduceCtorEq] at hx
    case unexpected hc => exact .inl (.unexpected hc)
  by_cases hnil : rest = []
  · exact .inr ⟨hx, .inl hnil⟩
  by_cases hend : rest = ['.']
  · exact .inr ⟨hx, .inr hend⟩
  exact .inl (h.append_of_ne_nil hnil fun hpoint => absurd hpoint hend)

/-- **What divides decides as the end does.** A character put after a text, which is a line
feed if a comment goes to its end, leaves the first piece as it is if no piece goes on
with it. -/
theorem append_divider {c : Char} (h : Cut p rest) (hu : p.shape ≠ .unterminated)
    (hc : Text.Divides c) (hcom : p.shape = .comment → rest = [] → c = '\n')
    (more : List Char) : Cut p (rest ++ c :: more) := by
  by_cases hnil : rest = []
  · subst hnil
    refine h.of_next hu ?_ ?_
    · intro d hd
      obtain rfl : c = d := by simpa using hd
      exact .inr ⟨hc, fun hs => hcom hs rfl⟩
    · intro d more' heq _
      obtain ⟨rfl, _⟩ := List.cons.inj heq
      exact absurd (show '.' ∈ Text.marks by decide) hc.2
  · exact h.append_of_ne_nil hnil fun _ => Stops.cons_iff.mpr hc.isDigit

theorem append_blank {c : Char} (h : Cut p rest) (hu : p.shape ≠ .unterminated)
    (hc : Text.isBlank c = true) (hcom : p.shape = .comment → rest = [] → c = '\n')
    (more : List Char) : Cut p (rest ++ c :: more) :=
  h.append_divider hu (Text.divides_of_isBlank hc) hcom more

/-- A comment that goes to the end takes in whatever is put there, but a line feed. -/
theorem append_comment {c : Char} (h : Cut p []) (hs : p.shape = .comment) (hc : c ≠ '\n') :
    Cut ⟨.comment, p.first, p.rest ++ [c]⟩ [] := by
  cases h <;> simp only [reduceCtorEq] at hs
  case comment body hb _ => exact .comment (by simp [hb, hc.symm]) (Stops.nil _)

end Cut

namespace Scan

variable {c : Char} {rest : List Char}

theorem tokensFrom_blank (table : ReservedWords) (pos : Position) (hc : Text.isBlank c = true) :
    tokensFrom table pos (c :: rest) = tokensFrom table (pos.advance c) rest :=
  tokensFrom_cut table pos (.blank hc)

theorem diagnosticsFrom_blank (pos : Position) (hc : Text.isBlank c = true) :
    diagnosticsFrom pos (c :: rest) = diagnosticsFrom (pos.advance c) rest :=
  diagnosticsFrom_cut pos (.blank hc)

end Scan

/-! A text and a longer one -/

namespace Piece

variable {p : Piece} {fault : Fault}

theorem fault?_eq_unterminatedString_iff :
    p.fault? = some .unterminatedString ↔ p.shape = .unterminated := by
  cases hs : p.shape <;> simp [fault?, hs]

theorem fault?_of_ne_unexpected (hx : p.shape ≠ .unexpected) (h : p.fault? = some fault) :
    fault = .unterminatedString := by
  cases hs : p.shape <;> simp_all [fault?]

end Piece

namespace Scan

variable {table : ReservedWords}

/-- The diagnostics, less a last one for a string that stays open. -/
def settledDiagnostics (s : Scan) : List Diagnostic :=
  if s.diagnostics.getLast?.any (·.fault = .unterminatedString) then s.diagnostics.dropLast
  else s.diagnostics

/-- Only the last diagnostic can be for an open string, so to leave that one out is to
leave out all of its kind. -/
theorem settledDiagnostics_eq (table : ReservedWords) (text : List Char) :
    (ofChars table text).settledDiagnostics =
      (ofChars table text).diagnostics.filter (·.fault ≠ .unterminatedString) := by
  have hlast := unterminated_mem_dropLast table text
  unfold settledDiagnostics
  generalize (ofChars table text).diagnostics = ds at hlast
  have hfront : ds.dropLast.filter (·.fault ≠ .unterminatedString) = ds.dropLast := by
    rw [List.filter_eq_self]
    intro d hd
    exact decide_eq_true (hlast d hd)
  cases hl : ds.getLast? with
  | none =>
    rw [List.getLast?_eq_none_iff.mp hl]
    rfl
  | some d =>
    obtain ⟨front, hds⟩ := List.getLast?_eq_some_iff.mp hl
    rw [hds, List.dropLast_concat] at hfront
    rw [hds, List.filter_append, List.dropLast_concat, hfront]
    by_cases hd : d.fault = .unterminatedString
    · simp [hd]
    · simp [hd]

theorem stop_of_token? {p : Piece} {pos : Position} {t : Token}
    (h : Placed.token? table ⟨p, pos⟩ = some t) : t.span.stop = (pos.after p.text).offset := by
  rw [(Placed.span_of_token? h).2, Position.offset_after]
  rfl

theorem offset_le_of_mem_tokensFrom {pos : Position} {text : List Char} {t : Token}
    (h : t ∈ tokensFrom table pos text) : pos.offset ≤ t.span.stop := by
  induction text using Piece.cut_induction generalizing pos with
  | nil =>
    rw [tokensFrom_nil, List.mem_singleton] at h
    rw [h]
    exact Nat.le_refl _
  | cut p rest hcut ih =>
    have hlen := Position.offset_after pos p.text
    rw [tokensFrom_cut table pos hcut, List.mem_append, Option.mem_toList] at h
    rcases h with h | h
    · rw [stop_of_token? h, hlen]
      exact Nat.le_add_right _ _
    · have := ih h
      omega

theorem offset_after_le_of_mem_tokensFrom {p : Piece} {pos : Position} {rest : List Char}
    {t : Token} (hcut : Cut p rest) (h : t ∈ tokensFrom table pos (p.text ++ rest)) :
    (pos.after p.text).offset ≤ t.span.stop := by
  rw [tokensFrom_cut table pos hcut, List.mem_append, Option.mem_toList] at h
  rcases h with h | h
  · exact Nat.le_of_eq (stop_of_token? h).symm
  · exact offset_le_of_mem_tokensFrom h

/-- Tokens that stop two characters before the end stay, whatever is put there. -/
theorem tokensFrom_append_prefix (table : ReservedWords) (pos : Position) (rest more : List Char) :
    (tokensFrom table pos rest).filter
        (fun t => t.kind ≠ .eof ∧ t.span.stop + 2 ≤ pos.offset + rest.length) <+:
      tokensFrom table pos (rest ++ more) := by
  induction rest using Piece.cut_induction generalizing pos with
  | nil => simp [Token.eof]
  | cut p rest h ih =>
    have hlen : pos.offset + (p.text ++ rest).length =
        (pos.after p.text).offset + rest.length := by
      rw [Position.offset_after, List.length_append, Nat.add_assoc]
    rw [hlen]
    by_cases htwo : 2 ≤ rest.length
    · have hcut : Cut p (rest ++ more) := by
        refine (h.append more).resolve_right ?_
        intro hend
        rcases hend.2 with rfl | rfl <;> simp at htwo
      have hkeep : (Placed.token? table ⟨p, pos⟩).toList.filter (fun t => t.kind ≠ .eof ∧
          t.span.stop + 2 ≤ (pos.after p.text).offset + rest.length) =
          (Placed.token? table ⟨p, pos⟩).toList := by
        rw [List.filter_eq_self]
        intro t ht
        have htok := Option.mem_toList.mp ht
        have hstop := stop_of_token? htok
        exact decide_eq_true ⟨(start_lt_stop_of_token? htok).1, by omega⟩
      rw [tokensFrom_cut table pos h, List.filter_append, hkeep, List.append_assoc,
        tokensFrom_cut table pos hcut]
      exact (List.prefix_append_right_inj _).mpr (ih _)
    · -- every token from here on stops too late
      rw [List.filter_eq_nil_iff.mpr]
      · exact List.nil_prefix
      · intro t ht hbound
        have hstop := offset_after_le_of_mem_tokensFrom h ht
        have := (of_decide_eq_true hbound).2
        omega

theorem diagnosticsFrom_point (pos : Position) : diagnosticsFrom pos ['.'] = [] := by
  have hcut : Cut ⟨.operator .dot, '.', []⟩ [] := .operator (by decide) (by simp)
  have h := diagnosticsFrom_cut pos hcut
  rwa [diagnosticsFrom_nil] at h

/-- Reports of characters stay, whatever is put after the text. -/
theorem diagnosticsFrom_append_prefix (pos : Position) (rest more : List Char) :
    (diagnosticsFrom pos rest).filter (·.fault ≠ .unterminatedString) <+:
      diagnosticsFrom pos (rest ++ more) := by
  induction rest using Piece.cut_induction generalizing pos with
  | nil => simp
  | cut p rest h ih =>
    rw [diagnosticsFrom_cut pos h, List.filter_append, List.append_assoc]
    rcases h.append more with hcut | ⟨hx, hend⟩
    · rw [diagnosticsFrom_cut pos hcut]
      by_cases hu : p.shape = .unterminated
      · obtain ⟨_, _, _, rfl⟩ := h.of_unterminated hu
        have hfault := Piece.fault?_eq_unterminatedString_iff.mpr hu
        simp [Placed.diagnostic?_of_fault hfault]
      · have hkeep : (Placed.diagnostic? ⟨p, pos⟩).toList.filter
            (·.fault ≠ .unterminatedString) = (Placed.diagnostic? ⟨p, pos⟩).toList := by
          rw [List.filter_eq_self]
          intro d hd
          obtain ⟨fault, hfault, rfl⟩ := Option.map_eq_some_iff.mp (Option.mem_toList.mp hd)
          refine decide_eq_true ?_
          intro hopen
          exact hu (Piece.fault?_eq_unterminatedString_iff.mp (hopen ▸ hfault))
        rw [hkeep]
        exact (List.prefix_append_right_inj _).mpr (ih _)
    · -- the last piece, or one before a last point: no character is reported from here on
      have hrest : diagnosticsFrom (pos.after p.text) rest = [] := by
        rcases hend with rfl | rfl
        · exact diagnosticsFrom_nil _
        · exact diagnosticsFrom_point _
      have hdrop : (Placed.diagnostic? ⟨p, pos⟩).toList.filter
          (·.fault ≠ .unterminatedString) = [] := by
        rw [List.filter_eq_nil_iff]
        intro d hd
        obtain ⟨fault, hfault, rfl⟩ := Option.map_eq_some_iff.mp (Option.mem_toList.mp hd)
        simp [Piece.fault?_of_ne_unexpected hx hfault]
      rw [hdrop, hrest]
      exact List.nil_prefix

end Scan

/-- **Text that is put after a text** leaves in place every token that stops two
characters before its end and all diagnostics but one for an open string, for every
table of reserved words. -/
theorem scan_append_prefix (table : ReservedWords) (s t : String) :
    (Scan.ofSource table s).tokens.filter
        (fun x => x.kind ≠ .eof ∧ x.span.stop + 2 ≤ s.length) <+:
      (Scan.ofSource table (s ++ t)).tokens ∧
    (Scan.ofSource table s).settledDiagnostics <+:
      (Scan.ofSource table (s ++ t)).diagnostics := by
  constructor
  · have h := Scan.tokensFrom_append_prefix table .first s.toList t.toList
    rw [String.length_toList, ← String.toList_append, Position.first, Nat.zero_add] at h
    exact h
  · rw [Scan.ofSource, Scan.settledDiagnostics_eq]
    have h := Scan.diagnosticsFrom_append_prefix .first s.toList t.toList
    rw [← String.toList_append] at h
    exact h

end SeqScan
