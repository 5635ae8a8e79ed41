import SeqScan.Proofs.Cut

/-
  The line and the column of an offset, counted in the text itself.

  A scan moves a place on by one character at a time. Here the line of an offset
  is one more than the line feeds before it, and its column one more than the
  characters since the last of them; nothing is remembered on the way.

  What is proved:
    1. `after_eq`: moving over a text leads to the line and column counted.
    2. `before_of_lt`: a later offset has a later place, so that a line and a
       column name one offset (`offset_unique`).
    3. `mem_tokensFrom`: every token but the last stands for one piece of the
       text and carries the place where that piece starts.
    4. `place_of_mem_tokens`: a token has the characters that its span covers, and
       the line and column of the first of them.
-/

namespace SeqScan

def lineAt (text : List Char) (p : Nat) : Nat := 1 + (text.take p).count '\n'

def columnAt (text : List Char) (p : Nat) : Nat :=
  1 + ((text.take p).reverse.takeWhile (· != '\n')).length

/-- The characters from the offset `p` up to the offset `q`. -/
def slice (text : List Char) (p q : Nat) : List Char := (text.take q).drop p

theorem getElem?_length_append (before : List Char) (c : Char) (cs : List Char) :
    (before ++ c :: cs)[before.length]? = some c := by
  simp

theorem slice_append (before w rest : List Char) :
    slice (before ++ (w ++ rest)) before.length (before.length + w.length) = w := by
  rw [slice, ← List.append_assoc, ← List.length_append, List.take_left, List.drop_left]

theorem slice_prefix (text : List Char) (p q : Nat) : slice text p q <+: text.drop p := by
  rw [slice, List.drop_take]
  exact List.take_prefix (q - p) (text.drop p)

def placeAt (text : List Char) (p : Nat) : Position := ⟨p, lineAt text p, columnAt text p⟩

def diagnosticAt (text : List Char) (x : Nat × Fault) : Diagnostic :=
  ⟨x.2, lineAt text x.1, columnAt text x.1⟩

namespace Position

theorem column_after_of_notMem {text : List Char} (h : '\n' ∉ text) (p : Position) :
    (p.after text).column = p.column + text.length := by
  induction text generalizing p with
  | nil => rfl
  | cons c rest ih =>
    simp only [List.mem_cons, not_or] at h
    have hc : (p.advance c).column = p.column + 1 := by
      rw [advance, if_neg (Ne.symm h.1)]
    rw [after_cons, ih h.2, hc, List.length_cons]
    omega

/-- The column after a text counts back from its end to the last line feed. The
text is taken in reverse, so that the recursion takes off its last character. -/
theorem column_after_reverse : ∀ rev : List Char,
    (first.after rev.reverse).column = 1 + (rev.takeWhile (· != '\n')).length
  | [] => rfl
  | c :: rev => by
    rw [List.reverse_cons, after_append, after_cons, after_nil, advance]
    by_cases hc : c = '\n'
    · subst hc
      rfl
    · rw [if_neg hc, List.takeWhile_cons, if_pos (bne_iff_ne.mpr hc), List.length_cons]
      show (first.after rev.reverse).column + 1 = _
      rw [column_after_reverse rev]
      omega

end Position

/-! Places counted and places reached -/

theorem after_eq (before rest : List Char) :
    Position.first.after before = placeAt (before ++ rest) before.length := by
  have ho := Position.offset_after .first before
  have hl := Position.line_after .first before
  have hc := Position.column_after_reverse before.reverse
  rw [List.reverse_reverse] at hc
  have htake : (before ++ rest).take before.length = before := List.take_left
  generalize Position.first.after before = q at ho hl hc
  obtain ⟨offset, line, column⟩ := q
  simp only [Position.first, Nat.zero_add] at ho hl hc
  rw [placeAt, lineAt, columnAt, htake, ho, hl, hc]

theorem after_eq_length (text : List Char) :
    Position.first.after text = placeAt text text.length := by
  simpa using after_eq text []

theorem before_of_lt {text : List Char} {p q : Nat} (hpq : p < q) (hq : q ≤ text.length) :
    lineAt text p < lineAt text q ∨
      lineAt text p = lineAt text q ∧ columnAt text p < columnAt text q := by
  -- `mid` is what stands between the two offsets
  obtain ⟨mid, hmid, hlen⟩ : ∃ mid, text.take q = text.take p ++ mid ∧ mid.length = q - p := by
    refine ⟨(text.take q).drop p, ?_, by simp; omega⟩
    have h := List.take_append_drop p (text.take q)
    rwa [List.take_take, Nat.min_eq_left (Nat.le_of_lt hpq), eq_comm] at h
  by_cases hnl : '\n' ∈ mid
  · left
    have := List.count_pos_iff.mpr hnl
    rw [lineAt, lineAt, hmid, List.count_append]
    omega
  · right
    constructor
    · rw [lineAt, lineAt, hmid, List.count_append, List.count_eq_zero.mpr hnl, Nat.add_zero]
    · have hp := Position.column_after_reverse (text.take p).reverse
      have hr := Position.column_after_reverse (text.take q).reverse
      rw [List.reverse_reverse] at hp hr
      rw [columnAt, columnAt, ← hp, ← hr, hmid, Position.after_append,
        Position.column_after_of_notMem hnl, hlen]
      omega

theorem offset_unique {text : List Char} {p q : Nat} (hp : p ≤ text.length)
    (hq : q ≤ text.length) (hl : lineAt text p = lineAt text q)
    (hc : columnAt text p = columnAt text q) : p = q := by
  rcases Nat.lt_trichotomy p q with h | h | h
  · have := before_of_lt h hq
    omega
  · exact h
  · have := before_of_lt h hp
    omega

/-! Where tokens and diagnostics come from -/

theorem Placed.span_of_token? {table : ReservedWords} {p : Placed} {t : Token}
    (h : p.token? table = some t) : t.lexeme = p.piece.lexeme ∧ t.span = p.span := by
  obtain ⟨kind, _, rfl⟩ := Option.map_eq_some_iff.mp h
  exact ⟨rfl, rfl⟩

namespace Scan

theorem mem_tokensFrom {table : ReservedWords} (before : List Char) {rest : List Char} {t : Token}
    (h : t ∈ tokensFrom table (Position.first.after before) rest) :
    (∃ u p v, Cut p v ∧ u ++ (p.text ++ v) = before ++ rest ∧
      Placed.token? table ⟨p, Position.first.after u⟩ = some t) ∨
    t = Token.eof (Position.first.after (before ++ rest)) := by
  induction rest using Piece.cut_induction generalizing before with
  | nil =>
    rw [tokensFrom_nil, List.mem_singleton] at h
    rw [List.append_nil]
    exact .inr h
  | cut p rest hcut ih =>
    rw [tokensFrom_cut table _ hcut, List.mem_append, Option.mem_toList,
      ← Position.after_append] at h
    rcases h with h | h
    · exact .inl ⟨before, p, rest, hcut, rfl, h⟩
    · rw [← List.append_assoc]
      exact ih (before ++ p.text) h

/-- A token has the characters that its span covers, and starts in the line and
column of the first of them. -/
theorem place_of_mem_tokens {table : ReservedWords} {text : List Char} {t : Token}
    (h : t ∈ (ofChars table text).tokens) :
    t.span.stop ≤ text.length ∧ t.lexeme.toList = slice text t.span.start t.span.stop ∧
      t.span.line = lineAt text t.span.start ∧ t.span.column = columnAt text t.span.start := by
  rcases mem_tokensFrom [] h with ⟨u, p, v, _, heq, htok⟩ | rfl
  · obtain ⟨hlex, hspan⟩ := Placed.span_of_token? htok
    rw [List.nil_append] at heq
    rw [← heq, hlex, hspan, Placed.span, after_eq u (p.text ++ v), placeAt, Piece.lexeme,
      String.toList_ofList]
    refine ⟨?_, (slice_append u p.text v).symm, rfl, rfl⟩
    rw [List.length_append, List.length_append]
    show u.length + p.text.length ≤ u.length + (p.text.length + v.length)
    omega
  · rw [List.nil_append, after_eq_length]
    refine ⟨Nat.le_refl _, ?_, rfl, rfl⟩
    show [] = slice text text.length text.length
    rw [slice, List.take_length, List.drop_length]

end Scan

end SeqScan
