import Mathlib.Data.List.Induction
import SeqScan.Proofs.Lookahead
import SeqScan.Proofs.Modes
import SeqScan.Proofs.Paired

/-
  Texts with some of their characters taken out.

  Which characters go is decided for each by the mode before it and by the text from it on.
  The characters that go stand at the ends of lines: no line feed goes, and after a character
  that goes no other character of its line stays. So nothing that stays comes to stand in
  another line or column. Offsets become less by the number of characters that have gone
  before.

  What is proved:
    1. `Erasure.erase_eq`, `Erasure.length_kept`: a text is erased from left to right, and
       what is left is as long as it should be.
    2. `Erasure.line_kept`, `Erasure.column_kept`: lines stay, and so do columns, but just
       behind a character that has gone.
    3. `Cut.erase`: a piece ends where it did when characters go from what follows it.
    4. `Erasure.paired`: if characters only go from blanks, from comments and from strings,
       the pieces of the erased text are in step with those of the text.
-/

namespace SeqScan

/-- Which characters go from a text, by the mode before the character and the text from it on:
none that ends a line, and with any other all that follow it on its line. -/
structure Erasure where
  goes : Mode → List Char → Bool
  to_end : ∀ m c cs, goes m (c :: cs) = true →
    c ≠ '\n' ∧ (Stops (· != '\n') cs ∨ goes (m.step c) cs = true)

namespace Erasure

variable (E : Erasure)

/-! What goes and what is left -/

def goesAt (text : List Char) (p : Nat) : Bool := E.goes (modeAt text p) (text.drop p)

def erase (text : List Char) : List Char :=
  (text.zipIdx.filter fun x => !E.goesAt text x.2).map Prod.fst

/-- A text as a string without the characters that go. -/
def apply (source : String) : String := String.ofList (E.erase source.toList)

def countBefore (text : List Char) (p : Nat) : Nat := (List.range p).countP (E.goesAt text)

/-- A span of a text after the erasure, where every offset is less by what has gone before it. -/
def span (text : List Char) (s : Span) : Span :=
  { s with
    start := s.start - E.countBefore text s.start
    stop := s.stop - E.countBefore text s.stop }

/-- What is left of a text in the mode `m` where `rest` follows it. -/
def kept : Mode → List Char → List Char → List Char
  | _, [], _ => []
  | m, c :: cs, rest =>
    if E.goes m (c :: (cs ++ rest)) then kept (m.step c) cs rest
    else c :: kept (m.step c) cs rest

@[simp] theorem kept_nil (m : Mode) (rest : List Char) : E.kept m [] rest = [] := rfl

variable {E} {m : Mode} {c : Char} {cs rest : List Char}

theorem kept_cons_of_goes (h : E.goes m (c :: (cs ++ rest)) = true) :
    E.kept m (c :: cs) rest = E.kept (m.step c) cs rest := by
  rw [kept, if_pos h]

theorem kept_cons_of_stays (h : E.goes m (c :: (cs ++ rest)) = false) :
    E.kept m (c :: cs) rest = c :: E.kept (m.step c) cs rest := by
  simp [kept, h]

variable (E)

theorem kept_append (m : Mode) (a b rest : List Char) :
    E.kept m (a ++ b) rest = E.kept m a (b ++ rest) ++ E.kept (m.run a) b rest := by
  induction a generalizing m with
  | nil => simp
  | cons c a ih =>
    simp only [List.cons_append, kept, List.append_assoc, Mode.run_cons]
    split <;> simp [ih]

theorem kept_sublist (m : Mode) (w rest : List Char) : (E.kept m w rest).Sublist w := by
  induction w generalizing m with
  | nil => simp
  | cons c cs ih =>
    rw [kept]
    split
    · exact (ih _).cons c
    · exact (ih _).cons_cons c

theorem kept_concat (before : List Char) (c : Char) (rest : List Char) :
    E.kept .code (before ++ [c]) rest = E.kept .code before (c :: rest) ++
      if E.goes (Mode.run .code before) (c :: rest) then [] else [c] := by
  rw [kept_append]
  simp [kept]

theorem goesAt_append (before : List Char) (c : Char) (rest : List Char) :
    E.goesAt (before ++ c :: rest) before.length =
      E.goes (Mode.run .code before) (c :: rest) := by
  simp [goesAt, modeAt]

/-- Characters are taken out one by one, from left to right. -/
theorem filter_zipIdx (before rest : List Char) :
    (before.zipIdx.filter fun x => !E.goesAt (before ++ rest) x.2).map Prod.fst =
      E.kept .code before rest := by
  induction before using List.reverseRecOn generalizing rest with
  | nil => simp
  | append_singleton before c ih =>
    have hgoes := E.goesAt_append before c rest
    rw [List.append_assoc, List.singleton_append, List.zipIdx_append, List.filter_append,
      List.map_append, ih, kept_concat]
    cases h : E.goes (Mode.run .code before) (c :: rest) <;> simp [hgoes, h]

theorem erase_eq (text : List Char) : E.erase text = E.kept .code text [] := by
  have h := E.filter_zipIdx text []
  rwa [List.append_nil] at h

theorem length_kept (before rest : List Char) :
    (E.kept .code before rest).length + E.countBefore (before ++ rest) before.length =
      before.length := by
  induction before using List.reverseRecOn generalizing rest with
  | nil => simp [countBefore]
  | append_singleton before c ih =>
    have hgoes := E.goesAt_append before c rest
    have ih := ih (c :: rest)
    rw [countBefore] at ih ⊢
    rw [kept_concat, List.append_assoc, List.singleton_append, List.length_append,
      List.length_append, List.length_singleton, List.range_succ, List.countP_append]
    cases h : E.goes (Mode.run .code before) (c :: rest) <;> simp [hgoes, h] <;> omega

/-! Lines and columns -/

/-- After a character that goes, only a line feed stays. -/
theorem eq_line_of_stays {before cs : List Char} {d c : Char}
    (hgoes : E.goes (Mode.run .code before) (d :: c :: cs) = true)
    (hstays : E.goes (Mode.run .code (before ++ [d])) (c :: cs) = false) : c = '\n' := by
  rcases (E.to_end _ _ _ hgoes).2 with hstop | hnext
  · simpa using hstop
  · rw [Mode.run_append, Mode.run_cons, Mode.run_nil, hnext] at hstays
    cases hstays

/-- The line after a text does not change, and its column does not unless the last character
of the text goes. -/
theorem place_kept (before rest : List Char) :
    (Position.first.after (E.kept .code before rest)).line =
        (Position.first.after before).line ∧
      ((Position.first.after (E.kept .code before rest)).column =
          (Position.first.after before).column ∨
        ∃ b c, before = b ++ [c] ∧ E.goes (Mode.run .code b) (c :: rest) = true) := by
  induction before using List.reverseRecOn generalizing rest with
  | nil => simp
  | append_singleton before c ih =>
    obtain ⟨hline, hcolumn⟩ := ih (c :: rest)
    rw [kept_concat, Position.after_append, Position.after_append]
    cases h : E.goes (Mode.run .code before) (c :: rest) with
    | true =>
      have hc := (E.to_end _ _ _ h).1
      simp only [if_true, Position.after_nil, Position.after_cons, Position.line_advance]
      refine ⟨?_, .inr ⟨before, c, rfl, h⟩⟩
      simp [hline, hc]
    | false =>
      simp only [Bool.false_eq_true, if_false, Position.after_nil, Position.after_cons,
        Position.line_advance, hline, true_and]
      left
      by_cases hc : c = '\n'
      · simp [Position.advance, hc]
      · -- before a character that stays on its line, none has gone
        have hsame : (Position.first.after (E.kept .code before (c :: rest))).column =
            (Position.first.after before).column := by
          rcases hcolumn with hsame | ⟨b, d, rfl, hd⟩
          · exact hsame
          · exact absurd (E.eq_line_of_stays hd h) hc
        simp [Position.advance, hc, hsame]

theorem line_kept (before rest : List Char) :
    (Position.first.after (E.kept .code before rest)).line =
      (Position.first.after before).line :=
  (E.place_kept before rest).1

/-- Before a character that stays and does not end its line, the column does not change. -/
theorem column_kept {before cs : List Char} {c : Char}
    (hstays : E.goes (Mode.run .code before) (c :: cs) = false) (hc : c ≠ '\n') :
    (Position.first.after (E.kept .code before (c :: cs))).column =
      (Position.first.after before).column := by
  rcases (E.place_kept before (c :: cs)).2 with hsame | ⟨b, d, rfl, hd⟩
  · exact hsame
  · exact absurd (E.eq_line_of_stays hd hstays) hc

/-! What follows a piece -/

variable {E}

theorem kept_eq_cons {text ds : List Char} {d : Char} (h : E.kept m text [] = d :: ds) :
    d = '\n' ∨ ∃ cs, text = d :: cs ∧ E.goes m text = false ∧ ds = E.kept (m.step d) cs [] := by
  induction text generalizing m with
  | nil => simp at h
  | cons c cs ih =>
    rw [kept, List.append_nil] at h
    cases hgoes : E.goes m (c :: cs) with
    | false =>
      simp only [hgoes, Bool.false_eq_true, if_false, List.cons.injEq] at h
      obtain ⟨rfl, rfl⟩ := h
      exact .inr ⟨cs, rfl, rfl, rfl⟩
    | true =>
      rw [hgoes, if_pos rfl] at h
      rcases (E.to_end _ _ _ hgoes).2 with hstop | hnext
      · -- the line ends here, and its line feed stays
        cases cs with
        | nil => simp at h
        | cons x xs =>
          have hx : x = '\n' := by simpa using hstop
          rcases ih h with hd | ⟨_, htext, _⟩
          · exact .inl hd
          · simp only [List.cons.injEq] at htext
            exact .inl (htext.1.symm.trans hx)
      · rcases ih h with hd | ⟨_, _, hstays, _⟩
        · exact .inl hd
        · rw [hnext] at hstays
          cases hstays

end Erasure

/-- **A piece ends where it did** when characters go from what follows it. -/
theorem Cut.erase {p : Piece} {rest : List Char} (h : Cut p rest) (E : Erasure) (m : Mode) :
    Cut p (E.kept m rest []) := by
  by_cases hu : p.shape = .unterminated
  · obtain ⟨_, _, _, rfl⟩ := h.of_unterminated hu
    exact h
  apply h.of_next hu
  · intro d hd
    obtain ⟨ds, hkept⟩ := List.head?_eq_some_iff.mp hd
    rcases Erasure.kept_eq_cons hkept with rfl | ⟨cs, rfl, _⟩
    · exact .inr ⟨Text.divides_of_isBlank (by decide), fun _ => rfl⟩
    · simp
  · intro d more hkept hd
    rcases Erasure.kept_eq_cons hkept with hline | ⟨cs, rfl, _, hmore⟩
    · simp at hline
    · rcases Erasure.kept_eq_cons hmore.symm with rfl | ⟨cs, rfl, _⟩
      · simp at hd
      · exact ⟨cs, rfl⟩

/-! Pieces without the characters that go -/

namespace Erasure

variable (E : Erasure) {f : String → String} {m : Mode} {p : Piece} {rest : List Char}

/-- A piece that starts in the mode `m`, without the characters that go, if its first one
stays. -/
def piece (m : Mode) (p : Piece) (rest : List Char) : Piece :=
  ⟨p.shape, p.first, E.kept (m.step p.first) p.rest rest⟩

/-- A token of a text after the erasure, where `f` is what the erasure does to its text. -/
def token (f : String → String) (text : List Char) (t : Token) : Token :=
  { t.onText f with span := E.span text t.span }

/-- Characters go from blanks, from comments and from strings only. A piece of which the first
character goes is a blank or a comment and goes with all the others it has; any other piece
is one still, and its text is changed by `f`. -/
structure Harmless (f : String → String) : Prop where
  goes : ∀ {m p rest}, Cut p rest → Ready m (p.text ++ rest) → E.goes m (p.text ++ rest) = true →
    (p.shape = .blank ∨ p.shape = .comment) ∧ E.kept m p.text rest = []
  stays : ∀ {m p rest}, Cut p rest → Ready m (p.text ++ rest) →
    E.goes m (p.text ++ rest) = false →
      Cut (E.piece m p rest) rest ∧ Rewrites f p (E.piece m p rest)

variable {E}

theorem text_piece (h : E.goes m (p.text ++ rest) = false) :
    (E.piece m p rest).text = E.kept m p.text rest := by
  rw [Piece.text] at h
  rw [Piece.text, Piece.text, kept_cons_of_stays h]
  rfl

section

variable {before : List Char} (hcut : Cut p rest)
  (hstays : E.goes (Mode.run .code before) (p.text ++ rest) = false)

include hstays

theorem place_piece (hp : p.first ≠ '\n') :
    (Position.first.after (E.kept .code before (p.text ++ rest))).line =
        (Position.first.after before).line ∧
      (Position.first.after (E.kept .code before (p.text ++ rest))).column =
        (Position.first.after before).column :=
  ⟨E.line_kept before _, E.column_kept hstays hp⟩

theorem span_piece (hp : p.first ≠ '\n') :
    Placed.span ⟨E.piece (Mode.run .code before) p rest,
        Position.first.after (E.kept .code before (p.text ++ rest))⟩ =
      E.span (before ++ (p.text ++ rest)) (Placed.span ⟨p, Position.first.after before⟩) := by
  have hstart := E.length_kept before (p.text ++ rest)
  have hstop := E.length_kept (before ++ p.text) rest
  rw [kept_append, List.append_assoc, List.length_append, List.length_append] at hstop
  obtain ⟨hline, hcolumn⟩ := place_piece hstays hp
  have hfirst : Position.first.offset = 0 := rfl
  simp only [Placed.span, span, text_piece hstays, Position.offset_after, hfirst, Nat.zero_add,
    hline, hcolumn, Span.mk.injEq, and_true]
  constructor <;> omega

include hcut

theorem token?_piece (h : Rewrites f p (E.piece (Mode.run .code before) p rest))
    (table : ReservedWords) :
    Placed.token? table ⟨E.piece (Mode.run .code before) p rest,
        Position.first.after (E.kept .code before (p.text ++ rest))⟩ =
      (Placed.token? table ⟨p, Position.first.after before⟩).map
        (E.token f (before ++ (p.text ++ rest))) := by
  rw [h.token? table (Position.first.after before)]
  by_cases hs : p.shape = .blank
  · simp [(Placed.silent (.inl hs) table _).1]
  · rw [span_piece hstays (hcut.first_ne_line hs)]
    cases ht : Placed.token? table ⟨p, Position.first.after before⟩ with
    | none => simp
    | some t => simp [token, Token.onText, (Placed.span_of_token? ht).2]

theorem diagnostic?_piece :
    Placed.diagnostic? ⟨E.piece (Mode.run .code before) p rest,
        Position.first.after (E.kept .code before (p.text ++ rest))⟩ =
      Placed.diagnostic? ⟨p, Position.first.after before⟩ := by
  have hfault : (E.piece (Mode.run .code before) p rest).fault? = p.fault? := rfl
  by_cases hs : p.shape = .blank
  · simp [Placed.diagnostic?, Piece.fault?, hs, piece]
  · obtain ⟨hline, hcolumn⟩ := place_piece hstays (hcut.first_ne_line hs)
    simp [Placed.diagnostic?, hfault, hline, hcolumn]

end

/-- **The erased text is in step with the text**, from any place on where the mode fits. -/
theorem Harmless.paired (h : E.Harmless f) (table : ReservedWords) (before : List Char)
    (hr : Ready (Mode.run .code before) rest) :
    Paired table (E.token f (before ++ rest)) (Position.first.after before) rest
      (Position.first.after (E.kept .code before rest))
      (E.kept (Mode.run .code before) rest []) := by
  induction rest using Piece.cut_induction generalizing before with
  | nil => exact .nil
  | cut p rest hcut ih =>
    have hready := (hits_piece hcut hr 0).ready
    rw [← Mode.run_append] at hready
    have ih := ih (before ++ p.text) hready
    rw [kept_append, Mode.run_append, Position.after_append, Position.after_append,
      List.append_assoc] at ih
    rw [kept_append, List.append_nil]
    cases hgoes : E.goes (Mode.run .code before) (p.text ++ rest) with
    | true =>
      obtain ⟨hs, hkept⟩ := h.goes hcut hr hgoes
      rw [hkept] at ih ⊢
      exact .alone hcut hs ih
    | false =>
      obtain ⟨hcut', hrewrites⟩ := h.stays hcut hr hgoes
      rw [← text_piece hgoes] at ih ⊢
      apply Paired.both hcut (hcut'.erase E _) _ _ ih
      · exact token?_piece hcut hgoes hrewrites table
      · exact diagnostic?_piece hcut hgoes

/-! Whole texts -/

theorem Harmless.words_erase (h : E.Harmless f) (table : ReservedWords) (text : List Char) :
    (Scan.ofChars table (E.erase text)).words =
      (Scan.ofChars table text).words.map (E.token f text) := by
  rw [Scan.words_ofChars, Scan.words_ofChars, erase_eq]
  have hr : Ready .code text := trivial
  exact (h.paired table [] hr).wordsFrom_eq

theorem Harmless.diagnostics_erase (h : E.Harmless f) (table : ReservedWords)
    (text : List Char) :
    (Scan.ofChars table (E.erase text)).diagnostics = (Scan.ofChars table text).diagnostics := by
  have hr : Ready .code text := trivial
  rw [erase_eq]
  exact (h.paired table [] hr).diagnosticsFrom_eq

end Erasure

end SeqScan
