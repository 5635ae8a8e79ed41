import SeqScan.Proofs.Lookahead
import SeqScan.Proofs.Translated

/-
  Two texts joined by a line feed.

  A scan carries nothing over a line feed but its place, unless a string is open
  there. So the scan of two texts with a line feed between is the scan of the first
  without its last token, and then the scan of the second, moved: its offsets
  by the characters before it, its lines by the line feeds before it, and its
  columns not at all.

  What is proved:
    1. `tokensFrom_moved`, `diagnosticsFrom_moved`: a scan that starts in a moved
       place is the scan, moved.
    2. `tokensFrom_append_line`, `diagnosticsFrom_append_line`: from any place on,
       a line feed after a text ends what the text left unfinished.
    3. `scan_append_line`: the whole law, for every two sources and every table.
-/

namespace SeqScan

/-! Moving -/

/-- A place, moved by `k` characters and `l` lines. -/
def Position.moved (k l : Nat) (p : Position) : Position := ⟨p.offset + k, p.line + l, p.column⟩

def Token.moved (k l : Nat) (t : Token) : Token :=
  { t with span := ⟨t.span.start + k, t.span.stop + k, t.span.line + l, t.span.column⟩ }

def Diagnostic.moved (l : Nat) (d : Diagnostic) : Diagnostic := { d with line := d.line + l }

namespace Position

theorem advance_moved (k l : Nat) (p : Position) (c : Char) :
    (p.moved k l).advance c = (p.advance c).moved k l := by
  by_cases hc : c = '\n'
  · simp [advance, moved, hc, Nat.add_right_comm]
  · simp [advance, moved, hc, Nat.add_right_comm]

/-- After a line feed a text starts as the first one did, but for where it stands. -/
theorem first_after_line (text : List Char) :
    (first.after text).advance '\n' = first.moved (text.length + 1) (1 + text.count '\n') := by
  have ho := offset_after .first text
  have hl := line_after .first text
  rw [advance, if_pos rfl, ho, hl, moved]
  simp only [first, Nat.zero_add, Nat.add_comm]

end Position

theorem translates_moved (k l : Nat) : Translates (fun _ => True) (Position.moved k l)
    (Token.moved k l) (Diagnostic.moved l) where
  onward _ _ _ := trivial
  advance q c _ := q.advance_moved k l c
  token _ _ _ q n _ := by simp [Token.moved, Position.moved, Nat.add_right_comm]
  diagnostic _ _ _ := rfl

theorem Position.after_moved (k l : Nat) (p : Position) (text : List Char) :
    (p.moved k l).after text = (p.after text).moved k l :=
  ((translates_moved k l).after trivial text).2

namespace Scan

theorem tokensFrom_moved (table : ReservedWords) (k l : Nat) (pos : Position)
    (text : List Char) : tokensFrom table (pos.moved k l) text =
      (tokensFrom table pos text).map (Token.moved k l) :=
  (translates_moved k l).tokensFrom trivial table text

theorem diagnosticsFrom_moved (k l : Nat) (pos : Position) (text : List Char) :
    diagnosticsFrom (pos.moved k l) text =
      (diagnosticsFrom pos text).map (Diagnostic.moved l) :=
  (translates_moved k l).diagnosticsFrom trivial text

/-! A line feed after a text -/

theorem shape_ne_unterminated {p : Piece} {pos : Position} {rest : List Char} (hcut : Cut p rest)
    (h : ∀ d ∈ diagnosticsFrom pos (p.text ++ rest), d.fault ≠ .unterminatedString) :
    p.shape ≠ .unterminated := by
  intro hs
  have hfault := Piece.fault?_eq_unterminatedString_iff.mpr hs
  rw [diagnosticsFrom_cut pos hcut, Placed.diagnostic?_of_fault hfault] at h
  exact h _ List.mem_cons_self rfl

theorem tokensFrom_append_line (table : ReservedWords) (pos : Position) (a b : List Char)
    (h : ∀ d ∈ diagnosticsFrom pos a, d.fault ≠ .unterminatedString) :
    tokensFrom table pos (a ++ '\n' :: b) =
      (tokensFrom table pos a).filter (·.kind ≠ .eof) ++
        tokensFrom table ((pos.after a).advance '\n') b := by
  induction a using Piece.cut_induction generalizing pos with
  | nil =>
    rw [List.nil_append, tokensFrom_blank table pos (by decide), tokensFrom_nil]
    rfl
  | cut p rest hcut ih =>
    have hcut' : Cut p (rest ++ '\n' :: b) :=
      hcut.append_blank (shape_ne_unterminated hcut h) (by decide) (fun _ _ => rfl) b
    have hkeep : (Placed.token? table ⟨p, pos⟩).toList.filter (·.kind ≠ .eof) =
        (Placed.token? table ⟨p, pos⟩).toList := by
      rw [List.filter_eq_self]
      intro t ht
      exact decide_eq_true (start_lt_stop_of_token? (Option.mem_toList.mp ht)).1
    rw [diagnosticsFrom_cut pos hcut] at h
    rw [List.append_assoc, tokensFrom_cut table pos hcut', tokensFrom_cut table pos hcut,
      List.filter_append, hkeep, Position.after_append, List.append_assoc,
      ih _ fun d hd => h d (List.mem_append_right _ hd)]

theorem diagnosticsFrom_append_line (pos : Position) (a b : List Char)
    (h : ∀ d ∈ diagnosticsFrom pos a, d.fault ≠ .unterminatedString) :
    diagnosticsFrom pos (a ++ '\n' :: b) =
      diagnosticsFrom pos a ++ diagnosticsFrom ((pos.after a).advance '\n') b := by
  induction a using Piece.cut_induction generalizing pos with
  | nil =>
    rw [List.nil_append, diagnosticsFrom_blank pos (by decide), diagnosticsFrom_nil]
    rfl
  | cut p rest hcut ih =>
    have hcut' : Cut p (rest ++ '\n' :: b) :=
      hcut.append_blank (shape_ne_unterminated hcut h) (by decide) (fun _ _ => rfl) b
    rw [diagnosticsFrom_cut pos hcut] at h
    rw [List.append_assoc, diagnosticsFrom_cut pos hcut', diagnosticsFrom_cut pos hcut,
      Position.after_append, List.append_assoc,
      ih _ fun d hd => h d (List.mem_append_right _ hd)]

end Scan

/-- **Scanning two texts joined by a line feed** is scanning each, where the first
leaves no string open, for every table of reserved words. -/
theorem scan_append_line (table : ReservedWords) (a b : String)
    (h : ∀ d ∈ (Scan.ofSource table a).diagnostics, d.fault ≠ .unterminatedString) :
    (Scan.ofSource table (a ++ "\n" ++ b)).tokens =
      (Scan.ofSource table a).tokens.filter (·.kind ≠ .eof) ++
        (Scan.ofSource table b).tokens.map
          (Token.moved (a.length + 1) (1 + a.toList.count '\n')) ∧
    (Scan.ofSource table (a ++ "\n" ++ b)).diagnostics =
      (Scan.ofSource table a).diagnostics ++
        (Scan.ofSource table b).diagnostics.map
          (Diagnostic.moved (1 + a.toList.count '\n')) := by
  have htext : (a ++ "\n" ++ b).toList = a.toList ++ '\n' :: b.toList := by
    rw [String.toList_append, String.toList_append, List.append_assoc]
    rfl
  have hplace := Position.first_after_line a.toList
  rw [String.length_toList] at hplace
  constructor
  · have htokens := Scan.tokensFrom_append_line table .first a.toList b.toList h
    rw [hplace, Scan.tokensFrom_moved, ← htext] at htokens
    exact htokens
  · have hdiagnostics := Scan.diagnosticsFrom_append_line .first a.toList b.toList h
    rw [hplace, Scan.diagnosticsFrom_moved _ _ .first, ← htext] at hdiagnostics
    exact hdiagnostics

/-- The first text ends in a comment with a quote in it, after a number that ends
in a point and a character that is reported. -/
theorem scan_append_line_after_comment :
    ⟨.unexpectedCharacter '#', 2, 3⟩ ∈ (Scan.ofSource .standard "x\n1.# ::// \"").diagnostics ∧
    (∀ d ∈ (Scan.ofSource .standard "x\n1.# ::// \"").diagnostics,
      d.fault ≠ .unterminatedString) ∧
    (Scan.ofSource .standard ("x\n1.# ::// \"" ++ "\n" ++ "= 5\n\"y")).tokens =
      (Scan.ofSource .standard "x\n1.# ::// \"").tokens.filter (·.kind ≠ .eof) ++
        (Scan.ofSource .standard "= 5\n\"y").tokens.map (Token.moved 13 2) ∧
    (Scan.ofSource .standard ("x\n1.# ::// \"" ++ "\n" ++ "= 5\n\"y")).diagnostics =
      (Scan.ofSource .standard "x\n1.# ::// \"").diagnostics ++
        (Scan.ofSource .standard "= 5\n\"y").diagnostics.map (Diagnostic.moved 2) := by
  have h : ∀ d ∈ (Scan.ofSource .standard "x\n1.# ::// \"").diagnostics,
      d.fault ≠ .unterminatedString := by
    decide +kernel
  exact ⟨by decide +kernel, h, scan_append_line .standard "x\n1.# ::// \"" "= 5\n\"y" h⟩

end SeqScan
