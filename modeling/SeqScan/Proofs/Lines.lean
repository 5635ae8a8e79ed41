import SeqScan.Proofs.Encoding

/-
  What the lines of a text are.

  A line feed ends a line, and one carriage return directly before it goes with it. What is
  left at the end is a line too, if it is anything. This says which lines a text has, without
  saying how they are found; there is one list of them, and it is what the text is cut into.

  What is proved:
    1. `divided_lines`: a text is divided into its lines.
    2. `Divided.eq_lines`: and into nothing else.
    3. `exists_return`: what stands before a line feed, with the carriage return set apart.
-/

namespace SeqScan

namespace Text

/-- The lines of a text, where `cr` and `lf` are the characters that end lines. -/
inductive Divided {α : Type} (cr lf : α) : List α → List (List α) → Prop
  | nil : Divided cr lf [] []
  /-- A last line that is not ended is kept as it is. -/
  | last {line : List α} : line ≠ [] → lf ∉ line → Divided cr lf line [line]
  /-- A line feed ends a line, and takes one carriage return with it. -/
  | ended {line ret rest : List α} {lines : List (List α)} : lf ∉ line →
    ret = [] ∧ line.getLast? ≠ some cr ∨ ret = [cr] → Divided cr lf rest lines →
    Divided cr lf (line ++ ret ++ lf :: rest) (line :: lines)

section

variable {α : Type} {cr lf : α}

theorem exists_return (cr : α) (body : List α) :
    ∃ line ret, body = line ++ ret ∧ (ret = [] ∧ line.getLast? ≠ some cr ∨ ret = [cr]) := by
  by_cases h : body.getLast? = some cr
  · obtain ⟨line, rfl⟩ := List.getLast?_eq_some_iff.mp h
    exact ⟨line, [cr], rfl, .inr rfl⟩
  · exact ⟨body, [], by simp, .inl ⟨rfl, h⟩⟩

theorem Divided.notMem {text : List α} {ls : List (List α)} (h : Divided cr lf text ls) :
    ∀ line ∈ ls, lf ∉ line := by
  induction h with
  | nil => simp
  | last _ hline => simpa using hline
  | ended hline _ _ ih => exact List.forall_mem_cons.mpr ⟨hline, ih⟩

variable [DecidableEq α]

theorem lines_of_notMem {text : List α} (h : lf ∉ text) (hne : text ≠ []) :
    lines cr lf text = [text] := by
  induction text with
  | nil => contradiction
  | cons c text ih =>
    simp only [List.mem_cons, not_or] at h
    have hc : ¬ (c = cr ∧ text.head? = some lf) := fun hc => h.2 (List.mem_of_head? hc.2)
    rw [lines_cons (Ne.symm h.1) hc]
    cases text with
    | nil => rfl
    | cons d text => rw [ih h.2 (by simp)]; rfl

theorem lines_ended (hne : cr ≠ lf) {line ret : List α} (h : lf ∉ line)
    (hret : ret = [] ∧ line.getLast? ≠ some cr ∨ ret = [cr]) (rest : List α) :
    lines cr lf (line ++ ret ++ lf :: rest) = line :: lines cr lf rest := by
  induction line with
  | nil =>
    obtain ⟨rfl, -⟩ | rfl := hret
    · simp [lines]
    · simp [lines, hne]
  | cons c line ih =>
    simp only [List.mem_cons, not_or] at h
    have hc : ¬ (c = cr ∧ (line ++ ret ++ lf :: rest).head? = some lf) := by
      intro hboth
      obtain ⟨hcr, hhead⟩ := hboth
      cases line with
      | cons d line =>
        obtain rfl : d = lf := by simpa using hhead
        exact h.2 List.mem_cons_self
      | nil =>
        obtain ⟨-, hlast⟩ | rfl := hret
        · exact hlast (by rw [hcr]; rfl)
        · exact hne (by simpa using hhead)
    have hlater : ret = [] ∧ line.getLast? ≠ some cr ∨ ret = [cr] := by
      obtain ⟨hnil, hlast⟩ | hret := hret
      · refine .inl ⟨hnil, fun hline => hlast ?_⟩
        rw [List.getLast?_cons, hline]
        rfl
      · exact .inr hret
    rw [List.cons_append, List.cons_append, lines_cons (Ne.symm h.1) hc, ih h.2 hlater]
    rfl

/-- **A text is divided into its lines.** -/
theorem divided_lines (hne : cr ≠ lf) (text : List α) : Divided cr lf text (lines cr lf text) := by
  induction hn : text.length using Nat.strongRecOn generalizing text with
  | ind n ih =>
    by_cases hlf : lf ∈ text
    · obtain ⟨body, rest, rfl, hbody⟩ := List.eq_append_cons_of_mem hlf
      obtain ⟨line, ret, rfl, hret⟩ := exists_return cr body
      have hline : lf ∉ line := fun hm => hbody (List.mem_append_left ret hm)
      rw [lines_ended hne hline hret]
      refine .ended hline hret (ih rest.length ?_ rest rfl)
      simp only [List.length_append, List.length_cons] at hn
      omega
    · by_cases hnil : text = []
      · rw [hnil]
        exact .nil
      · rw [lines_of_notMem hlf hnil]
        exact .last hnil hlf

/-- **There is one way to divide a text.** -/
theorem Divided.eq_lines (hne : cr ≠ lf) {text : List α} {ls : List (List α)}
    (h : Divided cr lf text ls) : ls = lines cr lf text := by
  induction h with
  | nil => rfl
  | last hnil hline => rw [lines_of_notMem hline hnil]
  | ended hline hret _ ih => rw [lines_ended hne hline hret, ← ih]

theorem divided_iff (hne : cr ≠ lf) (text : List α) (ls : List (List α)) :
    Divided cr lf text ls ↔ lines cr lf text = ls := by
  constructor
  · intro h
    rw [h.eq_lines hne]
  · intro h
    rw [← h]
    exact divided_lines hne text

end

end Text

end SeqScan
