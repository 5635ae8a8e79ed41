/-
  Lines: a text cut at its line feeds.

  A line feed ends a line, and a carriage return directly before it belongs to
  the line's end. The last line may lack its end, and nothing is no line. The
  same cut is made in bytes and in characters. `cmd_repl` reads standard input by
  these lines.

  What is proved: `lines_append`, that a text which ends with a line feed is cut
  without regard to what follows.
-/

namespace SeqScan

namespace Text

/-- The lines of a text, without their ends. -/
def lines {α : Type} [DecidableEq α] (cr lf : α) : List α → List (List α)
  | [] => []
  | c :: rest =>
    if c = lf then [] :: lines cr lf rest
    else if c = cr ∧ rest.head? = some lf then lines cr lf rest
    else match lines cr lf rest with
      | [] => [[c]]
      | line :: others => (c :: line) :: others

/-- The lines of a run of bytes. -/
def byteLines (bytes : List UInt8) : List (List UInt8) := lines 13 10 bytes

/-- The text that bytes encode in UTF-8, if they do. -/
def decode? (bytes : List UInt8) : Option String := String.fromUTF8? bytes.toByteArray

theorem lines_ne_nil {α : Type} [DecidableEq α] (cr lf : α) {text : List α} (h : text ≠ []) :
    lines cr lf text ≠ [] := by
  induction text with
  | nil => contradiction
  | cons c rest ih =>
    unfold lines
    split
    · simp
    · split
      next hreturn =>
        apply ih
        intro hempty
        simp [hempty] at hreturn
      next => split <;> simp

theorem lines_append {α : Type} [DecidableEq α] (cr lf : α) (a b : List α) :
    lines cr lf (a ++ lf :: b) = lines cr lf (a ++ [lf]) ++ lines cr lf b := by
  induction a with
  | nil => simp [lines]
  | cons c rest ih =>
    have hhead : (rest ++ lf :: b).head? = (rest ++ [lf]).head? := by cases rest <;> rfl
    rw [List.cons_append, List.cons_append, lines, lines, hhead, ih]
    split
    · rfl
    · split
      · rfl
      · cases hended : lines cr lf (rest ++ [lf]) with
        | nil => exact absurd hended (lines_ne_nil cr lf (by simp))
        | cons line others => rfl

end Text

end SeqScan
