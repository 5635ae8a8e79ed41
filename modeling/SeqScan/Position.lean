/-
  Places in a text: how many characters stand before, and on which line and in
  which column the next one stands.

  Offsets count from 0, lines and columns from 1. Every character moves one
  column on, and a line feed goes to the first column of the next line.

    `advance`, and `newline` after a line feed    `Position.advance`
    `current`, `line`, `column`                   `Position`, which starts as `first`

  What is proved:
    1. `after_append`: moving over two texts in turn is moving over both.
    2. `offset_after`, `line_after`: the offset grows by the length of the text
       and the line by the line feeds in it.
-/

namespace SeqScan

/-- A place in a text. The place before its first character is the default. -/
structure Position where
  offset : Nat := 0
  line : Nat := 1
  column : Nat := 1
  deriving DecidableEq, Repr

namespace Position

def first : Position := {}

/-- The place after the character `c`. -/
def advance (p : Position) (c : Char) : Position :=
  if c = '\n' then ⟨p.offset + 1, p.line + 1, 1⟩
  else ⟨p.offset + 1, p.line, p.column + 1⟩

def after (p : Position) (text : List Char) : Position := text.foldl advance p

@[simp] theorem after_nil (p : Position) : p.after [] = p := rfl

@[simp] theorem after_cons (p : Position) (c : Char) (text : List Char) :
    p.after (c :: text) = (p.advance c).after text := rfl

theorem after_append (p : Position) (a b : List Char) : p.after (a ++ b) = (p.after a).after b := by
  simp [after]

theorem offset_advance (p : Position) (c : Char) : (p.advance c).offset = p.offset + 1 := by
  unfold advance
  split <;> rfl

theorem line_advance (p : Position) (c : Char) :
    (p.advance c).line = p.line + [c].count '\n' := by
  unfold advance
  split <;> simp_all

theorem offset_after (p : Position) (text : List Char) :
    (p.after text).offset = p.offset + text.length := by
  induction text generalizing p with
  | nil => rfl
  | cons c rest ih => rw [after_cons, ih, offset_advance, List.length_cons]; omega

theorem line_after (p : Position) (text : List Char) :
    (p.after text).line = p.line + text.count '\n' := by
  induction text generalizing p with
  | nil => rfl
  | cons c rest ih =>
    rw [after_cons, ih, line_advance, List.count_cons, List.count_cons, List.count_nil]
    omega

end Position

end SeqScan
