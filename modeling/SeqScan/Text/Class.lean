/-
  Classes of characters.

  Blanks, digits and the characters a name may start with: three disjoint
  classes of ASCII characters. Digits and letters beyond ASCII belong to none.
-/

namespace SeqScan

namespace Text

/-- Space, tab, carriage return and line feed. -/
def isBlank (c : Char) : Bool := c = ' ' || c = '\t' || c = '\r' || c = '\n'

/-- A character a name may start with: a letter or an underscore. -/
def isNameStart (c : Char) : Bool := c.isAlpha || c = '_'

def isNameChar (c : Char) : Bool := isNameStart c || c.isDigit

/-! The classes are disjoint -/

theorem toNat_of_isAlpha {c : Char} (h : c.isAlpha = true) :
    (65 ≤ c.toNat ∧ c.toNat ≤ 90) ∨ (97 ≤ c.toNat ∧ c.toNat ≤ 122) := by
  change (decide (c.val ≥ 'A'.val ∧ c.val ≤ 'Z'.val) ||
    (decide (c.val ≥ 'a'.val) && decide (c.val ≤ 'z'.val))) = true at h
  simp only [Bool.or_eq_true, Bool.and_eq_true, decide_eq_true_eq] at h
  exact h

theorem isNameStart_of_isDigit {c : Char} (h : c.isDigit = true) : isNameStart c = false := by
  have hdigit : 48 ≤ c.toNat ∧ c.toNat ≤ 57 := Char.isDigit_iff_toNat.1 h
  simp only [isNameStart, Bool.or_eq_false_iff, decide_eq_false_iff_not]
  constructor
  · cases halpha : c.isAlpha with
    | false => rfl
    | true =>
      have hletter := toNat_of_isAlpha halpha
      omega
  · rintro rfl
    exact absurd hdigit.2 (by decide)

theorem isNameChar_of_isBlank {c : Char} (h : isBlank c = true) : isNameChar c = false := by
  simp only [isBlank, Bool.or_eq_true, decide_eq_true_eq] at h
  rcases h with ((rfl | rfl) | rfl) | rfl <;> decide

theorem isDigit_of_isBlank {c : Char} (h : isBlank c = true) : c.isDigit = false := by
  have hname := isNameChar_of_isBlank h
  simp only [isNameChar, Bool.or_eq_false_iff] at hname
  exact hname.2

end Text

end SeqScan
