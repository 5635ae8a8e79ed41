import SeqScan.Proofs.Cut

/-
  The grammar of lexemes.

  A lexeme belongs to one of six classes, and each class is described on its
  own, by its characters alone and with ranges of characters spelled out. No
  table is searched and no order of trying is implied.

  What is proved:
    1. `Lexeme.cut`: a lexeme alone is one piece, of the shape of its class; so
       no lexeme belongs to two classes (`Lexeme.class_unique`).
    2. `Cut.lexeme`: the characters of a piece that is not a fault are a lexeme.
    3. `Cut.length_le`: no lexeme at the front of a text is longer than the
       first piece.
    4. `Cut.noLexeme`: no lexeme stands at the front of a fault.
-/

namespace SeqScan

/-! Classes and their lexemes -/

/-- The classes of lexemes. The last two give no token. -/
inductive LexemeClass where
  | operator (op : Operator)
  | string
  | number
  | name
  | blank
  | comment
  deriving DecidableEq, Repr

/-- How an operator may be written. Only the colon may be written in two ways. -/
def Operator.texts : Operator → List (List Char)
  | leftParen => [['(']]
  | rightParen => [[')']]
  | leftBrace => [['{']]
  | rightBrace => [['}']]
  | comma => [[',']]
  | dot => [['.']]
  | minus => [['-']]
  | plus => [['+']]
  | semicolon => [[';']]
  | slash => [['/']]
  | star => [['*']]
  | verticalLine => [['|']]
  | colon => [[':'], [':', ':']]
  | rangeSeparator => [['.', '.']]
  | assignment => [[':', ':', '=']]
  | bang => [['!']]
  | bangEqual => [['!', '=']]
  | equal => [['=']]
  | equalEqual => [['=', '=']]
  | less => [['<']]
  | lessEqual => [['<', '=']]
  | greater => [['>']]
  | greaterEqual => [['>', '=']]

def Digit (c : Char) : Prop := '0' ≤ c ∧ c ≤ '9'

def Letter (c : Char) : Prop := ('A' ≤ c ∧ c ≤ 'Z') ∨ ('a' ≤ c ∧ c ≤ 'z')

/-- The lexemes of each class. -/
inductive Lexeme : LexemeClass → List Char → Prop
  | operator {op : Operator} {w : List Char} : w ∈ op.texts → Lexeme (.operator op) w
  | string {body : List Char} : '"' ∉ body → Lexeme .string ('"' :: (body ++ ['"']))
  | whole {d : Char} {ds : List Char} :
    Digit d → (∀ x ∈ ds, Digit x) → Lexeme .number (d :: ds)
  | fraction {d f : Char} {ds fs : List Char} :
    Digit d → (∀ x ∈ ds, Digit x) → Digit f → (∀ x ∈ fs, Digit x) →
    Lexeme .number (d :: (ds ++ '.' :: f :: fs))
  | name {c : Char} {w : List Char} :
    Letter c ∨ c = '_' → (∀ x ∈ w, Letter x ∨ Digit x ∨ x = '_') → Lexeme .name (c :: w)
  | blank {c : Char} : c ∈ [' ', '\r', '\t', '\n'] → Lexeme .blank [c]
  | comment {body : List Char} : '\n' ∉ body → Lexeme .comment ('/' :: '/' :: body)

/-- No lexeme stands at the front of the text. -/
def NoLexeme (text : List Char) : Prop := ∀ cls w, Lexeme cls w → ¬ w <+: text

/-! The classes of characters, in ranges -/

namespace Text

theorem isDigit_iff {c : Char} : c.isDigit = true ↔ Digit c := by
  simp only [Char.isDigit, Bool.and_eq_true, decide_eq_true_eq]
  exact Iff.rfl

theorem isAlpha_iff {c : Char} : c.isAlpha = true ↔ Letter c := by
  show (decide (c.val ≥ 'A'.val ∧ c.val ≤ 'Z'.val) ||
    (decide (c.val ≥ 'a'.val) && decide (c.val ≤ 'z'.val))) = true ↔ Letter c
  simp only [Bool.and_eq_true, Bool.or_eq_true, decide_eq_true_eq]
  exact Iff.rfl

theorem isNameStart_iff {c : Char} : isNameStart c = true ↔ Letter c ∨ c = '_' := by
  simp [isNameStart, isAlpha_iff]

theorem isNameChar_iff {c : Char} : isNameChar c = true ↔ Letter c ∨ Digit c ∨ c = '_' := by
  simp only [isNameChar, Bool.or_eq_true, isNameStart_iff, isDigit_iff]
  constructor
  · intro h
    rcases h with (h | h) | h <;> simp [h]
  · intro h
    rcases h with h | h | h <;> simp [h]

theorem isBlank_iff {c : Char} : isBlank c = true ↔ c ∈ [' ', '\r', '\t', '\n'] := by
  simp only [isBlank, Bool.or_eq_true, decide_eq_true_eq, List.mem_cons, List.not_mem_nil,
    or_false]
  constructor
  · intro h
    rcases h with ((h | h) | h) | h <;> simp [h]
  · intro h
    rcases h with h | h | h | h <;> simp [h]

end Text

namespace Operator

theorem mem_texts_iff {op : Operator} {w : List Char} : w ∈ op.texts ↔ (w, op) ∈ spellings := by
  have htexts : ∀ o ∈ all, ∀ v ∈ o.texts, (v, o) ∈ spellings := by decide
  have hspellings : ∀ e ∈ spellings, e.1 ∈ e.2.texts := by decide
  exact ⟨htexts op (mem_all op) w, hspellings (w, op)⟩

end Operator

/-! Lexemes and pieces -/

def LexemeClass.shape : LexemeClass → Shape
  | .operator op => .operator op
  | .string => .string
  | .number => .number
  | .name => .name
  | .blank => .blank
  | .comment => .comment

namespace LexemeClass

theorem shape_inj {a b : LexemeClass} (h : a.shape = b.shape) : a = b := by
  cases a <;> cases b <;> simp_all [shape]

theorem exists_shape (s : Shape) :
    (∃ cls : LexemeClass, s = cls.shape) ∨ s = .unterminated ∨ s = .unexpected := by
  cases s with
  | operator op => exact .inl ⟨.operator op, rfl⟩
  | string => exact .inl ⟨.string, rfl⟩
  | number => exact .inl ⟨.number, rfl⟩
  | name => exact .inl ⟨.name, rfl⟩
  | blank => exact .inl ⟨.blank, rfl⟩
  | comment => exact .inl ⟨.comment, rfl⟩
  | unexpected => exact .inr (.inr rfl)
  | unterminated => exact .inr (.inl rfl)

end LexemeClass

namespace Lexeme

variable {cls : LexemeClass} {c : Char} {w : List Char}

theorem ne_nil (h : Lexeme cls w) : w ≠ [] := by
  cases h with
  | operator hw => exact Operator.ne_nil_of_mem_spellings (Operator.mem_texts_iff.mp hw)
  | _ => exact List.cons_ne_nil _ _

theorem cut (h : Lexeme cls (c :: w)) : Cut ⟨cls.shape, c, w⟩ [] := by
  -- the text becomes a variable, for the lexemes of operators start with no `::`
  generalize ht : c :: w = t at h
  cases h with
  | operator hw =>
    rw [← ht, Operator.mem_texts_iff] at hw
    exact .operator hw (by simp)
  | string hb =>
    obtain ⟨rfl, rfl⟩ := List.cons.inj ht
    exact .string hb
  | whole hd hds =>
    obtain ⟨rfl, rfl⟩ := List.cons.inj ht
    exact .whole (Text.isDigit_iff.mpr hd) (fun x hx => Text.isDigit_iff.mpr (hds x hx))
      (.nil _) (by simp)
  | fraction hd hds hf hfs =>
    obtain ⟨rfl, rfl⟩ := List.cons.inj ht
    exact .fraction (Text.isDigit_iff.mpr hd) (fun x hx => Text.isDigit_iff.mpr (hds x hx))
      (Text.isDigit_iff.mpr hf) (fun x hx => Text.isDigit_iff.mpr (hfs x hx)) (.nil _)
  | name hc hw =>
    obtain ⟨rfl, rfl⟩ := List.cons.inj ht
    exact .name (Text.isNameStart_iff.mpr hc) (fun x hx => Text.isNameChar_iff.mpr (hw x hx))
      (.nil _)
  | blank hc =>
    obtain ⟨rfl, rfl⟩ := List.cons.inj ht
    exact .blank (Text.isBlank_iff.mpr hc)
  | comment hb =>
    obtain ⟨rfl, rfl⟩ := List.cons.inj ht
    exact .comment hb (.nil _)

theorem next_eq (h : Lexeme cls (c :: w)) : Shape.next c w = (cls.shape, w.length) := by
  simpa using Shape.next_of_cut h.cut

theorem class_unique {other : LexemeClass} (h : Lexeme cls w) (h' : Lexeme other w) :
    cls = other := by
  cases w with
  | nil => exact absurd rfl h.ne_nil
  | cons c w => exact LexemeClass.shape_inj (congrArg Prod.fst (h.next_eq.symm.trans h'.next_eq))

theorem eq_nil_of_isBlank (hc : Text.isBlank c = true) (h : Lexeme cls (c :: w)) : w = [] := by
  have hn := h.next_eq
  simp only [Shape.next, hc, if_true, Prod.mk.injEq] at hn
  exact List.length_eq_zero_iff.mp hn.2.symm

theorem class_of_quote (h : Lexeme cls ('"' :: w)) : cls = .string := by
  have hq : Text.isBlank '"' = false := by decide
  have hn := h.next_eq
  simp only [Shape.next, hq, Bool.false_eq_true, if_false, if_true, Shape.stringTail] at hn
  split at hn <;> cases cls <;> simp_all [LexemeClass.shape]

theorem class_of_isDigit (hc : c.isDigit = true) (h : Lexeme cls (c :: w)) : cls = .number := by
  have hn := h.next_eq
  simp only [Shape.next, Text.isBlank_of_isDigit hc, Text.ne_quote_of_isDigit hc, hc,
    Bool.false_eq_true, if_false, if_true, Prod.mk.injEq] at hn
  exact LexemeClass.shape_inj hn.1.symm

theorem class_of_isNameStart (hc : Text.isNameStart c = true) (h : Lexeme cls (c :: w)) :
    cls = .name := by
  have hn := h.next_eq
  simp only [Shape.next, Text.isBlank_of_isNameStart hc, Text.ne_quote_of_isNameStart hc,
    Text.isDigit_of_isNameStart hc, hc, Bool.false_eq_true, if_false, if_true,
    Prod.mk.injEq] at hn
  exact LexemeClass.shape_inj hn.1.symm

theorem class_of_mem_marks (hc : c ∈ Text.marks) (h : Lexeme cls (c :: w)) :
    cls = .comment ∨ ∃ op, cls = .operator op := by
  obtain ⟨hbl, hq, hdi, hns⟩ := Text.class_of_mem_marks hc
  have hn := congrArg Prod.fst h.next_eq
  simp only [Shape.next, hbl, hq, hdi, hns, Bool.false_eq_true, if_false] at hn
  split at hn
  · exact .inl (LexemeClass.shape_inj hn.symm)
  · split at hn <;> cases cls <;> simp_all [LexemeClass.shape]

theorem isRecognised (h : Lexeme cls (c :: w)) : Text.isRecognised c = true := by
  cases hc : Text.isRecognised c with
  | true => rfl
  | false =>
    have hn := h.next_eq
    have hu := Shape.next_of_cut (.unexpected hc : Cut ⟨.unexpected, c, []⟩ w)
    rw [List.nil_append, hn] at hu
    cases cls <;> cases hu

end Lexeme

/-! The first piece is the longest lexeme -/

theorem exists_of_longer {u v rest : List Char} (hp : v <+: u ++ rest)
    (hl : u.length < v.length) : ∃ d more, v = u ++ d :: more ∧ d ∈ rest.head? := by
  have hu : u <+: v :=
    List.prefix_of_prefix_length_le (List.prefix_append u rest) hp (Nat.le_of_lt hl)
  obtain ⟨ext, rfl⟩ := hu
  cases ext with
  | nil => simp at hl
  | cons d more =>
    obtain ⟨tail, rfl⟩ := (List.prefix_append_right_inj u).mp hp
    exact ⟨d, more, rfl, rfl⟩

theorem length_le_of_stops {q : Char → Bool} {u v rest : List Char}
    (hv : ∀ c ∈ v, q c = true) (hr : Stops q rest) (hp : v <+: u ++ rest) :
    v.length ≤ u.length := by
  apply Nat.le_of_not_lt
  intro hl
  obtain ⟨d, more, rfl, hd⟩ := exists_of_longer hp hl
  have hno := hr d hd
  rw [hv d (by simp)] at hno
  cases hno

/-- A text is split in one way into a run and what stops it. -/
theorem run_unique {q : Char → Bool} {a b r s : List Char} (ha : ∀ c ∈ a, q c = true)
    (hb : ∀ c ∈ b, q c = true) (hr : Stops q r) (hs : Stops q s) (h : a ++ r = b ++ s) :
    a = b ∧ r = s := by
  have hlen := Shape.run_append ha hr
  rw [h, Shape.run_append hb hs] at hlen
  exact List.append_inj h hlen.symm

namespace Cut

variable {p : Piece} {rest w : List Char} {cls : LexemeClass}

theorem lexeme (h : Cut p rest) (hs : p.shape = cls.shape) : Lexeme cls p.text := by
  cases h <;> cases cls <;> simp only [LexemeClass.shape, reduceCtorEq] at hs
  case blank.blank hc => exact .blank (Text.isBlank_iff.mp hc)
  case string.string hb => exact .string hb
  case whole.number hc hd _ _ =>
    exact .whole (Text.isDigit_iff.mp hc) (fun x hx => Text.isDigit_iff.mp (hd x hx))
  case fraction.number hc hd hf hfs _ =>
    exact .fraction (Text.isDigit_iff.mp hc) (fun x hx => Text.isDigit_iff.mp (hd x hx))
      (Text.isDigit_iff.mp hf) (fun x hx => Text.isDigit_iff.mp (hfs x hx))
  case name.name hc hd _ =>
    exact .name (Text.isNameStart_iff.mp hc) (fun x hx => Text.isNameChar_iff.mp (hd x hx))
  case comment.comment hb _ => exact .comment hb
  case operator.operator hw _ op =>
    cases hs
    exact .operator (Operator.mem_texts_iff.mpr hw)

theorem whole_length_le {c : Char} {ds : List Char} (hds : ∀ d ∈ ds, d.isDigit = true)
    (hr : Stops Char.isDigit rest) (hpt : ∀ d more, rest = '.' :: d :: more → d.isDigit = false)
    (hv : Lexeme .number (c :: w)) (hp : w <+: ds ++ rest) : w.length ≤ ds.length := by
  cases hv with
  | whole _ hw => exact length_le_of_stops (fun x hx => Text.isDigit_iff.mpr (hw x hx)) hr hp
  | @fraction _ f vs fs _ hvs hf hfs =>
    obtain ⟨tail, ht⟩ := hp
    rw [List.append_assoc] at ht
    have hu := run_unique (fun x hx => Text.isDigit_iff.mpr (hvs x hx)) hds (by simp) hr ht
    have hno := hpt f (fs ++ tail) hu.2.symm
    rw [Text.isDigit_iff.mpr hf] at hno
    cases hno

theorem fraction_length_le {c f : Char} {ds fs : List Char} (hds : ∀ d ∈ ds, d.isDigit = true)
    (hr : Stops Char.isDigit rest)
    (hv : Lexeme .number (c :: w)) (hp : w <+: ds ++ '.' :: f :: fs ++ rest) :
    w.length ≤ (ds ++ '.' :: f :: fs).length := by
  rw [List.append_assoc] at hp
  rw [List.length_append]
  cases hv with
  | whole _ hw =>
    have := length_le_of_stops (fun x hx => Text.isDigit_iff.mpr (hw x hx)) (by simp) hp
    omega
  | @fraction _ g vs gs _ hvs hg hgs =>
    obtain ⟨tail, ht⟩ := hp
    rw [List.append_assoc] at ht
    obtain ⟨rfl, heq⟩ :=
      run_unique (fun x hx => Text.isDigit_iff.mpr (hvs x hx)) hds (by simp) (by simp) ht
    simp only [List.cons_append, List.cons.injEq, true_and] at heq
    have := length_le_of_stops (fun x hx => Text.isDigit_iff.mpr (hgs x hx)) hr ⟨tail, heq.2⟩
    simp only [List.length_append, List.length_cons]
    omega

/-- No lexeme that starts as the first piece does is longer than it. -/
theorem rest_length_le (h : Cut p rest) (hv : Lexeme cls (p.first :: w))
    (hp : w <+: p.rest ++ rest) : w.length ≤ p.rest.length := by
  cases h with
  | blank hc =>
    obtain rfl := hv.eq_nil_of_isBlank hc
    exact Nat.zero_le _
  | @string body rest hb =>
    obtain rfl := hv.class_of_quote
    cases hv with
    | @string inner hi =>
      -- without its closing quote the other string cannot go beyond the first quote
      have hp' : inner <+: body ++ '"' :: rest := by
        refine (List.prefix_append inner ['"']).trans ?_
        simpa using hp
      have := length_le_of_stops (Shape.bne_of_notMem hi) (by simp) hp'
      simp only [List.length_append, List.length_cons, List.length_nil]
      omega
  | unterminated hb => simpa using hp.length_le
  | whole hc hds hr hpt =>
    obtain rfl := hv.class_of_isDigit hc
    exact whole_length_le hds hr hpt hv hp
  | fraction hc hds _ _ hr =>
    obtain rfl := hv.class_of_isDigit hc
    exact fraction_length_le hds hr hv hp
  | name hc _ hr =>
    obtain rfl := hv.class_of_isNameStart hc
    cases hv with
    | name _ hw => exact length_le_of_stops (fun x hx => Text.isNameChar_iff.mpr (hw x hx)) hr hp
  | comment hb hr =>
    have hm : '/' ∈ Text.marks := by decide
    rcases hv.class_of_mem_marks hm with rfl | ⟨op, rfl⟩
    · cases hv with
      | comment hi =>
        exact length_le_of_stops
          (Shape.bne_of_notMem (List.not_mem_cons_of_ne_of_not_mem (by decide) hi)) hr hp
    · cases hv with
      | operator hw =>
        rw [Operator.rest_eq_nil_of_slash (Operator.mem_texts_iff.mp hw)]
        exact Nat.zero_le _
  | @operator c u rest op hu hr =>
    rcases hv.class_of_mem_marks (Operator.mem_marks_of_mem_spellings hu) with rfl | ⟨o, rfl⟩
    · generalize ht : c :: w = t at hv
      cases hv with
      | comment _ =>
        -- a comment would carry the slash on
        obtain ⟨rfl, rfl⟩ := List.cons.inj ht
        obtain ⟨tail, ht⟩ := hp
        exact absurd (by rw [← ht]; rfl) (Operator.not_comment hu hr)
    · -- a longer operator would carry this one on
      apply Nat.le_of_not_lt
      intro hl
      obtain ⟨d, more, rfl, hd⟩ := exists_of_longer hp hl
      cases hv with
      | operator hw =>
        rw [Operator.mem_texts_iff] at hw
        exact hr d hd (.inl (Operator.beginning_mem_spellings (w := c :: u) hw rfl))
  | unexpected hc =>
    rw [hv.isRecognised] at hc
    cases hc

theorem length_le (h : Cut p rest) (hv : Lexeme cls w) (hp : w <+: p.text ++ rest) :
    w.length ≤ p.text.length := by
  cases w with
  | nil => exact absurd rfl hv.ne_nil
  | cons c w =>
    obtain ⟨rfl, hw⟩ := List.cons_prefix_cons.mp hp
    rw [Piece.length_text, List.length_cons]
    exact Nat.succ_le_succ (h.rest_length_le hv hw)

theorem noLexeme (h : Cut p rest) (hs : p.shape = .unterminated ∨ p.shape = .unexpected) :
    NoLexeme (p.text ++ rest) := by
  intro cls w hv hp
  cases w with
  | nil => exact absurd rfl hv.ne_nil
  | cons c w =>
    obtain ⟨rfl, hw⟩ := List.cons_prefix_cons.mp hp
    cases h <;> simp only [reduceCtorEq, or_self, or_false, or_true] at hs
    case unterminated body hb =>
      obtain rfl := hv.class_of_quote
      cases hv with
      | string _ =>
        -- a string would bring its closing quote into the body
        apply hb
        have hsub := hw.sublist.subset
        simpa using hsub (List.mem_append_right _ (List.mem_singleton_self '"'))
    case unexpected hc =>
      rw [hv.isRecognised] at hc
      cases hc

end Cut

end SeqScan
