import SeqScan.Scan

/-
  What a piece is, and where it ends.

  The first piece of a text is decided by its own characters and by at most two
  characters after them. `Cut p rest` says so without the code that cuts: the
  characters of `p` have the form that its shape asks for, and `rest`, which
  follows them, does not carry them on.

  What is proved:
    1. `exists_cut`: every text but the empty one begins with such a piece.
    2. `next_of_cut`: the code finds that piece and no other, so two texts
       whose pieces are known to meet `Cut` need no second look at the code.
    3. `cut_induction`: what holds of the empty text and is kept by putting a
       piece in front holds of every text.
    4. `tokensFrom_cut`, `diagnosticsFrom_cut`: what one piece gives a scan,
       from any place on.
-/

namespace SeqScan

/-! Where a run of characters stops -/

/-- The text is empty, or its first character does not meet the condition. -/
def Stops (p : Char → Bool) (rest : List Char) : Prop := ∀ c ∈ rest.head?, p c = false

namespace Stops

@[simp] theorem nil (p : Char → Bool) : Stops p [] := by
  simp [Stops]

@[simp] theorem cons_iff {p : Char → Bool} {c : Char} {rest : List Char} :
    Stops p (c :: rest) ↔ p c = false := by
  simp [Stops]

theorem dropWhile (p : Char → Bool) (cs : List Char) : Stops p (cs.dropWhile p) := by
  intro c hc
  have h := List.head?_dropWhile_not p cs
  rw [Option.mem_def.mp hc] at h
  simpa using h

end Stops

namespace Shape

/-- A run that meets a condition, where what follows stops it, is the longest. -/
theorem run_append {p : Char → Bool} {body rest : List Char} (hb : ∀ c ∈ body, p c = true)
    (hr : Stops p rest) : run p (body ++ rest) = body.length := by
  unfold run
  rw [List.takeWhile_append_of_pos hb]
  cases rest with
  | nil => simp
  | cons c rest => simp [Stops.cons_iff.mp hr]

theorem exists_run (p : Char → Bool) (cs : List Char) :
    ∃ body rest, body ++ rest = cs ∧ (∀ c ∈ body, p c = true) ∧ Stops p rest :=
  ⟨cs.takeWhile p, cs.dropWhile p, List.takeWhile_append_dropWhile,
    List.all_eq_true.mp List.all_takeWhile, Stops.dropWhile p cs⟩

end Shape

/-! The characters that a scan knows -/

namespace Text

/-- The characters that operators are made of. -/
def marks : List Char :=
  ['(', ')', '{', '}', ',', '-', '+', ';', '*', '|', '.', ':', '!', '=', '<', '>', '/']

/-- An ASCII letter, a digit, an underscore, a mark, a quote or a blank. -/
def isRecognised (c : Char) : Bool :=
  c.isAlpha || c.isDigit || c = '_' || marks.contains c || c = '"' || isBlank c

theorem class_of_mem_marks {c : Char} (h : c ∈ marks) :
    isBlank c = false ∧ c ≠ '"' ∧ c.isDigit = false ∧ isNameStart c = false := by
  -- a test, because `decide` would try every character of a `∀ m ∈ marks`
  have hall : marks.all (fun m => !isBlank m && m != '"' && !m.isDigit && !isNameStart m) := by
    decide
  simpa [and_assoc] using List.all_eq_true.mp hall c h

theorem isBlank_of_isDigit {c : Char} (h : c.isDigit = true) : isBlank c = false := by
  cases hb : isBlank c with
  | false => rfl
  | true => rw [isDigit_of_isBlank hb] at h; cases h

theorem isBlank_of_isNameStart {c : Char} (h : isNameStart c = true) : isBlank c = false := by
  cases hb : isBlank c with
  | false => rfl
  | true =>
    have hn := isNameChar_of_isBlank hb
    simp [isNameChar, h] at hn

theorem isDigit_of_isNameStart {c : Char} (h : isNameStart c = true) : c.isDigit = false := by
  cases hd : c.isDigit with
  | false => rfl
  | true => rw [isNameStart_of_isDigit hd] at h; cases h

theorem ne_of_test {q : Char → Bool} {c x : Char} (hc : q c = true) (hx : q x = false) :
    c ≠ x := by
  intro h
  rw [h, hx] at hc
  cases hc

theorem ne_quote_of_isDigit {c : Char} (h : c.isDigit = true) : c ≠ '"' :=
  ne_of_test h (by decide)

theorem ne_quote_of_isNameStart {c : Char} (h : isNameStart c = true) : c ≠ '"' :=
  ne_of_test h (by decide)

theorem isRecognised_iff {c : Char} : isRecognised c = true ↔
    isBlank c = true ∨ c = '"' ∨ c.isDigit = true ∨ isNameStart c = true ∨ c ∈ marks := by
  simp only [isRecognised, isNameStart, Bool.or_eq_true, decide_eq_true_eq, List.contains_iff_mem]
  constructor
  · intro h
    rcases h with ((((h | h) | h) | h) | h) | h <;> simp [h]
  · intro h
    rcases h with h | h | h | (h | h) | h <;> simp [h]

theorem class_of_not_isRecognised {c : Char} (h : isRecognised c = false) :
    isBlank c = false ∧ c ≠ '"' ∧ c.isDigit = false ∧ isNameStart c = false ∧ c ∉ marks := by
  have hno : ¬ isRecognised c = true := by simp [h]
  simpa [isRecognised_iff, not_or] using hno

end Text

/-! Spellings of operators -/

namespace Operator

/-- Whether the character after `w` carries it on: to a longer spelling, or
from a slash to a comment. -/
def Continues (w : List Char) (d : Char) : Prop :=
  w ++ [d] ∈ spellings.map Prod.fst ∨ (w = ['/'] ∧ d = '/')

/-- Every beginning of a spelling, but the empty one, is a spelling. -/
theorem beginning_mem_spellings {entry : List Char × Operator} (h : entry ∈ spellings)
    {w more : List Char} {d : Char} (hw : entry.1 = w ++ d :: more) :
    w ++ [d] ∈ spellings.map Prod.fst := by
  have hall : ∀ e ∈ spellings, ∀ n < e.1.length, e.1.take (n + 1) ∈ spellings.map Prod.fst := by
    decide
  have hn := hall entry h w.length (by simp [hw])
  rw [hw, List.take_append, List.take_of_length_le (Nat.le_succ _)] at hn
  simpa using hn

theorem forall_mem_marks {w : List Char} {op : Operator} (h : (w, op) ∈ spellings) :
    ∀ c ∈ w, c ∈ Text.marks := by
  have hall : ∀ e ∈ spellings, e.1.all Text.marks.contains = true := by decide
  intro c hc
  exact List.contains_iff_mem.mp (List.all_eq_true.mp (hall _ h) c hc)

theorem mem_marks_of_mem_spellings {c : Char} {w : List Char} {op : Operator}
    (h : (c :: w, op) ∈ spellings) : c ∈ Text.marks :=
  forall_mem_marks h c List.mem_cons_self

theorem exists_of_mem_marks {c : Char} (h : c ∈ Text.marks) : ∃ op, ([c], op) ∈ spellings := by
  have hall : Text.marks.all (fun m => spellings.any (fun e => e.1 == [m])) := by decide
  obtain ⟨⟨w, op⟩, he, hw⟩ := List.any_eq_true.mp (List.all_eq_true.mp hall c h)
  rw [beq_iff_eq] at hw
  exact ⟨op, hw ▸ he⟩

/-- What is found begins no other spelling that stands at the front of the text. -/
theorem eq_or_not_prefix_of_spelled? {text : List Char} {found entry : List Char × Operator}
    (h : spelled? text = some found) (he : entry ∈ spellings) (hp : entry.1 <+: text) :
    entry = found ∨ ¬ found.1 <+: entry.1 := by
  obtain ⟨_, early, late, hs, hearly⟩ := List.find?_eq_some_iff_append.mp h
  have hsorted := spellings_sorted
  rw [hs, List.pairwise_append] at hsorted
  rw [hs, List.mem_append, List.mem_cons] at he
  rcases he with he | he | he
  · have hno := hearly entry he
    rw [List.isPrefixOf_iff_prefix.mpr hp] at hno
    cases hno
  · exact .inl he
  · have hno := (List.pairwise_cons.mp hsorted.2.1).1 entry he
    rw [List.isPrefixOf_iff_prefix] at hno
    exact .inr hno

theorem not_continued_of_spelled? {w rest : List Char} {op : Operator}
    (h : spelled? (w ++ rest) = some (w, op)) :
    ∀ d ∈ rest.head?, w ++ [d] ∉ spellings.map Prod.fst := by
  intro d hd hmem
  obtain ⟨⟨v, o⟩, he, rfl⟩ := List.mem_map.mp hmem
  obtain ⟨more, rfl⟩ : ∃ more, rest = d :: more := by
    cases rest with
    | nil => cases hd
    | cons x more => exact ⟨more, by rw [Option.some.inj hd]⟩
  rcases eq_or_not_prefix_of_spelled? h he ⟨more, by simp⟩ with heq | hno
  · have hlen := congrArg (fun e : List Char × Operator => e.1.length) heq
    simp at hlen
  · exact hno (List.prefix_append w [d])

/-- A spelling that is not carried on by what follows it is found. -/
theorem spelled?_append {w rest : List Char} {op : Operator} (h : (w, op) ∈ spellings)
    (hr : ∀ d ∈ rest.head?, w ++ [d] ∉ spellings.map Prod.fst) :
    spelled? (w ++ rest) = some (w, op) := by
  have hw : w <+: w ++ rest := List.prefix_append w rest
  cases hf : spelled? (w ++ rest) with
  | none =>
    have hno := List.find?_eq_none.mp hf _ h
    rw [List.isPrefixOf_iff_prefix] at hno
    exact absurd hw hno
  | some found =>
    rcases eq_or_not_prefix_of_spelled? hf h hw with heq | hno
    · rw [heq]
    · -- what was found is longer than `w`, so `w` was carried on
      have hp := isPrefix_of_spelled? hf
      obtain ⟨ext, hext⟩ := (List.prefix_or_prefix_of_prefix hw hp).resolve_right hno
      cases ext with
      | nil =>
        rw [List.append_nil] at hext
        exact absurd (hext ▸ List.prefix_rfl) hno
      | cons d more =>
        rw [← hext, List.prefix_append_right_inj] at hp
        obtain ⟨tail, rfl⟩ := hp
        exact absurd (beginning_mem_spellings (mem_of_spelled? hf) hext.symm) (hr d rfl)

theorem spelled?_eq_none {c : Char} (h : c ∉ Text.marks) (cs : List Char) :
    spelled? (c :: cs) = none := by
  cases hf : spelled? (c :: cs) with
  | none => rfl
  | some found =>
    obtain ⟨v, op⟩ := found
    have hv := mem_of_spelled? hf
    cases v with
    | nil => exact absurd rfl (ne_nil_of_mem_spellings hv)
    | cons d v =>
      have hd := (List.cons_prefix_cons.mp (isPrefix_of_spelled? hf)).1
      exact absurd (hd ▸ mem_marks_of_mem_spellings hv) h

theorem rest_eq_nil_of_slash {w : List Char} {op : Operator}
    (h : ('/' :: w, op) ∈ spellings) : w = [] := by
  have hall : ∀ e ∈ spellings, e.1.head? = some '/' → e.1 = ['/'] := by decide
  simpa using hall _ h rfl

theorem not_comment {w rest : List Char} {op : Operator} (h : ('/' :: w, op) ∈ spellings)
    (hr : ∀ d ∈ rest.head?, ¬ Continues ('/' :: w) d) : (w ++ rest).head? ≠ some '/' := by
  obtain rfl := rest_eq_nil_of_slash h
  intro hh
  exact hr '/' hh (.inr ⟨rfl, rfl⟩)

end Operator

/-! Pieces -/

/-- `Cut p rest`: before `rest`, the characters of `p` are one piece of its shape. -/
inductive Cut : Piece → List Char → Prop
  | blank {c : Char} {rest : List Char} :
    Text.isBlank c = true → Cut ⟨.blank, c, []⟩ rest
  | string {body rest : List Char} :
    '"' ∉ body → Cut ⟨.string, '"', body ++ ['"']⟩ rest
  | unterminated {body : List Char} :
    '"' ∉ body → Cut ⟨.unterminated, '"', body⟩ []
  | whole {c : Char} {ds rest : List Char} :
    c.isDigit = true → (∀ d ∈ ds, d.isDigit = true) → Stops Char.isDigit rest →
    (∀ d more, rest = '.' :: d :: more → d.isDigit = false) → Cut ⟨.number, c, ds⟩ rest
  | fraction {c f : Char} {ds fs rest : List Char} :
    c.isDigit = true → (∀ d ∈ ds, d.isDigit = true) → f.isDigit = true →
    (∀ d ∈ fs, d.isDigit = true) → Stops Char.isDigit rest →
    Cut ⟨.number, c, ds ++ '.' :: f :: fs⟩ rest
  | name {c : Char} {ds rest : List Char} :
    Text.isNameStart c = true → (∀ d ∈ ds, Text.isNameChar d = true) →
    Stops Text.isNameChar rest → Cut ⟨.name, c, ds⟩ rest
  | comment {body rest : List Char} :
    '\n' ∉ body → Stops (· != '\n') rest → Cut ⟨.comment, '/', '/' :: body⟩ rest
  | operator {c : Char} {w rest : List Char} {op : Operator} :
    (c :: w, op) ∈ Operator.spellings → (∀ d ∈ rest.head?, ¬ Operator.Continues (c :: w) d) →
    Cut ⟨.operator op, c, w⟩ rest
  | unexpected {c : Char} {rest : List Char} :
    Text.isRecognised c = false → Cut ⟨.unexpected, c, []⟩ rest

namespace Shape

theorem bne_of_notMem {x : Char} {body : List Char} (hb : x ∉ body) :
    ∀ c ∈ body, (c != x) = true := by
  intro c hc
  rw [bne_iff_ne]
  intro h
  exact hb (h ▸ hc)

theorem stringTail_closed {body rest : List Char} (hb : '"' ∉ body) :
    stringTail (body ++ '"' :: rest) = (string, body.length + 1) := by
  have hall := bne_of_notMem hb
  unfold stringTail
  rw [List.dropWhile_append_of_pos hall, run_append hall (by simp)]
  simp

theorem stringTail_open {body : List Char} (hb : '"' ∉ body) :
    stringTail body = (unterminated, body.length) := by
  have hnil : (body ++ []).dropWhile (· != '"') = [] :=
    List.dropWhile_append_of_pos (bne_of_notMem hb)
  rw [List.append_nil] at hnil
  unfold stringTail
  rw [hnil]

theorem numberTail_whole {ds rest : List Char} (hd : ∀ d ∈ ds, d.isDigit = true)
    (hr : Stops Char.isDigit rest)
    (hp : ∀ d more, rest = '.' :: d :: more → d.isDigit = false) :
    numberTail (ds ++ rest) = ds.length := by
  unfold numberTail
  rw [run_append hd hr, List.drop_left]
  split
  · next d more => simp [hp d more rfl]
  · rfl

theorem numberTail_fraction {f : Char} {ds fs rest : List Char}
    (hd : ∀ d ∈ ds, d.isDigit = true) (hf : f.isDigit = true)
    (hfs : ∀ d ∈ fs, d.isDigit = true) (hr : Stops Char.isDigit rest) :
    numberTail (ds ++ '.' :: f :: fs ++ rest) = (ds ++ '.' :: f :: fs).length := by
  unfold numberTail
  have hrun : run Char.isDigit (ds ++ '.' :: f :: fs ++ rest) = ds.length := by
    rw [List.append_assoc]
    exact run_append hd (by simp)
  rw [hrun, List.append_assoc, List.drop_left]
  simp only [List.cons_append, hf, if_true, run_append hfs hr, List.length_append,
    List.length_cons]
  omega

theorem next_of_cut {p : Piece} {rest : List Char} (h : Cut p rest) :
    next p.first (p.rest ++ rest) = (p.shape, p.rest.length) := by
  cases h with
  | blank hc => simp [next, hc]
  | string hb =>
    have hq : Text.isBlank '"' = false := by decide
    simp [next, hq, stringTail_closed hb]
  | unterminated hb =>
    have hq : Text.isBlank '"' = false := by decide
    simp [next, hq, stringTail_open hb]
  | whole hc hd hr hp =>
    have hq := Text.ne_quote_of_isDigit hc
    simp [next, Text.isBlank_of_isDigit hc, hq, hc, numberTail_whole hd hr hp]
  | fraction hc hd hf hfs hr =>
    have hq := Text.ne_quote_of_isDigit hc
    have ht := numberTail_fraction hd hf hfs hr
    simp only [next, Text.isBlank_of_isDigit hc, hq, hc, ht, if_true, if_false,
      Bool.false_eq_true]
  | name hc hd hr =>
    have hq := Text.ne_quote_of_isNameStart hc
    simp [next, Text.isBlank_of_isNameStart hc, Text.isDigit_of_isNameStart hc, hq, hc,
      run_append hd hr]
  | comment hb hr =>
    obtain ⟨hbl, hq, hdi, hns⟩ := Text.class_of_mem_marks (c := '/') (by decide)
    have hslash : '\n' ∉ '/' :: _ := List.not_mem_cons_of_ne_of_not_mem (by decide) hb
    have hrun := run_append (bne_of_notMem hslash) hr
    simp only [next, hbl, hq, hdi, hns, List.cons_append, List.head?_cons, and_self,
      if_true, if_false, Bool.false_eq_true]
    rw [← List.cons_append, hrun]
  | @operator c w rest op hw hr =>
    obtain ⟨hbl, hq, hdi, hns⟩ :=
      Text.class_of_mem_marks (Operator.mem_marks_of_mem_spellings hw)
    -- a slash is an operator only if it does not start a comment
    have hcom : ¬ (c = '/' ∧ (w ++ rest).head? = some '/') := by
      intro h
      obtain ⟨rfl, hh⟩ := h
      exact Operator.not_comment hw hr hh
    have hsp := Operator.spelled?_append hw (fun d hd hm => hr d hd (.inl hm))
    rw [List.cons_append] at hsp
    simp only [next, hbl, hq, hdi, hns, hcom, hsp, if_false, Bool.false_eq_true]
    simp
  | @unexpected c rest hc =>
    obtain ⟨hbl, hq, hdi, hns, hm⟩ := Text.class_of_not_isRecognised hc
    have hcom : c ≠ '/' := by
      intro h
      rw [h] at hm
      exact hm (by decide)
    simp [next, hbl, hq, hdi, hns, hcom, Operator.spelled?_eq_none hm]

end Shape

namespace Cut

theorem exists_string (cs : List Char) :
    ∃ p rest, Piece.text p ++ rest = '"' :: cs ∧ Cut p rest := by
  obtain ⟨body, rest, rfl, hb, hr⟩ := Shape.exists_run (· != '"') cs
  have hbody : '"' ∉ body := fun hm => absurd (hb _ hm) (by decide)
  cases rest with
  | nil => exact ⟨_, [], by simp [Piece.text], .unterminated hbody⟩
  | cons d rest =>
    obtain rfl : d = '"' := by simpa using hr
    exact ⟨_, rest, by simp [Piece.text], .string hbody⟩

theorem exists_number {c : Char} (hc : c.isDigit = true) (cs : List Char) :
    ∃ p rest, Piece.text p ++ rest = c :: cs ∧ Cut p rest := by
  obtain ⟨ds, rest, rfl, hd, hr⟩ := Shape.exists_run Char.isDigit cs
  -- the point belongs to the number only if a digit follows it
  by_cases hp : ∃ f more, rest = '.' :: f :: more ∧ f.isDigit = true
  · obtain ⟨f, more, rfl, hf⟩ := hp
    obtain ⟨fs, rest, rfl, hfs, hr⟩ := Shape.exists_run Char.isDigit more
    exact ⟨_, rest, by simp [Piece.text], .fraction hc hd hf hfs hr⟩
  · refine ⟨_, rest, by simp [Piece.text], .whole hc hd hr ?_⟩
    intro d more heq
    cases h : d.isDigit with
    | false => rfl
    | true => exact absurd ⟨d, more, heq, h⟩ hp

theorem exists_mark {c : Char} (hc : c ∈ Text.marks) (cs : List Char) :
    ∃ p rest, Piece.text p ++ rest = c :: cs ∧ Cut p rest := by
  by_cases hcom : c = '/' ∧ cs.head? = some '/'
  · obtain ⟨rfl, hh⟩ := hcom
    obtain ⟨more, rfl⟩ := List.head?_eq_some_iff.mp hh
    obtain ⟨body, rest, rfl, hb, hr⟩ := Shape.exists_run (· != '\n') more
    have hbody : '\n' ∉ body := fun hm => absurd (hb _ hm) (by decide)
    exact ⟨_, rest, by simp [Piece.text], .comment hbody hr⟩
  · obtain ⟨one, hone⟩ := Operator.exists_of_mem_marks hc
    cases hf : Operator.spelled? (c :: cs) with
    | none =>
      -- the mark alone is spelled at the front, so something is found
      have hno := List.find?_eq_none.mp hf _ hone
      simp at hno
    | some found =>
      obtain ⟨v, op⟩ := found
      have hv := Operator.mem_of_spelled? hf
      obtain ⟨rest, hvr⟩ := Operator.isPrefix_of_spelled? hf
      cases v with
      | nil => exact absurd rfl (Operator.ne_nil_of_mem_spellings hv)
      | cons d w =>
        obtain ⟨rfl, rfl⟩ := List.cons.inj hvr
        refine ⟨⟨.operator op, d, w⟩, rest, rfl, .operator hv ?_⟩
        intro x hx hon
        rcases hon with hlong | ⟨hw, rfl⟩
        · exact Operator.not_continued_of_spelled? hf x hx hlong
        · obtain ⟨rfl, rfl⟩ := List.cons.inj hw
          exact hcom ⟨rfl, hx⟩

theorem exists_cut (c : Char) (cs : List Char) :
    ∃ p rest, Piece.text p ++ rest = c :: cs ∧ Cut p rest := by
  cases hrec : Text.isRecognised c with
  | false => exact ⟨_, cs, rfl, .unexpected hrec⟩
  | true =>
    rcases Text.isRecognised_iff.mp hrec with h | rfl | h | h | h
    · exact ⟨_, cs, rfl, .blank h⟩
    · exact exists_string cs
    · exact exists_number h cs
    · obtain ⟨ds, rest, rfl, hd, hr⟩ := Shape.exists_run Text.isNameChar cs
      exact ⟨_, rest, rfl, .name h hd hr⟩
    · exact exists_mark h cs

theorem of_unterminated {p : Piece} {rest : List Char} (h : Cut p rest)
    (hs : p.shape = .unterminated) : ∃ body, '"' ∉ body ∧ p.text = '"' :: body ∧ rest = [] := by
  cases h <;> simp only [reduceCtorEq] at hs
  case unterminated body hb => exact ⟨body, hb, rfl, rfl⟩

/-- A string that stays open is the last piece. -/
theorem shape_ne_of_ne_nil {p : Piece} {rest : List Char} (h : Cut p rest) (hne : rest ≠ []) :
    p.shape ≠ .unterminated := by
  intro hs
  obtain ⟨_, _, _, hnil⟩ := h.of_unterminated hs
  exact hne hnil

theorem of_unexpected {p : Piece} {rest : List Char} (h : Cut p rest)
    (hs : p.shape = .unexpected) : p.text = [p.first] ∧ Text.isRecognised p.first = false := by
  cases h <;> simp only [reduceCtorEq] at hs
  case unexpected hc => exact ⟨rfl, hc⟩

end Cut

namespace Piece

theorem length_text (p : Piece) : p.text.length = p.rest.length + 1 := by
  simp [text]

theorem pieces_cut {p : Piece} {rest : List Char} (h : Cut p rest) :
    pieces (p.text ++ rest) = p :: pieces rest := by
  have hn := Shape.next_of_cut h
  rw [text, List.cons_append, pieces_cons, front, left, hn, List.take_left, List.drop_left]

/-- **Induction over the pieces of a text.** What holds of the empty text, and
of a text with a piece in front if it holds of the text, holds of every text. -/
@[elab_as_elim]
theorem cut_induction {motive : List Char → Prop} (nil : motive [])
    (cut : ∀ (p : Piece) (rest : List Char), Cut p rest → motive rest → motive (p.text ++ rest))
    (text : List Char) : motive text := by
  -- on the length, because a piece takes any number of characters away
  induction hn : text.length using Nat.strongRecOn generalizing text with
  | ind n ih =>
    cases text with
    | nil => exact nil
    | cons c cs =>
      obtain ⟨p, rest, heq, hcut⟩ := Cut.exists_cut c cs
      have hlen := congrArg List.length heq
      rw [List.length_append, length_text, hn] at hlen
      rw [← heq]
      exact cut p rest hcut (ih rest.length (by omega) rest rfl)

end Piece

/-! Scanning on from any place -/

namespace Placed

theorem token?_of_fault {p : Piece} {fault : Fault} (h : p.fault? = some fault)
    (table : ReservedWords) (pos : Position) : token? table ⟨p, pos⟩ = none := by
  rw [token?, Piece.kind?_eq_none_of_fault? h, Option.map_none]

theorem diagnostic?_of_fault {p : Piece} {fault : Fault} (h : p.fault? = some fault)
    (pos : Position) : diagnostic? ⟨p, pos⟩ = some ⟨fault, pos.line, pos.column⟩ := by
  rw [diagnostic?, h, Option.map_some]

theorem diagnostic?_of_no_fault {p : Piece} (h : p.fault? = none) (pos : Position) :
    diagnostic? ⟨p, pos⟩ = none := by
  rw [diagnostic?, h, Option.map_none]

end Placed

namespace Scan

/-- The tokens of a text that starts in the place `pos`. -/
def tokensFrom (table : ReservedWords) (pos : Position) (text : List Char) : List Token :=
  (Placed.place pos (Piece.pieces text)).filterMap (Placed.token? table) ++
    [Token.eof (pos.after text)]

/-- The diagnostics of a text that starts in the place `pos`. -/
def diagnosticsFrom (pos : Position) (text : List Char) : List Diagnostic :=
  (Placed.place pos (Piece.pieces text)).filterMap Placed.diagnostic?

@[simp] theorem tokensFrom_nil (table : ReservedWords) (pos : Position) :
    tokensFrom table pos [] = [Token.eof pos] := by
  simp [tokensFrom, Placed.place]

@[simp] theorem diagnosticsFrom_nil (pos : Position) : diagnosticsFrom pos [] = [] := by
  simp [diagnosticsFrom, Placed.place]

theorem tokensFrom_cut (table : ReservedWords) (pos : Position) {p : Piece} {rest : List Char}
    (h : Cut p rest) : tokensFrom table pos (p.text ++ rest) =
      (Placed.token? table ⟨p, pos⟩).toList ++ tokensFrom table (pos.after p.text) rest := by
  unfold tokensFrom
  rw [Piece.pieces_cut h, Placed.place, List.filterMap_cons, Position.after_append]
  cases Placed.token? table ⟨p, pos⟩ <;> simp

theorem diagnosticsFrom_cut (pos : Position) {p : Piece} {rest : List Char} (h : Cut p rest) :
    diagnosticsFrom pos (p.text ++ rest) =
      (Placed.diagnostic? ⟨p, pos⟩).toList ++ diagnosticsFrom (pos.after p.text) rest := by
  unfold diagnosticsFrom
  rw [Piece.pieces_cut h, Placed.place, List.filterMap_cons]
  cases Placed.diagnostic? ⟨p, pos⟩ <;> simp

end Scan

end SeqScan
