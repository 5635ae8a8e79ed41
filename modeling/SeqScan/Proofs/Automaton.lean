import SeqScan.Proofs.Cut

/-
  An automaton of four modes that reads one character at a time.

  It remembers its mode and nothing else: code, code just after a slash, a
  comment, or a string. It knows no token of several characters, and no lookahead.
  A number, a name or an operator is to it a run of characters that change
  nothing, because none of them takes a quote into itself, and a slash only alone.

  What is proved:
    1. `hits_append`, `mem_hits_iff`: what the automaton meets in two texts is what
       it meets in each, and every meeting is of one character in its mode.
    2. `length_opens`: strings open and close in turn.
    3. `hits_piece`: where the mode fits the text that is left (`Ready`: in a
       comment a line feed or nothing follows, in a string nothing), the automaton
       reports, opens and closes within the first piece exactly what its shape
       says, and the mode fits again after it.
-/

namespace SeqScan

/-! The automaton -/

/-- What the characters read so far make of the next one. -/
inductive Mode where
  | code
  /-- Code, just after a slash. -/
  | slash
  | comment
  | inString
  deriving DecidableEq, Repr

namespace Mode

def isCode : Mode → Bool
  | code | slash => true
  | comment | inString => false

def step : Mode → Char → Mode
  | code, c => if c = '"' then inString else if c = '/' then slash else code
  | slash, c => if c = '"' then inString else if c = '/' then comment else code
  | comment, c => if c = '\n' then code else comment
  | inString, c => if c = '"' then code else inString

def run (m : Mode) (text : List Char) : Mode := text.foldl step m

/-- The characters that pass a test in their mode, with their offsets, where the
text starts in the mode `m` at the offset `p`. -/
def hits (test : Mode → Char → Bool) : Mode → Nat → List Char → List (Nat × Char)
  | _, _, [] => []
  | m, p, c :: cs => (if test m c then [(p, c)] else []) ++ hits test (m.step c) (p + 1) cs

/-- A character is reported if it is read as code and not recognised. -/
def reports (m : Mode) (c : Char) : Bool := m.isCode && !Text.isRecognised c

/-- A quote that is read as code opens a string. -/
def opens (m : Mode) (c : Char) : Bool := m.isCode && c = '"'

/-- A quote in a string closes it. -/
def closes (m : Mode) (c : Char) : Bool := m = inString && c = '"'

end Mode

/-- The mode before the offset `p`. -/
def modeAt (text : List Char) (p : Nat) : Mode := Mode.run .code (text.take p)

/-! Runs -/

namespace Mode

variable {test : Mode → Char → Bool} {m : Mode} {p : Nat} {c : Char} {text : List Char}

@[simp] theorem run_nil (m : Mode) : m.run [] = m := rfl

@[simp] theorem run_cons (m : Mode) (c : Char) (cs : List Char) :
    m.run (c :: cs) = (m.step c).run cs := rfl

theorem run_append (m : Mode) (a b : List Char) : m.run (a ++ b) = (m.run a).run b := by
  simp [run]

@[simp] theorem hits_nil (m : Mode) (p : Nat) : hits test m p [] = [] := rfl

theorem hits_cons (m : Mode) (p : Nat) (c : Char) (cs : List Char) : hits test m p (c :: cs) =
    (if test m c then [(p, c)] else []) ++ hits test (m.step c) (p + 1) cs := rfl

theorem hits_append (m : Mode) (p : Nat) (a b : List Char) :
    hits test m p (a ++ b) = hits test m p a ++ hits test (m.run a) (p + a.length) b := by
  induction a generalizing m p with
  | nil => rfl
  | cons c a ih =>
    rw [List.cons_append, hits_cons, hits_cons, ih, List.append_assoc, run_cons,
      List.length_cons, Nat.add_assoc, Nat.add_comm 1]

theorem mem_hits_iff {k : Nat} : (k, c) ∈ hits test m p text ↔
    ∃ i, k = p + i ∧ text[i]? = some c ∧ test (m.run (text.take i)) c = true := by
  induction text generalizing m p with
  | nil => simp
  | cons x cs ih =>
    rw [hits_cons, List.mem_append, ih]
    constructor
    · intro h
      rcases h with h | ⟨i, rfl, hc, ht⟩
      · split at h
        · next hx =>
          obtain ⟨rfl, rfl⟩ := Prod.mk.inj (List.mem_singleton.mp h)
          exact ⟨0, rfl, rfl, hx⟩
        · cases h
      · exact ⟨i + 1, by omega, hc, ht⟩
    · intro h
      obtain ⟨i, rfl, hc, ht⟩ := h
      cases i with
      | zero =>
        obtain rfl : x = c := by simpa using hc
        exact .inl (by rw [if_pos (by simpa using ht)]; simp)
      | succ i => exact .inr ⟨i, by omega, by simpa using hc, by simpa using ht⟩

theorem run_of_invariant {I : Mode → Prop} (hm : I m)
    (hs : ∀ n, ∀ c ∈ text, I n → I (n.step c)) : I (m.run text) := by
  induction text generalizing m with
  | nil => exact hm
  | cons c cs ih =>
    exact ih (hs m c List.mem_cons_self hm) (fun n x hx => hs n x (List.mem_cons_of_mem c hx))

theorem hits_of_invariant {I : Mode → Prop} (hm : I m)
    (hs : ∀ n, ∀ c ∈ text, I n → I (n.step c))
    (ht : ∀ n, ∀ c ∈ text, I n → test n c = false) : hits test m p text = [] := by
  induction text generalizing m p with
  | nil => rfl
  | cons c cs ih =>
    rw [hits_cons, ht m c List.mem_cons_self hm]
    exact ih (hs m c List.mem_cons_self hm) (fun n x hx => hs n x (List.mem_cons_of_mem c hx))
      (fun n x hx => ht n x (List.mem_cons_of_mem c hx))

theorem length_opens (m : Mode) (p : Nat) (text : List Char) :
    (hits opens m p text).length + (if m = inString then 1 else 0) =
      (hits closes m p text).length + (if m.run text = inString then 1 else 0) := by
  induction text generalizing m p with
  | nil => rfl
  | cons c cs ih =>
    have ih := ih (m.step c) (p + 1)
    rw [hits_cons, hits_cons, List.length_append, List.length_append, run_cons]
    -- only a quote opens or closes; any other character leaves strings as they are
    by_cases hq : c = '"'
    · cases m <;> simp_all [opens, closes, isCode, step] <;> omega
    · have hstep : m.step c = inString ↔ m = inString := by
        cases m <;> simp only [step] <;> repeat' split <;> simp_all
      simp_all [opens, closes]

end Mode

/-! The mode at the start of a piece -/

/-- The mode before a text fits it: no slash follows a slash, a comment ends
here, and nothing follows an open string. -/
def Ready : Mode → List Char → Prop
  | .code, _ => True
  | .slash, text => text.head? ≠ some '/'
  | .comment, text => Stops (· != '\n') text
  | .inString, text => text = []

/-- A text that is read as code stays code, and hits nothing, if it is made of
recognised characters other than quotes and slashes. -/
def Plain (text : List Char) : Prop :=
  ∀ c ∈ text, c ≠ '"' ∧ c ≠ '/' ∧ Text.isRecognised c = true

namespace Ready

variable {m : Mode} {c : Char} {cs rest text : List Char}

/-- A piece starts in code, but for the line feed after a comment. -/
theorem isCode (h : Ready m (c :: cs)) (hc : c ≠ '\n') : m.isCode = true := by
  cases m with
  | code => rfl
  | slash => rfl
  | comment =>
    have hno := Stops.cons_iff.mp (show Stops (· != '\n') (c :: cs) from h)
    simp [hc] at hno
  | inString => cases h

theorem ne_inString (h : Ready m (c :: cs)) : m ≠ .inString := by
  intro hm
  rw [hm] at h
  cases h

theorem eq_code_of_slash (h : Ready m ('/' :: cs)) : m = .code := by
  cases m with
  | code => rfl
  | slash => exact absurd rfl h
  | comment =>
    have hno := Stops.cons_iff.mp (show Stops (· != '\n') ('/' :: cs) from h)
    exact absurd hno (by decide)
  | inString => cases h

end Ready

namespace Plain

variable {m : Mode} {c : Char} {text : List Char}

theorem step (hc : c ≠ '"') (hs : c ≠ '/') (hm : m.isCode = true) : m.step c = .code := by
  cases m <;> simp_all [Mode.step, Mode.isCode]

theorem isCode_step {n : Mode} (h : Plain text) : ∀ c ∈ text, n.isCode = true →
    (n.step c).isCode = true := by
  intro c hc hn
  rw [step (h c hc).1 (h c hc).2.1 hn]
  rfl

theorem run (h : Plain (c :: text)) (hm : m.isCode = true) : m.run (c :: text) = .code := by
  have hc := h c List.mem_cons_self
  rw [Mode.run_cons, step hc.1 hc.2.1 hm]
  refine Mode.run_of_invariant (I := (· = .code)) rfl ?_
  intro n x hx hn
  have hx := h x (List.mem_cons_of_mem c hx)
  exact step hx.1 hx.2.1 (by rw [hn]; rfl)

theorem hits_eq_nil (h : Plain text) (hm : m.isCode = true) (p : Nat) :
    Mode.hits Mode.reports m p text = [] ∧ Mode.hits Mode.opens m p text = [] ∧
      Mode.hits Mode.closes m p text = [] := by
  refine ⟨?_, ?_, ?_⟩ <;>
    refine Mode.hits_of_invariant (I := (·.isCode = true)) hm (fun n x hx => h.isCode_step x hx) ?_
  · intro n x hx _
    simp [Mode.reports, (h x hx).2.2]
  · intro n x hx _
    simp [Mode.opens, (h x hx).1]
  · intro n x hx _
    simp [Mode.closes, (h x hx).1]

end Plain

/-! One piece -/

theorem Text.plain_of_isNameChar {c : Char} (h : isNameChar c = true) :
    c ≠ '"' ∧ c ≠ '/' ∧ isRecognised c = true := by
  refine ⟨ne_of_test h (by decide), ne_of_test h (by decide), ?_⟩
  rw [isNameChar, Bool.or_eq_true] at h
  rw [isRecognised_iff]
  rcases h with h | h <;> simp [h]

theorem Text.isNameChar_of_isDigit {c : Char} (h : c.isDigit = true) : isNameChar c = true := by
  simp [isNameChar, h]

theorem Text.isNameChar_of_isNameStart {c : Char} (h : isNameStart c = true) :
    isNameChar c = true := by
  simp [isNameChar, h]

namespace Plain

theorem of_isNameChar {c : Char} {cs : List Char} (hc : Text.isNameChar c = true)
    (hcs : ∀ d ∈ cs, Text.isNameChar d = true) : Plain (c :: cs) := by
  intro x hx
  rcases List.mem_cons.mp hx with rfl | hx
  · exact Text.plain_of_isNameChar hc
  · exact Text.plain_of_isNameChar (hcs x hx)

theorem append {a b : List Char} (ha : Plain a) (hb : Plain b) : Plain (a ++ b) := by
  intro x hx
  rcases List.mem_append.mp hx with hx | hx
  · exact ha x hx
  · exact hb x hx

theorem of_spelling {w : List Char} {op : Operator} (h : (w, op) ∈ Operator.spellings)
    (hw : w ≠ ['/']) : Plain w := by
  have hslash : ∀ e ∈ Operator.spellings, e.1 ≠ ['/'] → '/' ∉ e.1 := by decide
  intro c hc
  have hm := Operator.forall_mem_marks h c hc
  refine ⟨(Text.class_of_mem_marks hm).2.1, ?_, Text.isRecognised_iff.mpr (by simp [hm])⟩
  intro hs
  exact hslash _ h hw (hs ▸ hc)

end Plain

/-- What the automaton makes of one piece that starts at the offset `k`. -/
structure PieceHits (m : Mode) (k : Nat) (p : Piece) (rest : List Char) : Prop where
  ready : Ready (m.run p.text) rest
  reports : Mode.hits Mode.reports m k p.text =
    if p.shape = .unexpected then [(k, p.first)] else []
  opens : Mode.hits Mode.opens m k p.text =
    if p.shape = .string ∨ p.shape = .unterminated then [(k, '"')] else []
  closes : Mode.hits Mode.closes m k p.text =
    if p.shape = .string then [(k + p.rest.length, '"')] else []

namespace PieceHits

variable {m : Mode} {c : Char} {w rest body : List Char} {s : Shape}

theorem of_plain (hp : Plain (c :: w)) (hm : m.isCode = true)
    (hs : s ≠ .unexpected ∧ s ≠ .string ∧ s ≠ .unterminated) (k : Nat) :
    PieceHits m k ⟨s, c, w⟩ rest := by
  obtain ⟨hu, hs, ht⟩ := hs
  obtain ⟨hr, ho, hc⟩ := hp.hits_eq_nil hm k
  refine ⟨?_, ?_, ?_, ?_⟩
  · show Ready (m.run (c :: w)) rest
    rw [hp.run hm]
    trivial
  · simpa [hu, Piece.text] using hr
  · simpa [hs, ht, Piece.text] using ho
  · simpa [hs, Piece.text] using hc

theorem of_blank (hc : Text.isBlank c = true) (hr : Ready m (c :: rest)) (k : Nat) :
    PieceHits m k ⟨.blank, c, []⟩ rest := by
  have hne := hr.ne_inString
  have hrec : Text.isRecognised c = true := Text.isRecognised_iff.mpr (.inl hc)
  have hq : c ≠ '"' := Text.ne_of_test hc (by decide)
  have hs : c ≠ '/' := Text.ne_of_test hc (by decide)
  have hstep : m.step c = .code := by
    -- the blank that follows a comment is the line feed that ends it
    by_cases hcom : m = .comment
    · subst hcom
      have hno := Stops.cons_iff.mp (show Stops (· != '\n') (c :: rest) from hr)
      simp only [bne_eq_false_iff_eq] at hno
      simp [Mode.step, hno]
    · exact Plain.step hq hs (by cases m <;> simp_all [Mode.isCode])
  refine ⟨?_, ?_, ?_, ?_⟩
  · show Ready (m.step c) rest
    rw [hstep]
    trivial
  · simp [Piece.text, Mode.hits_cons, Mode.reports, hrec]
  · simp [Piece.text, Mode.hits_cons, Mode.opens, hq]
  · simp [Piece.text, Mode.hits_cons, Mode.closes, hq]

theorem of_body (hb : '"' ∉ body) (k : Nat) : Mode.run .inString body = .inString ∧
    Mode.hits Mode.reports .inString k body = [] ∧ Mode.hits Mode.opens .inString k body = [] ∧
      Mode.hits Mode.closes .inString k body = [] := by
  have hne : ∀ c ∈ body, c ≠ '"' := fun c hc he => hb (he ▸ hc)
  have hs : ∀ n, ∀ c ∈ body, n = Mode.inString → n.step c = Mode.inString := by
    intro n c hc hn
    rw [hn]
    exact if_neg (hne c hc)
  refine ⟨Mode.run_of_invariant (I := (· = .inString)) rfl hs, ?_, ?_, ?_⟩ <;>
    refine Mode.hits_of_invariant (I := (· = .inString)) rfl hs ?_
  · intro n c _ hn
    rw [hn]
    rfl
  · intro n c _ hn
    rw [hn]
    rfl
  · intro n c hc _
    simp [Mode.closes, hne c hc]

theorem opens_quote (hm : m.isCode = true) : m.step '"' = .inString ∧
    Mode.reports m '"' = false ∧ Mode.opens m '"' = true ∧ Mode.closes m '"' = false := by
  cases m with
  | code => decide
  | slash => decide
  | comment => cases hm
  | inString => cases hm

theorem of_string (hb : '"' ∉ body) (hm : m.isCode = true) (k : Nat) :
    PieceHits m k ⟨.string, '"', body ++ ['"']⟩ rest := by
  obtain ⟨hstep, hr, ho, hc⟩ := opens_quote hm
  obtain ⟨hrun, hbr, hbo, hbc⟩ := of_body hb (k + 1)
  refine ⟨?_, ?_, ?_, ?_⟩
  · show Ready (m.run ('"' :: (body ++ ['"']))) rest
    rw [Mode.run_cons, hstep, Mode.run_append, hrun]
    trivial
  · simp only [Piece.text, Mode.hits_cons, Mode.hits_append, hstep, hrun, hr, hbr]
    rfl
  · simp only [Piece.text, Mode.hits_cons, Mode.hits_append, hstep, hrun, ho, hbo]
    rfl
  · simp only [Piece.text, Mode.hits_cons, Mode.hits_append, hstep, hrun, hc, hbc,
      List.length_append, List.length_singleton, Nat.add_assoc, Nat.add_comm 1]
    rfl

theorem of_unterminated (hb : '"' ∉ body) (hm : m.isCode = true) (k : Nat) :
    PieceHits m k ⟨.unterminated, '"', body⟩ [] := by
  obtain ⟨hstep, hr, ho, hc⟩ := opens_quote hm
  obtain ⟨hrun, hbr, hbo, hbc⟩ := of_body hb (k + 1)
  refine ⟨?_, ?_, ?_, ?_⟩
  · show Ready (m.run ('"' :: body)) []
    rw [Mode.run_cons, hstep, hrun]
    rfl
  · simp only [Piece.text, Mode.hits_cons, hstep, hr, hbr]
    rfl
  · simp only [Piece.text, Mode.hits_cons, hstep, ho, hbo]
    rfl
  · simp only [Piece.text, Mode.hits_cons, hstep, hc, hbc]
    rfl

theorem step_comment (hb : '\n' ∉ body) :
    ∀ n, ∀ c ∈ body, n = Mode.comment → n.step c = Mode.comment := by
  intro n c hc hn
  rw [hn]
  apply if_neg
  rintro rfl
  exact hb hc

theorem run_comment (hb : '\n' ∉ body) : Mode.run .comment body = .comment :=
  Mode.run_of_invariant (I := (· = .comment)) rfl (step_comment hb)

theorem of_comment (hb : '\n' ∉ body) (hr : Stops (· != '\n') rest) (k : Nat) :
    PieceHits .code k ⟨.comment, '/', '/' :: body⟩ rest := by
  have hrun := run_comment hb
  have hnil : ∀ (test : Mode → Char → Bool) (i : Nat), (∀ c, test .comment c = false) →
      Mode.hits test .comment i body = [] := by
    intro test i ht
    refine Mode.hits_of_invariant (I := (· = .comment)) rfl (step_comment hb) ?_
    intro n c _ hn
    rw [hn]
    exact ht c
  refine ⟨?_, ?_, ?_, ?_⟩
  · show Ready (Mode.run .comment body) rest
    rw [hrun]
    exact hr
  · exact hnil Mode.reports (k + 1 + 1) (fun _ => rfl)
  · exact hnil Mode.opens (k + 1 + 1) (fun _ => rfl)
  · exact hnil Mode.closes (k + 1 + 1) (fun _ => rfl)

theorem of_unexpected (hc : Text.isRecognised c = false) (hm : m.isCode = true) (k : Nat) :
    PieceHits m k ⟨.unexpected, c, []⟩ rest := by
  have hq : c ≠ '"' := (Text.class_of_not_isRecognised hc).2.1
  have hs : c ≠ '/' := (Text.ne_of_test (q := Text.isRecognised) (by decide) hc).symm
  refine ⟨?_, ?_, ?_, ?_⟩
  · show Ready (m.step c) rest
    rw [Plain.step hq hs hm]
    trivial
  · simp [Piece.text, Mode.hits_cons, Mode.reports, hc, hm]
  · simp [Piece.text, Mode.hits_cons, Mode.opens, hq]
  · simp [Piece.text, Mode.hits_cons, Mode.closes, hq]

end PieceHits

theorem Cut.of_isBlank {p : Piece} {rest : List Char} (h : Cut p rest)
    (hb : Text.isBlank p.first = true) : p.shape = .blank ∧ p.rest = [] := by
  have hnext := Shape.next_of_cut h
  simp only [Shape.next, hb, if_true, Prod.mk.injEq] at hnext
  exact ⟨hnext.1.symm, List.eq_nil_of_length_eq_zero hnext.2.symm⟩

theorem Cut.first_ne_line {p : Piece} {rest : List Char} (h : Cut p rest)
    (hs : p.shape ≠ .blank) : p.first ≠ '\n' := by
  intro hline
  have hb : Text.isBlank p.first = true := by
    rw [hline]
    decide
  exact hs (h.of_isBlank hb).1

/-- Numbers, names and operators are made of letters, digits, underscores and marks. -/
theorem Cut.solid {p : Piece} {rest : List Char} (h : Cut p rest)
    (hs : p.shape = .number ∨ p.shape = .name ∨ ∃ op, p.shape = .operator op) :
    ∀ c ∈ p.text, Text.isNameChar c = true ∨ c ∈ Text.marks := by
  have hdigit := @Text.isNameChar_of_isDigit
  intro x hx
  cases h <;> simp only [reduceCtorEq, or_self, or_false, exists_false] at hs
  case whole hc hd _ _ =>
    rcases List.mem_cons.mp hx with rfl | hx
    · exact .inl (hdigit hc)
    · exact .inl (hdigit (hd x hx))
  case fraction hc hd hf hfs _ =>
    simp only [Piece.text, List.mem_cons, List.mem_append] at hx
    rcases hx with rfl | hx | rfl | rfl | hx
    · exact .inl (hdigit hc)
    · exact .inl (hdigit (hd x hx))
    · exact .inr (by decide)
    · exact .inl (hdigit hf)
    · exact .inl (hdigit (hfs x hx))
  case name hc hd _ =>
    rcases List.mem_cons.mp hx with rfl | hx
    · exact .inl (Text.isNameChar_of_isNameStart hc)
    · exact .inl (hd x hx)
  case operator hw _ => exact .inr (Operator.forall_mem_marks hw x hx)

theorem Cut.plain {p : Piece} {rest : List Char} (h : Cut p rest)
    (hs : p.shape = .number ∨ p.shape = .name ∨ ∃ op, p.shape = .operator op)
    (hslash : p.first ≠ '/') : Plain p.text := by
  cases h <;> simp only [reduceCtorEq, or_self, or_false, exists_false] at hs
  case whole hc hd _ _ =>
    exact .of_isNameChar (Text.isNameChar_of_isDigit hc)
      fun d hx => Text.isNameChar_of_isDigit (hd d hx)
  case fraction hc hd hf hfs _ =>
    -- digits, the point and digits are plain each
    have hpoint : Plain ['.'] := by
      intro x hx
      rw [List.mem_singleton.mp hx]
      decide
    have hfront := Plain.of_isNameChar (Text.isNameChar_of_isDigit hc)
      fun d hx => Text.isNameChar_of_isDigit (hd d hx)
    have hback := Plain.of_isNameChar (Text.isNameChar_of_isDigit hf)
      fun d hx => Text.isNameChar_of_isDigit (hfs d hx)
    exact hfront.append (hpoint.append hback)
  case name hc hd _ => exact .of_isNameChar (Text.isNameChar_of_isNameStart hc) hd
  case operator hw _ => exact .of_spelling hw (fun he => hslash (List.cons.inj he).1)

/-- **One piece.** At the start of a piece the mode fits, the automaton reports,
opens and closes what the shape says, and the mode fits again at its end. -/
theorem hits_piece {p : Piece} {rest : List Char} {m : Mode} (h : Cut p rest)
    (hr : Ready m (p.text ++ rest)) (k : Nat) : PieceHits m k p rest := by
  have hplain := h.plain
  have hcode : p.shape ≠ .blank → m.isCode = true := fun hs => hr.isCode (h.first_ne_line hs)
  cases h with
  | blank hc => exact .of_blank hc hr k
  | string hb => exact .of_string hb (hcode (by simp)) k
  | unterminated hb => exact .of_unterminated hb (hcode (by simp)) k
  | whole hc _ _ _ =>
    have hslash := Text.ne_of_test hc (x := '/') (by decide)
    exact .of_plain (hplain (by simp) hslash) (hcode (by simp)) (by simp) k
  | fraction hc _ _ _ _ =>
    have hslash := Text.ne_of_test hc (x := '/') (by decide)
    exact .of_plain (hplain (by simp) hslash) (hcode (by simp)) (by simp) k
  | name hc _ _ =>
    have hslash := Text.ne_of_test hc (x := '/') (by decide)
    exact .of_plain (hplain (by simp) hslash) (hcode (by simp)) (by simp) k
  | comment hb hs =>
    obtain rfl := hr.eq_code_of_slash
    exact .of_comment hb hs k
  | @operator c w rest op hw hs =>
    by_cases hslash : c = '/'
    · -- a slash alone, and no second one after it
      subst hslash
      obtain rfl := Operator.rest_eq_nil_of_slash hw
      obtain rfl := hr.eq_code_of_slash
      exact ⟨Operator.not_comment hw hs, rfl, rfl, rfl⟩
    · exact .of_plain (hplain (by simp) hslash) (hcode (by simp)) (by simp) k
  | unexpected hc => exact .of_unexpected hc (hcode (by simp)) k

end SeqScan
