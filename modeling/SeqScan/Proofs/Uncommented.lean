import SeqScan.Proofs.Erased

/-
  A text without its comments.

  A comment gives nothing, and what stands before it sees no more of it than that its own
  text ends there. The line feed that ends a comment, or the end of the text, says the same.
  So with its comments a text loses nothing but characters: its tokens stand where they
  stood, but for their offsets, and so do its diagnostics. Quotes and bad characters in a
  comment go with it. Two slashes in a string are no comment, and stay.

  Which characters belong to comments is said by the automaton of modes and not by the scan.

  What is proved:
    1. `slashes_of_inComment`: where the mode fits, a comment starts with two slashes in
       code.
    2. `harmless_comments`: every piece but a comment keeps all of its characters.
    3. `uncommented_scan`: the whole law, for every source and every table.
-/

namespace SeqScan

/-- Whether the first character of a text belongs to a comment, where the mode before it is
`m`. Two slashes in code start a comment, and the line feed that ends it is not part of it. -/
def Mode.inComment (m : Mode) (text : List Char) : Bool :=
  match m with
  | code => text.take 2 = ['/', '/']
  | slash => text.head? = some '/'
  | comment => text.head? ≠ some '\n'
  | inString => false

def Erasure.comments : Erasure where
  goes := Mode.inComment
  to_end m c cs h := by
    have hnext : ∀ n, n = .comment → Stops (· != '\n') cs ∨ Mode.inComment n cs = true := by
      rintro n rfl
      cases cs with
      | nil => simp
      | cons x xs => by_cases hx : x = '\n' <;> simp [Mode.inComment, hx]
    cases m with
    | code =>
      obtain ⟨rfl, hcs⟩ : c = '/' ∧ cs.take 1 = ['/'] := by
        simpa [Mode.inComment] using h
      refine ⟨by decide, .inr ?_⟩
      cases cs with
      | nil => simp at hcs
      | cons d cs => simpa [Mode.step, Mode.inComment] using hcs
    | slash =>
      obtain rfl : c = '/' := by simpa [Mode.inComment] using h
      exact ⟨by decide, hnext _ rfl⟩
    | comment =>
      have hc : c ≠ '\n' := by simpa [Mode.inComment] using h
      exact ⟨hc, hnext _ (if_neg hc)⟩
    | inString => cases h

/-- A scan of a source without its comments. -/
structure Uncommented (table : ReservedWords) (source : String) : Prop where
  /-- The tokens before the end are the same but for their offsets, and those are less by the
  number of characters that have gone before. -/
  words : (Scan.ofSource table (Erasure.comments.apply source)).words =
    (Scan.ofSource table source).words.map fun t =>
      { t with span := Erasure.comments.span source.toList t.span }
  diagnostics : (Scan.ofSource table (Erasure.comments.apply source)).diagnostics =
    (Scan.ofSource table source).diagnostics
  /-- The token for the end of the text stands on the same line. -/
  end_line : (Scan.ofSource table (Erasure.comments.apply source)).tokens.getLast?.map
      (·.span.line) =
    (Scan.ofSource table source).tokens.getLast?.map (·.span.line)

/-! Characters that stay -/

namespace Erasure

variable {m : Mode} {body w rest : List Char}

theorem kept_inString (hb : '"' ∉ body) (rest : List Char) :
    comments.kept .inString body rest = body := by
  induction body with
  | nil => rfl
  | cons c body ih =>
    simp only [List.mem_cons, not_or] at hb
    have hstep : Mode.step .inString c = .inString := if_neg (Ne.symm hb.1)
    rw [kept_cons_of_stays rfl, hstep, ih hb.2]

theorem kept_plain (hw : ∀ c ∈ w, c ≠ '"' ∧ c ≠ '/') (hm : m.isCode = true)
    (rest : List Char) : comments.kept m w rest = w := by
  induction w generalizing m with
  | nil => rfl
  | cons c w ih =>
    obtain ⟨⟨hq, hs⟩, hw⟩ := List.forall_mem_cons.mp hw
    have hstays : comments.goes m (c :: (w ++ rest)) = false := by
      cases m <;> simp_all [comments, Mode.inComment, Mode.isCode]
    rw [kept_cons_of_stays hstays, Plain.step hq hs hm, ih hw rfl]

theorem kept_comment (hb : '\n' ∉ body) (rest : List Char) :
    comments.kept .comment body rest = [] := by
  induction body with
  | nil => rfl
  | cons c body ih =>
    simp only [List.mem_cons, not_or] at hb
    have hc : c ≠ '\n' := Ne.symm hb.1
    have hgoes : comments.goes .comment (c :: (body ++ rest)) = true := by
      simp [comments, Mode.inComment, hc]
    have hstep : Mode.step .comment c = .comment := if_neg hc
    rw [kept_cons_of_goes hgoes, hstep, ih hb.2]

end Erasure

/-! One piece -/

/-- Where the mode fits, only code has comments, and they start with two slashes. -/
theorem slashes_of_inComment {m : Mode} {c : Char} {cs : List Char} (hr : Ready m (c :: cs))
    (h : m.inComment (c :: cs) = true) : m = .code ∧ c = '/' ∧ cs.head? = some '/' := by
  cases m with
  | code =>
    cases cs with
    | nil => simp [Mode.inComment] at h
    | cons d cs => simpa [Mode.inComment] using h
  | slash =>
    have hc : c = '/' := by simpa [Mode.inComment] using h
    exact absurd (congrArg some hc) hr
  | comment =>
    have hline : c = '\n' := by simpa using Stops.cons_iff.mp hr
    simp [Mode.inComment, hline] at h
  | inString => cases h

theorem Cut.shape_of_slashes {p : Piece} {rest : List Char} (h : Cut p rest)
    (hc : p.first = '/') (hcs : (p.rest ++ rest).head? = some '/') : p.shape = .comment := by
  have hnext := Shape.next_of_cut h
  obtain ⟨hblank, hquote, hdigit, hname⟩ := Text.class_of_mem_marks (c := '/') (by decide)
  rw [hc] at hnext
  simp only [Shape.next, hblank, hquote, hdigit, hname, hcs, and_self, if_true, if_false,
    Bool.false_eq_true, Prod.mk.injEq] at hnext
  exact hnext.1.symm

namespace Erasure

variable {m : Mode} {p : Piece} {rest : List Char}

/-- Of a piece other than a comment all characters stay after the first one. -/
theorem kept_rest (hcut : Cut p rest) (hr : Ready m (p.text ++ rest))
    (hs : p.shape ≠ .comment) : comments.kept (m.step p.first) p.rest rest = p.rest := by
  have hplain := hcut.plain
  have hcode : p.shape ≠ .blank → m.isCode = true := fun hs => hr.isCode (hcut.first_ne_line hs)
  -- a plain piece is read as code to its end
  have hkeep : Plain p.text → m.isCode = true →
      comments.kept (m.step p.first) p.rest rest = p.rest := by
    intro hp hm
    obtain ⟨hfirst, hrest⟩ := List.forall_mem_cons.mp hp
    rw [Plain.step hfirst.1 hfirst.2.1 hm]
    exact kept_plain (fun c hc => ⟨(hrest c hc).1, (hrest c hc).2.1⟩) rfl rest
  cases hcut with
  | blank _ => rfl
  | @string body rest hb =>
    have hstep := (PieceHits.opens_quote (hcode (by simp))).1
    show comments.kept (m.step '"') (body ++ ['"']) rest = _
    rw [hstep, kept_append, kept_inString hb, (PieceHits.of_body hb 0).1]
    rfl
  | @unterminated body hb =>
    have hstep := (PieceHits.opens_quote (hcode (by simp))).1
    show comments.kept (m.step '"') body [] = _
    rw [hstep, kept_inString hb]
  | whole hc _ _ _ =>
    exact hkeep (hplain (by simp) (Text.ne_of_test hc (by decide))) (hcode (by simp))
  | fraction hc _ _ _ _ =>
    exact hkeep (hplain (by simp) (Text.ne_of_test hc (by decide))) (hcode (by simp))
  | name hc _ _ =>
    exact hkeep (hplain (by simp) (Text.ne_of_test hc (by decide))) (hcode (by simp))
  | comment _ _ => exact absurd rfl hs
  | @operator c w rest op hw _ =>
    by_cases hslash : c = '/'
    · subst hslash
      obtain rfl := Operator.rest_eq_nil_of_slash hw
      rfl
    · exact hkeep (hplain (by simp) hslash) (hcode (by simp))
  | unexpected _ => rfl

theorem kept_text_comment (hcut : Cut p rest) (hs : p.shape = .comment) :
    comments.goes .code (p.text ++ rest) = true ∧ comments.kept .code p.text rest = [] := by
  cases hcut <;> simp only [reduceCtorEq] at hs
  case comment body hb _ =>
    refine ⟨rfl, ?_⟩
    show comments.kept .code ('/' :: '/' :: body) rest = []
    rw [kept_cons_of_goes rfl, kept_cons_of_goes rfl]
    exact kept_comment hb rest

theorem goes_comments_iff (hcut : Cut p rest) (hr : Ready m (p.text ++ rest)) :
    comments.goes m (p.text ++ rest) = true ↔ p.shape = .comment := by
  constructor
  · intro hgoes
    obtain ⟨_, hfirst, hhead⟩ := slashes_of_inComment hr hgoes
    exact hcut.shape_of_slashes hfirst hhead
  · intro hs
    have hm : m = .code := by
      cases hcut <;> simp only [reduceCtorEq] at hs
      case comment => exact hr.eq_code_of_slash
    rw [hm]
    exact (kept_text_comment hcut hs).1

/-- A piece of which the first character stays is no comment and stays as it is. -/
theorem piece_of_stays (hcut : Cut p rest) (hr : Ready m (p.text ++ rest))
    (hstays : comments.goes m (p.text ++ rest) = false) :
    p.shape ≠ .comment ∧ comments.piece m p rest = p := by
  have hs : p.shape ≠ .comment := by
    rw [Ne, ← goes_comments_iff hcut hr, hstays]
    exact Bool.false_ne_true
  exact ⟨hs, by rw [piece, kept_rest hcut hr hs]⟩

/-- **Comments give nothing**, and no other piece loses a character with them. -/
theorem harmless_comments : comments.Harmless id where
  goes {m p rest} hcut hr hgoes := by
    obtain ⟨rfl, _⟩ := slashes_of_inComment hr hgoes
    have hs := (goes_comments_iff hcut hr).mp hgoes
    exact ⟨.inr hs, (kept_text_comment hcut hs).2⟩
  stays {m p rest} hcut hr hstays := by
    rw [(piece_of_stays hcut hr hstays).2]
    exact ⟨hcut, .unchanged p⟩

end Erasure

/-- **Comments are as good as nothing**: without them the tokens and the diagnostics of a
source are what they were, for every source and every table of reserved words. -/
theorem uncommented_scan (table : ReservedWords) (source : String) :
    Uncommented table source where
  words := by
    have h := Erasure.harmless_comments.words_erase table source.toList
    rw [Scan.ofSource, Erasure.apply, String.toList_ofList, h]
    apply List.map_congr_left
    intro t _
    cases hl : t.literal with
    | none => simp [Erasure.token, Token.onText, hl]
    | some value => cases value <;> simp [Erasure.token, Token.onText, Literal.onText, hl]
  diagnostics := by
    rw [Scan.ofSource, Erasure.apply, String.toList_ofList]
    exact Erasure.harmless_comments.diagnostics_erase table source.toList
  end_line := by
    have hline := Erasure.comments.line_kept source.toList []
    rw [Scan.ofSource, Scan.ofSource, Erasure.apply, String.toList_ofList, Scan.getLast?_tokens,
      Scan.getLast?_tokens, Erasure.erase_eq]
    simp [Token.eof, hline]

/-- The slashes of a string stay, and so does a slash before a comment that is not its own. -/
example : Erasure.comments.apply "x // \"#\n\"//\" / / 1.// y" = "x \n\"//\" / / 1." := by
  decide +kernel

end SeqScan
