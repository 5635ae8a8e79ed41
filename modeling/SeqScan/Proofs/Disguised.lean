import SeqScan.Proofs.CursorScan
import SeqScan.Proofs.Paired

/-
  A scan sees no difference between the characters that it does not recognise.

  A cursor that looks beyond the end of a text sees a NUL, and a text may hold NULs of its
  own. To take one for the other would be to tell a NUL from the other characters that are
  not recognised. So let these be changed for one another, and recognised ones stay: a walk
  through the changed text then takes the same steps. Wherever it tests what it sees, it
  asks for a recognised character, or it asks for the end as well. The characters themselves
  are read out of the text only into lexemes, strings and complaints, and by themselves in
  numbers and in names, where all of them are recognised.

  What is proved:
    1. `Disguise.peek`: the tests of a walk give the same in both texts, at the end and
       before it.
    2. `Walk.step_disguised`: what a walk does next, it does in both texts.
    3. `Walk.after_disguised`: so do two walks, step by step, with all that they have given
       so far.
    4. `disguised_scan`: the whole law, for every disguise, every source and every table.
-/

namespace SeqScan

/-! Disguises -/

/-- A change of characters that a scan cannot see: those that it recognises stay as they are,
and the others stay unrecognised. -/
structure Disguise where
  toFun : Char → Char
  recognised : ∀ c, Text.isRecognised c = true → toFun c = c
  unrecognised : ∀ c, Text.isRecognised c = false → Text.isRecognised (toFun c) = false

instance : CoeFun Disguise fun _ => Char → Char := ⟨Disguise.toFun⟩

def Fault.onChar (f : Char → Char) : Fault → Fault
  | unexpectedCharacter c => unexpectedCharacter (f c)
  | unterminatedString => unterminatedString

def Diagnostic.onChar (f : Char → Char) (d : Diagnostic) : Diagnostic :=
  { d with fault := d.fault.onChar f }

def Event.onChar (f : Char → Char) : Event → Event
  | token t => token (t.onText (String.map f))
  | diagnostic d => diagnostic (d.onChar f)
  | e => e

/-- A cursor in the changed text, in the same place. -/
def Cursor.disguised (f : Disguise) (k : Cursor) : Cursor :=
  { k with
    tokens := k.tokens.map (Token.onText (String.map f))
    diagnostics := k.diagnostics.map (Diagnostic.onChar f)
    events := k.events.map (Event.onChar f) }

/-- A walk through the changed text, about to do the same. -/
def Walk.disguised (f : Disguise) (s : Walk) : Walk := { s with cursor := s.cursor.disguised f }

/-- The scan of a source with its unrecognised characters changed. -/
structure Disguised (f : Disguise) (table : ReservedWords) (source : String) : Prop where
  /-- A walk through the changed text takes the same steps, and is trapped only where the
  other one is. -/
  walk : ∀ n, Walk.after table (source.map f).toList n =
    (Walk.after table source.toList n).map (Walk.disguised f)
  tokens : (Scan.ofSource table (source.map f)).tokens =
    (Scan.ofSource table source).tokens.map (Token.onText (String.map f))
  diagnostics : (Scan.ofSource table (source.map f)).diagnostics =
    (Scan.ofSource table source).diagnostics.map (Diagnostic.onChar f)

/-- To put one unrecognised character for another, and that one for the first, is a
disguise. -/
def Disguise.swap (x y : Char) (hx : Text.isRecognised x = false)
    (hy : Text.isRecognised y = false) : Disguise where
  toFun c := if c = x then y else if c = y then x else c
  recognised c hc := by
    rw [if_neg (Text.ne_of_test hc hx), if_neg (Text.ne_of_test hc hy)]
  unrecognised c hc := by
    split
    · exact hy
    split
    · exact hx
    · exact hc

/-! Looking -/

namespace Disguise

variable (f : Disguise) {q : Char → Bool} (hq : ∀ {c}, q c = true → Text.isRecognised c = true)

include hq

theorem test (c : Char) : q (f c) = q c := by
  cases hc : Text.isRecognised c with
  | true => rw [f.recognised c hc]
  | false =>
    have hno : ∀ d, Text.isRecognised d = false → q d = false := by
      intro d hd
      rw [← Bool.not_eq_true]
      intro hpass
      rw [hq hpass] at hd
      cases hd
    rw [hno c hc, hno (f c) (f.unrecognised c hc)]

/-- What stands in the text is tested, or a NUL where nothing stands: the test gives the same
whether or not a NUL is changed. -/
theorem test_getD (o : Option Char) :
    q ((o.map f).getD Cursor.sentinel) = q (o.getD Cursor.sentinel) := by
  cases o with
  | none => rfl
  | some c => exact f.test hq c

theorem peek (text : List Char) (k : Cursor) :
    q ((k.disguised f).peek (text.map f)) = q (k.peek text) := by
  rw [Cursor.peek, Cursor.peek, List.getElem?_map]
  exact f.test_getD hq _

theorem peekNext (text : List Char) (k : Cursor) :
    q ((k.disguised f).peekNext (text.map f)) = q (k.peekNext text) := by
  rw [Cursor.peekNext, Cursor.peekNext, List.getElem?_map]
  exact f.test_getD hq _

omit hq

theorem beq_recognised {x : Char} (hx : Text.isRecognised x = true) :
    ∀ {c}, (c == x) = true → Text.isRecognised c = true := by
  intro c hc
  rwa [beq_iff_eq.mp hc]

theorem eq_iff_of_beq {a b x : Char} (h : (a == x) = (b == x)) : a = x ↔ b = x := by
  rwa [Bool.eq_iff_iff, beq_iff_eq, beq_iff_eq] at h

variable {x : Char} (hx : Text.isRecognised x = true)

include hx

theorem eq_iff (c : Char) : f c = x ↔ c = x :=
  eq_iff_of_beq (f.test (beq_recognised hx) c)

theorem peek_eq_iff (text : List Char) (k : Cursor) :
    (k.disguised f).peek (text.map f) = x ↔ k.peek text = x :=
  eq_iff_of_beq (f.peek (beq_recognised hx) text k)

theorem peekNext_eq_iff (text : List Char) (k : Cursor) :
    (k.disguised f).peekNext (text.map f) = x ↔ k.peekNext text = x :=
  eq_iff_of_beq (f.peekNext (beq_recognised hx) text k)

omit hx

theorem atEnd (text : List Char) (k : Cursor) :
    (k.disguised f).atEnd (text.map f) = k.atEnd text := by
  rw [Cursor.atEnd, Cursor.atEnd, List.length_map]
  rfl

theorem colonKind (text : List Char) (k : Cursor) :
    SeqScan.colonKind ((k.disguised f).peek (text.map f)) ((k.disguised f).peekNext (text.map f)) =
      SeqScan.colonKind (k.peek text) (k.peekNext text) := by
  have hcolon := @Disguise.peek_eq_iff f ':' (by decide) text k
  have hequals := @Disguise.peekNext_eq_iff f '=' (by decide) text k
  by_cases hc : k.peek text = ':'
  · rw [hcolon.mpr hc, hc]
    by_cases he : k.peekNext text = '='
    · rw [hequals.mpr he, he]
    · rw [Leads.colonKind_colon he, Leads.colonKind_colon (mt hequals.mp he)]
  · rw [Leads.colonKind_of_ne hc, Leads.colonKind_of_ne (mt hcolon.mp hc)]

end Disguise

/-! Twins -/

/-- Two outcomes are the same trap, or their values go together. -/
inductive Twins {α : Type} (R : α → α → Prop) : Except Trap α → Except Trap α → Prop
  | trap (t : Trap) : Twins R (.error t) (.error t)
  | ok {a a' : α} : R a a' → Twins R (.ok a) (.ok a')

namespace Twins

variable {α β : Type} {R : α → α → Prop} {S : β → β → Prop} {r r' : Except Trap α}
  {g g' : α → Except Trap β}

theorem bind (h : Twins R r r') (hg : ∀ a a', R a a' → Twins S (g a) (g' a')) :
    Twins S (r >>= g) (r' >>= g') := by
  cases h with
  | trap t => exact .trap t
  | ok h => exact hg _ _ h

theorem ite {p p' : Prop} [Decidable p] [Decidable p'] {a b a' b' : Except Trap α} (hp : p' ↔ p)
    (ha : p → Twins R a a') (hb : ¬ p → Twins R b b') :
    Twins R (if p then a else b) (if p' then a' else b') := by
  by_cases h : p
  · rw [if_pos h, if_pos (hp.mpr h)]
    exact ha h
  · rw [if_neg h, if_neg (mt hp.mp h)]
    exact hb h

theorem eq_map {f : α → α} (h : Twins R r r') (hR : ∀ a a', R a a' → a' = f a) :
    r' = r.map f := by
  cases h with
  | trap t => rfl
  | ok h =>
    rw [hR _ _ h]
    rfl

end Twins

/-- What has been taken of the piece is recognised. -/
def Cursor.Knows (text : List Char) (k : Cursor) : Prop :=
  ∀ i c, k.start.offset ≤ i → i < k.here.offset → text[i]? = some c → Text.isRecognised c = true

/-- The invariant: numbers and names, which are read by themselves, are recognised. -/
def Walk.Knows (text : List Char) (s : Walk) : Prop :=
  match s.control with
  | .first | .digits | .fraction | .name _ => s.cursor.Knows text
  | .next | .colon .. | .comment | .string | .done => True

/-- A walk in the text and one in the changed text do the same, and the first keeps the
invariant. -/
def InStep (f : Disguise) (text : List Char) : Except Trap Walk → Except Trap Walk → Prop :=
  Twins fun s s' => s' = s.disguised f ∧ s.Knows text

/-! Moving and giving tokens -/

section

variable (f : Disguise) (text : List Char) (k : Cursor)

theorem Cursor.advance_disguised :
    Twins (fun x x' => x' = (f x.1, x.2.disguised f) ∧ x.2 = k.onward ∧
      text[k.here.offset]? = some x.1)
      (k.advance text) ((k.disguised f).advance (text.map f)) := by
  have hmap : (text.map f)[(k.disguised f).here.offset]? = text[k.here.offset]?.map f :=
    List.getElem?_map
  rw [Cursor.advance, Cursor.advance, hmap]
  cases text[k.here.offset]? with
  | none => exact .trap .noCharacter
  | some c => exact .ok ⟨rfl, rfl, rfl⟩

theorem stretch_disguised (i j : Nat) :
    Twins (fun w w' => w' = w.map f ∧ w = (text.take j).drop i)
      (stretch text i j) (stretch (text.map f) i j) := by
  unfold stretch
  apply Twins.ite (by rw [List.length_map])
  · exact fun _ => .ok ⟨by rw [List.map_drop, List.map_take], rfl⟩
  · exact fun _ => .trap .badStretch

variable {f text k}

theorem Cursor.Knows.onward {c : Char} (hk : k.Knows text) (hc : text[k.here.offset]? = some c)
    (hrec : Text.isRecognised c = true) : k.onward.Knows text := by
  intro i d hi hlt hd
  rcases Nat.lt_succ_iff_lt_or_eq.mp hlt with hlt | rfl
  · exact hk i d hi hlt hd
  · rw [hc] at hd
    exact Option.some.inj hd ▸ hrec

theorem Cursor.Knows.map_taken (f : Disguise) (hk : k.Knows text) :
    ((text.take k.here.offset).drop k.start.offset).map f =
      (text.take k.here.offset).drop k.start.offset := by
  have hsame : ∀ c ∈ (text.take k.here.offset).drop k.start.offset, f c = c := by
    intro c hc
    obtain ⟨n, hn⟩ := List.mem_iff_getElem?.mp hc
    rw [List.getElem?_drop, List.getElem?_take, Option.ite_none_right_eq_some] at hn
    exact f.recognised c (hk _ c (Nat.le_add_right _ n) hn.1 hn.2)
  rw [List.map_congr_left hsame, List.map_id']

end

theorem Text.isRecognised_of_isNameChar {c : Char} (h : isNameChar c = true) :
    isRecognised c = true :=
  (plain_of_isNameChar h).2.2

theorem Text.isRecognised_of_isDigit {c : Char} (h : c.isDigit = true) : isRecognised c = true :=
  isRecognised_iff.mpr (by simp [h])

theorem Text.map_ofList (f : Char → Char) (w : List Char) :
    (String.ofList w).map f = String.ofList (w.map f) :=
  String.toList_inj.mp (by simp)

namespace InStep

variable (f : Disguise) (text : List Char) (k : Cursor)

theorem turn (control : Control)
    (h : ∀ c, text[k.here.offset]? = some c → Walk.Knows text ⟨control, k.onward⟩) :
    InStep f text (k.advance text >>= fun x => .ok ⟨control, x.2⟩)
      ((k.disguised f).advance (text.map f) >>= fun x => .ok ⟨control, x.2⟩) := by
  apply (Cursor.advance_disguised f text k).bind
  rintro ⟨c, _⟩ _ ⟨rfl, rfl, hc⟩
  exact .ok ⟨rfl, h c hc⟩

theorem add (kind : TokenKind) (literal : Option Literal) :
    InStep f text (k.add text kind literal) ((k.disguised f).add (text.map f) kind
      (literal.map (Literal.onText (String.map f)))) := by
  apply (stretch_disguised f text k.start.offset k.here.offset).bind
  rintro w _ ⟨rfl, _⟩
  refine .ok ⟨?_, trivial⟩
  simp [Walk.disguised, Cursor.disguised, Event.onChar, Token.onText, Text.map_ofList]

theorem report (fault : Fault) :
    InStep f text (.ok (k.report fault)) (.ok ((k.disguised f).report (fault.onChar f))) := by
  refine .ok ⟨?_, trivial⟩
  simp [Walk.disguised, Cursor.disguised, Cursor.report, Event.onChar, Diagnostic.onChar]

theorem matchChar {x : Char} (hx : Text.isRecognised x = true) :
    Twins (fun a a' => a' = (a.1, a.2.disguised f))
      (k.matchChar text x) ((k.disguised f).matchChar (text.map f) x) := by
  have hend := f.atEnd text k
  have hpeek := f.peek_eq_iff hx text k
  apply Twins.ite (by simp [hend, hpeek])
  · exact fun _ => .ok rfl
  · intro _
    apply (Cursor.advance_disguised f text k).bind
    rintro ⟨c, _⟩ _ ⟨rfl, rfl, _⟩
    exact .ok rfl

theorem addWith {second : Char} (hsecond : Text.isRecognised second = true)
    (double single : Operator) :
    InStep f text (k.addWith text second double single)
      ((k.disguised f).addWith (text.map f) second double single) := by
  apply (matchChar f text k hsecond).bind
  rintro ⟨found, k'⟩ _ rfl
  exact add f text k' _ none

/-! One step within a piece -/

theorem mark {c : Char} (hc : c ∈ Text.marks) :
    InStep f text (k.dispatch text c) ((k.disguised f).dispatch (text.map f) c) := by
  have hadd := fun op => add f text k (.operator op) none
  have hdot := @addWith f text k '.' (by decide)
  have hequals := @addWith f text k '=' (by decide)
  simp only [Text.marks, List.mem_cons, List.not_mem_nil, or_false] at hc
  rcases hc with rfl | rfl | rfl | rfl | rfl | rfl | rfl | rfl | rfl | rfl | rfl | rfl | rfl |
    rfl | rfl | rfl | rfl
  · exact hadd .leftParen
  · exact hadd .rightParen
  · exact hadd .leftBrace
  · exact hadd .rightBrace
  · exact hadd .comma
  · exact hadd .minus
  · exact hadd .plus
  · exact hadd .semicolon
  · exact hadd .star
  · exact hadd .verticalLine
  · exact hdot .rangeSeparator .dot
  · -- what a colon becomes is decided by two characters at once
    refine .ok ⟨?_, trivial⟩
    show Walk.mk (.colon (colonKind _ _).1 (colonKind _ _).2) _ = _
    rw [f.colonKind text k]
    rfl
  · exact hequals .bangEqual .bang
  · exact hequals .equalEqual .equal
  · exact hequals .lessEqual .less
  · exact hequals .greaterEqual .greater
  · apply (@matchChar f text k '/' (by decide)).bind
    rintro ⟨found, k'⟩ _ rfl
    cases found with
    | true => exact .ok ⟨rfl, trivial⟩
    | false => exact add f text k' _ none

theorem dispatch {c : Char} (hk : Text.isRecognised c = true → k.Knows text) :
    InStep f text (k.dispatch text c) ((k.disguised f).dispatch (text.map f) (f c)) := by
  cases hc : Text.isRecognised c with
  | false =>
    rw [Cursor.dispatch_of_not_isRecognised hc,
      Cursor.dispatch_of_not_isRecognised (f.unrecognised c hc)]
    exact report f text k (.unexpectedCharacter c)
  | true =>
    rw [f.recognised c hc]
    rcases Text.isRecognised_iff.mp hc with hblank | rfl | hdigit | hname | hmark
    · simp only [Text.isBlank, Bool.or_eq_true, decide_eq_true_eq] at hblank
      rcases hblank with ((rfl | rfl) | rfl) | rfl <;> exact .ok ⟨rfl, trivial⟩
    · exact .ok ⟨rfl, trivial⟩
    · rw [Cursor.dispatch_of_isDigit hdigit, Cursor.dispatch_of_isDigit hdigit]
      exact .ok ⟨rfl, hk hc⟩
    · rw [Cursor.dispatch_of_isNameStart hname, Cursor.dispatch_of_isNameStart hname]
      exact .ok ⟨rfl, hk hc⟩
    · exact mark f text k hmark

theorem stepColon (op : Operator) (more : Nat) :
    InStep f text (k.stepColon text op more) ((k.disguised f).stepColon (text.map f) op more) := by
  cases more with
  | zero => exact add f text k _ none
  | succ more => exact turn f text k _ fun _ _ => trivial

/-- A comment asks for the end as well. -/
theorem stepComment :
    InStep f text (k.stepComment text) ((k.disguised f).stepComment (text.map f)) := by
  have hend := f.atEnd text k
  have hline := @Disguise.peek_eq_iff f '\n' (by decide) text k
  apply Twins.ite (by simp [hend, hline])
  · exact fun _ => turn f text k _ fun _ _ => trivial
  · exact fun _ => .ok ⟨rfl, trivial⟩

/-- So does a string, and what stands between its quotes is changed like the text. -/
theorem stepString :
    InStep f text (k.stepString text) ((k.disguised f).stepString (text.map f)) := by
  have hend := f.atEnd text k
  have hquote := @Disguise.peek_eq_iff f '"' (by decide) text k
  apply Twins.ite (by simp [hend, hquote])
  · intro _
    apply (Cursor.advance_disguised f text k).bind
    rintro ⟨c, _⟩ _ ⟨rfl, rfl, _⟩
    have hline := f.eq_iff (x := '\n') (by decide) c
    refine .ok ⟨?_, trivial⟩
    by_cases hc : c = '\n'
    · rw [if_pos hc, if_pos (hline.mpr hc)]
      rfl
    · rw [if_neg hc, if_neg (mt hline.mp hc)]
      rfl
  intro _
  apply Twins.ite (by rw [hend])
  · exact fun _ => report f text k .unterminatedString
  · intro _
    apply (Cursor.advance_disguised f text k).bind
    rintro ⟨c, _⟩ _ ⟨rfl, rfl, _⟩
    show InStep f text
      (stretch text (k.start.offset + 1) k.here.offset >>= fun value =>
        k.onward.add text .string (some (.string (String.ofList value))))
      (stretch (text.map f) (k.start.offset + 1) k.here.offset >>= fun value =>
        (k.onward.disguised f).add (text.map f) .string (some (.string (String.ofList value))))
    apply (stretch_disguised f text (k.start.offset + 1) k.here.offset).bind
    rintro value _ ⟨rfl, _⟩
    rw [← Text.map_ofList]
    exact add f text k.onward _ (some (.string _))

theorem addNumber (hk : k.Knows text) :
    InStep f text (k.addNumber text) ((k.disguised f).addNumber (text.map f)) := by
  apply (stretch_disguised f text k.start.offset k.here.offset).bind
  rintro w _ ⟨rfl, rfl⟩
  rw [hk.map_taken f]
  exact add f text k _ (some (.number _))

theorem turn_of_peek (control : Control)
    (hcontrol : Walk.Knows text ⟨control, k.onward⟩ = k.onward.Knows text) (hk : k.Knows text)
    (hpeek : Text.isRecognised (k.peek text) = true) :
    InStep f text (k.advance text >>= fun x => .ok ⟨control, x.2⟩)
      ((k.disguised f).advance (text.map f) >>= fun x => .ok ⟨control, x.2⟩) := by
  apply turn
  intro c hc
  rw [Cursor.peek, hc] at hpeek
  rw [hcontrol]
  exact hk.onward hc hpeek

theorem stepDigits (hk : k.Knows text) :
    InStep f text (k.stepDigits text) ((k.disguised f).stepDigits (text.map f)) := by
  have hpeek := f.peek Text.isRecognised_of_isDigit text k
  have hnext := f.peekNext Text.isRecognised_of_isDigit text k
  have hpoint := @Disguise.peek_eq_iff f '.' (by decide) text k
  apply Twins.ite (by rw [hpeek])
  · intro h
    exact turn_of_peek f text k _ rfl hk (Text.isRecognised_of_isDigit h)
  intro _
  apply Twins.ite (by rw [hpoint, hnext])
  · intro h
    refine turn_of_peek f text k _ rfl hk ?_
    rw [h.1]
    decide
  · exact fun _ => addNumber f text k hk

theorem stepFraction (hk : k.Knows text) :
    InStep f text (k.stepFraction text) ((k.disguised f).stepFraction (text.map f)) := by
  have hpeek := f.peek Text.isRecognised_of_isDigit text k
  apply Twins.ite (by rw [hpeek])
  · exact fun h => turn_of_peek f text k _ rfl hk (Text.isRecognised_of_isDigit h)
  · exact fun _ => addNumber f text k hk

theorem stepName (table : ReservedWords) (c : Char) (hk : k.Knows text) :
    InStep f text (k.stepName table text c) ((k.disguised f).stepName table (text.map f) c) := by
  have hpeek := f.peek Text.isRecognised_of_isNameChar text k
  apply Twins.ite (by rw [hpeek])
  · exact fun h => turn_of_peek f text k _ rfl hk (Text.isRecognised_of_isNameChar h)
  · intro _
    apply (stretch_disguised f text k.start.offset k.here.offset).bind
    rintro w _ ⟨rfl, rfl⟩
    have htold : ∀ cls : NameClass, (k.disguised f).tell cls = (k.tell cls).disguised f := by
      intro cls
      cases cls <;> simp [Cursor.disguised, Cursor.tell, NameClass.event?, Event.onChar]
    rw [hk.map_taken f]
    dsimp only
    rw [htold]
    exact add f text (k.tell _) _ none

end InStep

/-! A whole walk -/

namespace Walk

variable (f : Disguise) (table : ReservedWords) (text : List Char)

/-- **One step.** What a walk does next, it does in both texts, and what it has taken of a
number or a name stays recognised. -/
theorem step_disguised {s : Walk} (hs : s.Knows text) :
    InStep f text (s.step table text) ((s.disguised f).step table (text.map f)) := by
  obtain ⟨control, k⟩ := s
  cases control with
  | next =>
    apply Twins.ite (Bool.eq_iff_iff.mp (f.atEnd text k))
    · refine fun _ => .ok ⟨?_, trivial⟩
      simp [disguised, Cursor.disguised, Cursor.finish, Event.onChar, Token.eof, Token.onText]
    · intro _
      refine .ok ⟨rfl, ?_⟩
      -- nothing has been taken of a piece that begins here
      intro i c hi hlt
      exact absurd hlt (Nat.not_lt_of_le hi)
  | first =>
    apply (Cursor.advance_disguised f text k).bind
    rintro ⟨c, _⟩ _ ⟨rfl, rfl, hc⟩
    exact InStep.dispatch f text k.onward (Cursor.Knows.onward hs hc)
  | colon op more => exact InStep.stepColon f text k op more
  | comment => exact InStep.stepComment f text k
  | string => exact InStep.stepString f text k
  | digits => exact InStep.stepDigits f text k hs
  | fraction => exact InStep.stepFraction f text k hs
  | name c => exact InStep.stepName f text k table c hs
  | done => exact .ok ⟨rfl, trivial⟩

/-- **Two walks stay in step**, after any number of steps. -/
theorem after_disguised (n : Nat) :
    InStep f text (after table text n) (after table (text.map f) n) := by
  induction n with
  | zero => exact .ok ⟨rfl, trivial⟩
  | succ n ih =>
    apply ih.bind
    rintro s _ ⟨rfl, hs⟩
    exact step_disguised f table text hs

end Walk

/-- **A NUL is like any other unrecognised character**, and a scan does not take it for the
end: characters that are not recognised may be changed for one another, and everything that a
scan gives is what it was, with these characters changed in it. This holds for every disguise,
every source and every table of reserved words. -/
theorem disguised_scan (f : Disguise) (table : ReservedWords) (source : String) :
    Disguised f table source := by
  have hwalk : ∀ n, Walk.after table (source.map f).toList n =
      (Walk.after table source.toList n).map (Walk.disguised f) := by
    intro n
    rw [String.toList_map]
    exact (Walk.after_disguised f table source.toList n).eq_map fun s s' h => h.1
  -- both walks are done after the same number of steps, and what they have given is the scan
  obtain ⟨s, hs, _, htokens, hdiagnostics, _⟩ := Walk.finishes_scan table source.toList
  obtain ⟨s', hs', _, htokens', hdiagnostics', _⟩ :=
    Walk.finishes_scan table (source.map f).toList
  rw [String.toList_map, List.length_map, ← String.toList_map, hwalk, hs] at hs'
  obtain rfl := Except.ok.inj hs'
  refine ⟨hwalk, ?_, ?_⟩
  · rw [Scan.ofSource, Scan.ofSource, ← htokens', ← htokens]
    rfl
  · rw [Scan.ofSource, Scan.ofSource, ← hdiagnostics', ← hdiagnostics]
    rfl

/-- A NUL after a colon, in a string and in a comment may be any other bad character. -/
example : String.map (Disguise.swap '\x00' '#' rfl rfl) ":\x00\"\x00\"//#" = ":#\"#\"//\x00" := by
  decide +kernel

end SeqScan
