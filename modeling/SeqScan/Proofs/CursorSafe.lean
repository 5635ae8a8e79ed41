import SeqScan.Cursor
import SeqScan.Proofs.Cut

/-
  No walk is trapped, and every walk comes to its end.

  A cursor moves on without asking whether a character is there, so whoever lets it
  move must know of one. Two loops, those of comments and of strings, ask for the end
  of the text. The others only look, and what they see is not the sentinel: a digit,
  a character of a name, a point, or the colon and the equals sign after a colon. So a
  NUL in the text, which looks like the end, lets no cursor move too far and keeps
  none from the end.

  What is proved:
    1. `step_onward`: whatever a walk is about to do, it is not trapped, keeps the
       invariant, never goes back and has less left to do after it.
    2. `exists_after`: so no walk is trapped, after any number of steps.
    3. `done_of_after`: a walk is done after at most three steps for each character,
       and two.
    4. `offset_lt_of_after`: between the beginnings of two pieces a character is
       taken.
    5. `exists_next_of_after`: from within any loop a walk comes to the beginning of
       a piece.
-/

namespace SeqScan

/-! The invariant -/

/-- A cursor stands in its text, not before its piece, and its counts are no greater
than the offset allows. -/
structure Cursor.Sound (text : List Char) (k : Cursor) : Prop where
  start_le : k.start.offset ≤ k.here.offset
  le_length : k.here.offset ≤ text.length
  line_le : k.here.line ≤ k.here.offset + 1
  column_le : k.here.column ≤ k.here.offset + 1

/-- What each thing that a walk is about to do relies on. -/
def Control.Fits (text : List Char) (k : Cursor) : Control → Prop
  | .first => k.here.offset < text.length
  | .colon _ more => k.here.offset + more ≤ text.length
  | .string => k.start.offset < k.here.offset
  | .next | .comment | .digits | .fraction | .name _ | .done => True

/-- The invariant of a walk. -/
structure Walk.Sound (text : List Char) (s : Walk) : Prop where
  cursor : s.cursor.Sound text
  fits : s.control.Fits text s.cursor

/-- How far a walk is from the end of its piece, without taking a character. -/
def Control.weight : Control → Nat
  | .done => 0
  | .first => 1
  | .next => 2
  | .colon .. | .comment | .string | .digits | .fraction | .name _ => 3

/-- A bound on the steps that are left. -/
def Walk.toll (text : List Char) (s : Walk) : Nat :=
  3 * (text.length - s.cursor.here.offset) + s.control.weight

/-- What a step leads to: no trap, the invariant, no way back and less left to do. -/
structure Walk.Onward (text : List Char) (s s' : Walk) : Prop where
  sound : s'.Sound text
  forward : s.cursor.here.offset ≤ s'.cursor.here.offset
  cheaper : s'.toll text < s.toll text
  /-- Only the beginning of a piece leads to its first character or to the end. -/
  within : s.control ≠ .next → 2 ≤ s'.control.weight

/-- From the offset `o` on, without a trap, within a piece or just after it. -/
def Lands (text : List Char) (o w : Nat) (r : Except Trap Walk) : Prop :=
  ∃ s, r = .ok s ∧ s.Sound text ∧ o ≤ s.cursor.here.offset ∧
    2 ≤ s.control.weight ∧ s.control.weight ≤ w

namespace Lands

variable {text : List Char} {o o' w w' : Nat} {r : Except Trap Walk}

theorem mono (h : Lands text o w r) (ho : o' ≤ o) (hw : w ≤ w') : Lands text o' w' r := by
  obtain ⟨s, hr, hs, hle, hlow, hhigh⟩ := h
  exact ⟨s, hr, hs, Nat.le_trans ho hle, hlow, Nat.le_trans hhigh hw⟩

/-- Landing further on, or closer to the end of the piece, is going onward. -/
theorem onward {s : Walk} (h : Lands text o w r) (ho : s.cursor.here.offset ≤ o)
    (hw : 3 * (text.length - o) + w < s.toll text) :
    ∃ s', r = .ok s' ∧ s.Onward text s' := by
  obtain ⟨s', hr, hs, hle, hlow, hhigh⟩ := h
  refine ⟨s', hr, hs, Nat.le_trans ho hle, ?_, fun _ => hlow⟩
  unfold Walk.toll at hw ⊢
  omega

end Lands

/-! Looking -/

namespace Cursor

variable {text : List Char} {k : Cursor} {o : Nat}

theorem lt_of_peek (h : k.peek text ≠ sentinel) : k.here.offset < text.length := by
  apply Nat.lt_of_not_le
  intro hle
  apply h
  rw [peek, List.getElem?_eq_none hle]
  rfl

theorem lt_of_peekNext (h : k.peekNext text ≠ sentinel) : k.here.offset + 1 < text.length := by
  apply Nat.lt_of_not_le
  intro hle
  apply h
  rw [peekNext, List.getElem?_eq_none hle]
  rfl

/-- What a test that the sentinel fails sees is in the text. -/
theorem lt_of_test {q : Char → Bool} (h : q (k.peek text) = true) (hq : q sentinel = false) :
    k.here.offset < text.length :=
  lt_of_peek (Text.ne_of_test h hq)

theorem lt_of_not_atEnd (h : ¬ k.atEnd text = true) : k.here.offset < text.length := by
  simpa [atEnd] using h

/-! Moving -/

theorem advance_of_lt (h : k.here.offset < text.length) :
    ∃ c, k.advance text = .ok (c, k.onward) := by
  refine ⟨text[k.here.offset], ?_⟩
  rw [advance, List.getElem?_eq_getElem h]

theorem stretch_of_le {i j : Nat} (hij : i ≤ j) (hj : j ≤ text.length) :
    stretch text i j = .ok ((text.take j).drop i) :=
  if_pos ⟨hij, hj⟩

namespace Sound

theorem onward (hk : k.Sound text) (h : k.here.offset < text.length) : k.onward.Sound text where
  start_le := Nat.le_succ_of_le hk.start_le
  le_length := h
  line_le := Nat.le_succ_of_le hk.line_le
  column_le := Nat.succ_le_succ hk.column_le

/-- A line feed is a character too, so lines are no more than characters. -/
theorem newline (hk : k.Sound text) (h : k.here.offset < text.length) :
    k.onward.newline.Sound text where
  start_le := Nat.le_succ_of_le hk.start_le
  le_length := h
  line_le := Nat.succ_le_succ hk.line_le
  column_le := Nat.le_add_left 1 _

theorem lexeme (hk : k.Sound text) : ∃ w, k.lexeme text = .ok w :=
  ⟨_, stretch_of_le hk.start_le hk.le_length⟩

theorem add (hk : k.Sound text) (kind : TokenKind) (literal : Option Literal) :
    Lands text k.here.offset 2 (k.add text kind literal) := by
  obtain ⟨w, hw⟩ := hk.lexeme
  rw [Cursor.add, hw]
  exact ⟨_, rfl, ⟨⟨hk.start_le, hk.le_length, hk.line_le, hk.column_le⟩, trivial⟩, Nat.le_refl _,
    Nat.le_refl _, Nat.le_refl _⟩

theorem report (hk : k.Sound text) (fault : Fault) :
    Lands text k.here.offset 2 (.ok (k.report fault)) :=
  ⟨_, rfl, ⟨⟨hk.start_le, hk.le_length, hk.line_le, hk.column_le⟩, trivial⟩, Nat.le_refl _,
    Nat.le_refl _, Nat.le_refl _⟩

theorem tell (hk : k.Sound text) (cls : NameClass) : (k.tell cls).Sound text :=
  ⟨hk.start_le, hk.le_length, hk.line_le, hk.column_le⟩

theorem lands (hk : k.Sound text) {control : Control} (hfits : control.Fits text k)
    (hlow : 2 ≤ control.weight) (hhigh : control.weight ≤ 3) :
    Lands text k.here.offset 3 (.ok ⟨control, k⟩) :=
  ⟨_, rfl, ⟨hk, hfits⟩, Nat.le_refl _, hlow, hhigh⟩

theorem matchChar (hk : k.Sound text) (expected : Char) :
    ∃ found k', k.matchChar text expected = .ok (found, k') ∧ k'.Sound text ∧
      k.here.offset ≤ k'.here.offset := by
  unfold Cursor.matchChar
  split
  · exact ⟨false, k, rfl, hk, Nat.le_refl _⟩
  · next h =>
    have hlt : k.here.offset < text.length := by
      apply lt_of_not_atEnd
      intro hend
      exact h (by rw [hend]; rfl)
    obtain ⟨c, hc⟩ := advance_of_lt hlt
    rw [hc]
    exact ⟨true, k.onward, rfl, hk.onward hlt, Nat.le_succ _⟩

theorem addWith (hk : k.Sound text) (second : Char) (double single : Operator) :
    Lands text k.here.offset 2 (k.addWith text second double single) := by
  obtain ⟨found, k', hmatch, hk', hle⟩ := hk.matchChar second
  rw [Cursor.addWith, hmatch]
  exact (hk'.add _ _).mono hle (Nat.le_refl _)

/-! One step within a piece -/

theorem colonKind_fits (hk : k.Sound text) :
    (Control.colon (colonKind (k.peek text) (k.peekNext text)).1
      (colonKind (k.peek text) (k.peekNext text)).2).Fits text k := by
  unfold colonKind
  split
  · next h =>
    -- an equals sign is not the sentinel, so two characters are there
    have hpeek : k.peekNext text ≠ sentinel := by rw [h]; decide
    have := lt_of_peekNext hpeek
    show k.here.offset + 2 ≤ text.length
    omega
  · next h _ =>
    have hpeek : k.peek text ≠ sentinel := by rw [h]; decide
    exact lt_of_peek hpeek
  · exact hk.le_length

theorem dispatch (hk : k.Sound text) (hlt : k.here.offset < text.length) (c : Char) :
    Lands text (k.here.offset + 1) 3 (k.onward.dispatch text c) := by
  have hon := hk.onward hlt
  have hadd := fun op => (hon.add (.operator op) none).mono (Nat.le_refl _) (Nat.le_succ 2)
  have hwith := fun second double single =>
    (hon.addWith second double single).mono (Nat.le_refl _) (Nat.le_succ 2)
  have hnext : Lands text k.onward.here.offset 3 (.ok ⟨.next, k.onward⟩) :=
    hon.lands trivial (Nat.le_refl 2) (Nat.le_succ 2)
  unfold Cursor.dispatch
  split
  · exact hadd .leftParen
  · exact hadd .rightParen
  · exact hadd .leftBrace
  · exact hadd .rightBrace
  · exact hadd .comma
  · exact hadd .minus
  · exact hadd .plus
  · exact hadd .semicolon
  · exact hadd .star
  · exact hadd .verticalLine
  · exact hwith '.' .rangeSeparator .dot
  · exact hon.lands hon.colonKind_fits (Nat.le_succ 2) (Nat.le_refl 3)
  · exact hwith '=' .bangEqual .bang
  · exact hwith '=' .equalEqual .equal
  · exact hwith '=' .lessEqual .less
  · exact hwith '=' .greaterEqual .greater
  · -- a slash: a comment if there is another one
    obtain ⟨found, k', hmatch, hk', hle⟩ := hon.matchChar '/'
    rw [hmatch]
    cases found with
    | true =>
      have hcomment : Lands text k'.here.offset 3 (.ok ⟨.comment, k'⟩) :=
        hk'.lands trivial (Nat.le_succ 2) (Nat.le_refl 3)
      exact hcomment.mono hle (Nat.le_refl 3)
    | false => exact (hk'.add _ _).mono hle (Nat.le_succ 2)
  · exact hnext
  · exact hnext
  · exact hnext
  · exact (hk.newline hlt).lands trivial (Nat.le_refl 2) (Nat.le_succ 2)
  · exact hon.lands (Nat.lt_succ_of_le hk.start_le) (Nat.le_succ 2) (Nat.le_refl 3)
  · split
    · exact hon.lands trivial (Nat.le_succ 2) (Nat.le_refl 3)
    split
    · exact hon.lands trivial (Nat.le_succ 2) (Nat.le_refl 3)
    · exact (hon.report _).mono (Nat.le_refl _) (Nat.le_succ 2)

end Sound

end Cursor

/-! One turn of a loop -/

/-- One turn of a loop at the offset `o`: a character is taken, or the piece is over. -/
def Turns (text : List Char) (o : Nat) (r : Except Trap Walk) : Prop :=
  o < text.length ∧ Lands text (o + 1) 3 r ∨ Lands text o 2 r

theorem Turns.onward {text : List Char} {s : Walk} {r : Except Trap Walk}
    (h : Turns text s.cursor.here.offset r) (hs : s.control.weight = 3) :
    ∃ s', r = .ok s' ∧ s.Onward text s' := by
  rcases h with ⟨hlt, h⟩ | h
  · refine h.onward (Nat.le_succ _) ?_
    rw [Walk.toll, hs]
    omega
  · refine h.onward (Nat.le_refl _) ?_
    rw [Walk.toll, hs]
    omega

namespace Cursor.Sound

variable {text : List Char} {k : Cursor}

theorem turn (hk : k.Sound text) (hlt : k.here.offset < text.length) {control : Control}
    (hfits : control.Fits text k.onward) (hw : control.weight = 3) :
    Turns text k.here.offset (k.advance text >>= fun x => .ok ⟨control, x.2⟩) := by
  obtain ⟨c, hc⟩ := advance_of_lt hlt
  rw [hc]
  exact .inl ⟨hlt, (hk.onward hlt).lands hfits (by rw [hw]; decide) (Nat.le_of_eq hw)⟩

theorem stepColon (hk : k.Sound text) (op : Operator) {more : Nat}
    (hfits : (Control.colon op more).Fits text k) :
    Turns text k.here.offset (k.stepColon text op more) := by
  cases more with
  | zero => exact .inr (hk.add _ _)
  | succ more =>
    have hle : k.here.offset + (more + 1) ≤ text.length := hfits
    have hmore : (Control.colon op more).Fits text k.onward := by
      show k.here.offset + 1 + more ≤ text.length
      omega
    exact hk.turn (by omega) hmore rfl

theorem stepComment (hk : k.Sound text) : Turns text k.here.offset (k.stepComment text) := by
  unfold Cursor.stepComment
  split
  · next h => exact hk.turn (lt_of_not_atEnd h.2) trivial rfl
  · exact .inr ⟨_, rfl, ⟨hk, trivial⟩, Nat.le_refl _, Nat.le_refl _, Nat.le_refl _⟩

/-- The closing quote stands after the opening one, so the value is a stretch. -/
theorem stepString (hk : k.Sound text) (hfits : Control.string.Fits text k) :
    Turns text k.here.offset (k.stepString text) := by
  have hstart : k.start.offset < k.here.offset := hfits
  have honward : Control.string.Fits text k.onward := Nat.lt_succ_of_lt hstart
  unfold Cursor.stepString
  split
  · next h =>
    have hlt := lt_of_not_atEnd h.2
    obtain ⟨c, hc⟩ := advance_of_lt hlt
    rw [hc]
    refine .inl ⟨hlt, ?_⟩
    show Lands text (k.here.offset + 1) 3 (.ok ⟨.string, if c = '\n' then _ else _⟩)
    split
    · exact (hk.newline hlt).lands honward (Nat.le_succ 2) (Nat.le_refl 3)
    · exact (hk.onward hlt).lands honward (Nat.le_succ 2) (Nat.le_refl 3)
  split
  · exact .inr (hk.report _)
  · next hend =>
    have hlt := lt_of_not_atEnd hend
    obtain ⟨c, hc⟩ := advance_of_lt hlt
    have hless : oneLess k.onward.here.offset = .ok k.here.offset := rfl
    have hvalue := stretch_of_le hstart hk.le_length
    rw [hc]
    refine .inl ⟨hlt, ?_⟩
    show Lands text (k.here.offset + 1) 3 (oneLess k.onward.here.offset >>= fun stop =>
      stretch text (k.start.offset + 1) stop >>= fun value =>
        k.onward.add text .string (some (.string (String.ofList value))))
    rw [hless]
    show Lands text (k.here.offset + 1) 3 (stretch text (k.start.offset + 1) k.here.offset >>= _)
    rw [hvalue]
    exact ((hk.onward hlt).add _ _).mono (Nat.le_refl _) (Nat.le_succ 2)

theorem addNumber (hk : k.Sound text) : Lands text k.here.offset 2 (k.addNumber text) := by
  obtain ⟨w, hw⟩ := hk.lexeme
  rw [Cursor.addNumber, hw]
  exact hk.add _ _

theorem stepDigits (hk : k.Sound text) : Turns text k.here.offset (k.stepDigits text) := by
  unfold Cursor.stepDigits
  split
  · next h => exact hk.turn (lt_of_test h (by decide)) trivial rfl
  split
  · next h => exact hk.turn (lt_of_peek (by rw [h.1]; decide)) trivial rfl
  · exact .inr hk.addNumber

theorem stepFraction (hk : k.Sound text) : Turns text k.here.offset (k.stepFraction text) := by
  unfold Cursor.stepFraction
  split
  · next h => exact hk.turn (lt_of_test h (by decide)) trivial rfl
  · exact .inr hk.addNumber

theorem stepName (hk : k.Sound text) (table : ReservedWords) (c : Char) :
    Turns text k.here.offset (k.stepName table text c) := by
  unfold Cursor.stepName
  split
  · next h => exact hk.turn (lt_of_test h (by decide)) trivial rfl
  · obtain ⟨w, hw⟩ := hk.lexeme
    rw [hw]
    exact .inr ((hk.tell _).add _ _)

end Cursor.Sound

/-! One step -/

namespace Walk

variable {table : ReservedWords} {text : List Char} {s : Walk}

theorem step_done (hs : s.control = .done) : s.step table text = .ok s := by
  rw [step, hs]

/-- The beginning of a piece leads to its first character, or to the end of the walk. -/
theorem step_next (table : ReservedWords) (h : s.Sound text) (hs : s.control = .next) :
    ∃ s', s.step table text = .ok s' ∧ s.Onward text s' ∧
      (s'.control = .first ∨ s'.control = .done) := by
  obtain ⟨control, k⟩ := s
  obtain rfl : control = .next := hs
  have hk := h.cursor
  have hlatch : k.latch.Sound text := ⟨Nat.le_refl _, hk.le_length, hk.line_le, hk.column_le⟩
  have hfinish : k.finish.cursor.Sound text :=
    ⟨hk.start_le, hk.le_length, hk.line_le, hk.column_le⟩
  by_cases hend : k.atEnd text = true
  · refine ⟨k.finish, if_pos hend, ⟨⟨hfinish, trivial⟩, Nat.le_refl _, ?_, absurd rfl⟩, .inr rfl⟩
    exact Nat.add_lt_add_left (show 0 < 2 by decide) _
  · refine ⟨⟨.first, k.latch⟩, if_neg hend,
      ⟨⟨hlatch, Cursor.lt_of_not_atEnd hend⟩, Nat.le_refl _, ?_, absurd rfl⟩, .inl rfl⟩
    exact Nat.add_lt_add_left (show 1 < 2 by decide) _

/-- **One step.** No step is trapped, and each but those at the end goes onward. -/
theorem step_onward (table : ReservedWords) (h : s.Sound text) (hs : s.control ≠ .done) :
    ∃ s', s.step table text = .ok s' ∧ s.Onward text s' := by
  obtain ⟨control, k⟩ := s
  obtain ⟨hk, hfits⟩ := h
  cases control with
  | next =>
    obtain ⟨s', hs', honward, _⟩ := step_next table ⟨hk, hfits⟩ rfl
    exact ⟨s', hs', honward⟩
  | first =>
    have hlt : k.here.offset < text.length := hfits
    obtain ⟨c, hc⟩ := Cursor.advance_of_lt hlt
    have hstep : step table text ⟨.first, k⟩ = k.onward.dispatch text c := by
      show k.advance text >>= _ = _
      rw [hc]
      rfl
    rw [hstep]
    refine (hk.dispatch hlt c).onward (Nat.le_succ _) ?_
    show 3 * (text.length - (k.here.offset + 1)) + 3 < 3 * (text.length - k.here.offset) + 1
    omega
  | colon op more => exact (hk.stepColon op hfits).onward rfl
  | comment => exact hk.stepComment.onward rfl
  | string => exact (hk.stepString hfits).onward rfl
  | digits => exact hk.stepDigits.onward rfl
  | fraction => exact hk.stepFraction.onward rfl
  | name c => exact (hk.stepName table c).onward rfl
  | done => exact absurd rfl hs

/-- Without the invariant a step can be trapped. -/
example : step table [] ⟨.first, begin.cursor⟩ = .error .noCharacter := rfl

theorem Onward.lt_of_first {s' : Walk} (h : s.Onward text s') (hs : s.control = .first) :
    s.cursor.here.offset < s'.cursor.here.offset := by
  have hcheaper := h.cheaper
  have hwithin := h.within (by rw [hs]; exact nofun)
  rw [toll, toll, hs] at hcheaper
  have hfirst : Control.first.weight = 1 := rfl
  omega

/-! A whole walk -/

theorem after_succ {n : Nat} (h : after table text n = .ok s) :
    after table text (n + 1) = s.step table text := by
  rw [after, h]
  rfl

theorem sound_begin (text : List Char) : begin.Sound text :=
  ⟨⟨Nat.le_refl _, Nat.zero_le _, Nat.le_refl _, Nat.le_refl _⟩, trivial⟩

/-- **No walk is trapped**, and the invariant holds after any number of steps. -/
theorem exists_after (table : ReservedWords) (text : List Char) (n : Nat) :
    ∃ s, after table text n = .ok s ∧ s.Sound text := by
  induction n with
  | zero => exact ⟨begin, rfl, sound_begin text⟩
  | succ n ih =>
    obtain ⟨s, hs, hsound⟩ := ih
    rw [after_succ hs]
    by_cases hdone : s.control = .done
    · exact ⟨s, step_done hdone, hsound⟩
    · obtain ⟨s', hs', honward⟩ := step_onward table hsound hdone
      exact ⟨s', hs', honward.sound⟩

theorem sound_of_after {n : Nat} (h : after table text n = .ok s) : s.Sound text := by
  obtain ⟨s', hs', hsound⟩ := exists_after table text n
  rw [h] at hs'
  obtain rfl := Except.ok.inj hs'
  exact hsound

theorem after_of_done {n m : Nat} (h : after table text n = .ok s) (hs : s.control = .done)
    (hle : n ≤ m) : after table text m = .ok s := by
  induction hle with
  | refl => exact h
  | step _ ih => rw [after_succ ih, step_done hs]

theorem offset_le_of_after {n m : Nat} {s' : Walk} (h : after table text n = .ok s)
    (hle : n ≤ m) (h' : after table text m = .ok s') :
    s.cursor.here.offset ≤ s'.cursor.here.offset := by
  induction hle generalizing s' with
  | refl =>
    rw [h] at h'
    obtain rfl := Except.ok.inj h'
    exact Nat.le_refl _
  | @step m _ ih =>
    obtain ⟨t, ht, hsound⟩ := exists_after table text m
    have hle := ih ht
    rw [after_succ ht] at h'
    by_cases hdone : t.control = .done
    · rw [step_done hdone] at h'
      rwa [← Except.ok.inj h']
    · obtain ⟨t', ht', honward⟩ := step_onward table hsound hdone
      rw [ht'] at h'
      rw [← Except.ok.inj h']
      exact Nat.le_trans hle honward.forward

/-- Each step costs at least one, so the steps are bounded. -/
theorem toll_after {n : Nat} (h : after table text n = .ok s) :
    s.control = .done ∨ s.toll text + n ≤ 3 * text.length + 2 := by
  induction n generalizing s with
  | zero =>
    obtain rfl : begin = s := Except.ok.inj h
    exact .inr (Nat.le_refl _)
  | succ n ih =>
    obtain ⟨t, ht, hsound⟩ := exists_after table text n
    rw [after_succ ht] at h
    by_cases hdone : t.control = .done
    · rw [step_done hdone] at h
      obtain rfl := Except.ok.inj h
      exact .inl hdone
    · obtain ⟨t', ht', honward⟩ := step_onward table hsound hdone
      rw [ht'] at h
      obtain rfl := Except.ok.inj h
      have hcheaper := honward.cheaper
      have hbound := (ih ht).resolve_left hdone
      exact .inr (by omega)

/-- A walk is done after at most three steps for each character, and two. -/
theorem done_of_after (h : after table text (3 * text.length + 2) = .ok s) :
    s.control = .done := by
  rcases toll_after h with hdone | hbound
  · exact hdone
  · -- nothing is left to pay, and only a walk that is done weighs nothing
    have hweight : s.control.weight = 0 := by
      rw [toll] at hbound
      omega
    cases hs : s.control <;> simp [hs, Control.weight] at hweight ⊢

/-- **Progress.** When the next piece is begun, at least one character has been taken
since the last one was. -/
theorem offset_lt_of_after {n m : Nat} {s' : Walk} (h : after table text n = .ok s)
    (hlt : n < m) (h' : after table text m = .ok s') (hs : s.control = .next)
    (hs' : s'.control = .next) : s.cursor.here.offset < s'.cursor.here.offset := by
  obtain ⟨t, ht, honward, hcontrol⟩ := step_next table (sound_of_after h) hs
  rw [← after_succ h] at ht
  rcases hcontrol with hfirst | hdone
  · -- the step after that one takes the first character
    obtain ⟨u, hu, honward'⟩ := step_onward table honward.sound (by rw [hfirst]; exact nofun)
    rw [← after_succ ht] at hu
    have hne : m ≠ n + 1 := by
      intro hm
      rw [hm, ht] at h'
      rw [← Except.ok.inj h', hfirst] at hs'
      cases hs'
    have hforward := honward.forward
    have hstrict := honward'.lt_of_first hfirst
    have hrest := offset_le_of_after hu (by omega) h'
    omega
  · -- a walk that is done begins no piece
    rw [after_of_done ht hdone hlt] at h'
    rw [← Except.ok.inj h', hdone] at hs'
    cases hs'

/-- **Every loop ends.** From anywhere before its end a walk comes to the beginning of a
piece, or to the end of the text. -/
theorem exists_next_of_after {n : Nat} (h : after table text n = .ok s)
    (hs : s.control ≠ .done) :
    ∃ m s', n ≤ m ∧ after table text m = .ok s' ∧ s'.control = .next := by
  induction hk : s.toll text using Nat.strongRecOn generalizing n s with
  | ind toll ih =>
    by_cases hnext : s.control = .next
    · exact ⟨n, s, Nat.le_refl n, h, hnext⟩
    · obtain ⟨t, ht, honward⟩ := step_onward table (sound_of_after h) hs
      have hdone : t.control ≠ .done := by
        intro hdone
        have hwithin := honward.within hnext
        rw [hdone] at hwithin
        exact absurd hwithin (by decide)
      rw [← after_succ h] at ht
      obtain ⟨m, s', hle, hm⟩ := ih (t.toll text) (hk ▸ honward.cheaper) ht hdone rfl
      exact ⟨m, s', Nat.le_of_succ_le hle, hm⟩

end Walk

end SeqScan
