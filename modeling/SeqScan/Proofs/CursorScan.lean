import Mathlib.Logic.Relation
import SeqScan.Proofs.CursorSafe
import SeqScan.Proofs.Lexeme

/-
  What a walk gives is the scan.

  A scan goes from piece to piece and a walk from character to character. They meet
  where a piece begins. From there a walk takes the first character, goes through
  the loop that this one chooses, and comes to the beginning of the next piece,
  with the token, the diagnostic and the events of the piece put after those it had.

  What is proved:
    1. `Leads.run`: a loop takes all characters that pass its test.
    2. `Leads.piece`: a walk that begins a piece comes to its end, with what the
       piece gives.
    3. `Leads.scan`: from any place on, a walk comes to the tokens, diagnostics and
       events of the scan; so it is done with the scan (`Walk.finishes_scan`).
    4. `walksSafely_scan`: the whole law, for every source and every table: no step
       is trapped, the cursor stays in the text and moves on with every piece, all
       loops end, and the walk is done with the scan and has told its events.
-/

namespace SeqScan

/-! What a cursor sees -/

/-- What stands in the text from the cursor on. -/
def Cursor.Sees (text : List Char) (k : Cursor) (rest : List Char) : Prop :=
  text.drop k.here.offset = rest

namespace Cursor

variable {text rest cs w : List Char} {c : Char} {k : Cursor}

/-- The cursor after some characters, of any kind. -/
def pass (k : Cursor) (w : List Char) : Cursor := { k with here := k.here.after w }

theorem pass_pass (k : Cursor) (a b : List Char) : (k.pass a).pass b = k.pass (a ++ b) := by
  rw [pass, pass, pass, Position.after_append]

theorem onward_eq_pass (k : Cursor) (hc : c ≠ '\n') : k.onward = k.pass [c] := by
  rw [onward, pass, Position.after_cons, Position.after_nil, Position.advance, if_neg hc]

theorem newline_eq_pass (k : Cursor) : k.onward.newline = k.pass ['\n'] := rfl

namespace Sees

theorem getElem?_add (h : k.Sees text rest) (i : Nat) : text[k.here.offset + i]? = rest[i]? := by
  rw [← List.getElem?_drop, h]

theorem peek (h : k.Sees text rest) : k.peek text = rest.head?.getD sentinel := by
  have h0 := h.getElem?_add 0
  rw [Nat.add_zero] at h0
  rw [Cursor.peek, h0, List.head?_eq_getElem?]

theorem peekNext (h : k.Sees text rest) : k.peekNext text = rest[1]?.getD sentinel := by
  rw [Cursor.peekNext, h.getElem?_add]

theorem atEnd (h : k.Sees text rest) : k.atEnd text = rest.isEmpty := by
  rw [Cursor.atEnd, Bool.eq_iff_iff, decide_eq_true_iff, List.isEmpty_iff, ← List.drop_eq_nil_iff,
    h]

theorem advance (h : k.Sees text (c :: cs)) : k.advance text = .ok (c, k.onward) := by
  have h0 := h.getElem?_add 0
  rw [Nat.add_zero] at h0
  rw [Cursor.advance, h0]
  rfl

theorem pass (h : k.Sees text (w ++ rest)) : (k.pass w).Sees text rest := by
  have h : text.drop k.here.offset = w ++ rest := h
  show text.drop (k.here.after w).offset = rest
  rw [Position.offset_after, ← List.drop_drop, h, List.drop_left]

theorem onward (h : k.Sees text (c :: cs)) : k.onward.Sees text cs := by
  have h : text.drop k.here.offset = c :: cs := h
  show text.drop (k.here.offset + 1) = cs
  rw [← List.drop_drop, h]
  rfl

theorem taken (h : k.Sees text (c :: cs)) (hc : c ≠ '\n') (control : Control) :
    (k.advance text >>= fun x => .ok ⟨control, x.2⟩) =
      (.ok ⟨control, k.pass [c]⟩ : Except Trap Walk) := by
  rw [h.advance, ← k.onward_eq_pass hc]
  rfl

theorem matchChar_found (h : k.Sees text (c :: cs)) :
    k.matchChar text c = .ok (true, k.onward) := by
  have htest : (k.atEnd text || k.peek text != c) = false := by
    rw [h.atEnd, h.peek]
    simp
  rw [matchChar, htest, if_neg nofun, h.advance]
  rfl

theorem matchChar_missed (h : k.Sees text rest) (hc : rest.head? ≠ some c) :
    k.matchChar text c = .ok (false, k) := by
  rw [matchChar, h.atEnd, h.peek]
  cases rest with
  | nil => rfl
  | cons d rest =>
    have hne : d ≠ c := fun he => hc (by rw [he]; rfl)
    simp [hne]

theorem lexeme {p : Piece} (h : k.Sees text (p.text ++ rest)) :
    (k.latch.pass p.text).lexeme text = .ok p.text := by
  have h : text.drop k.here.offset = p.text ++ rest := h
  have hlen := congrArg List.length h
  have hpiece := p.length_text
  rw [List.length_drop, List.length_append] at hlen
  show stretch text k.here.offset (k.here.after p.text).offset = .ok p.text
  rw [Position.offset_after, stretch_of_le (by omega) (by omega), List.drop_take, h,
    Nat.add_sub_cancel_left, List.take_left]

end Sees

theorem dispatch_of_other (hblank : Text.isBlank c = false) (hquote : c ≠ '"')
    (hmark : c ∉ Text.marks) : k.dispatch text c =
      if c.isDigit then .ok ⟨.digits, k⟩
      else if Text.isNameStart c then .ok ⟨.name c, k⟩
      else .ok (k.report (.unexpectedCharacter c)) := by
  have hother : c ∉ Text.marks ++ ['"', ' ', '\r', '\t', '\n'] := by
    intro h
    rcases List.mem_append.mp h with hm | hm
    · exact hmark hm
    · simp only [List.mem_cons, List.not_mem_nil, or_false] at hm
      rcases hm with rfl | rfl | rfl | rfl | rfl
      · exact hquote rfl
      all_goals exact absurd hblank (by decide)
  unfold dispatch
  split
  -- every case but the last is of one of those characters
  all_goals try exact absurd (by decide) hother
  rfl

theorem dispatch_of_not_isRecognised (hc : Text.isRecognised c = false) :
    k.dispatch text c = .ok (k.report (.unexpectedCharacter c)) := by
  obtain ⟨hblank, hquote, hdigit, hname, hmark⟩ := Text.class_of_not_isRecognised hc
  rw [dispatch_of_other hblank hquote hmark, hdigit, hname]
  rfl

theorem dispatch_of_isDigit (hc : c.isDigit = true) :
    k.dispatch text c = .ok ⟨.digits, k⟩ := by
  have hmark : c ∉ Text.marks := by
    intro hm
    rw [(Text.class_of_mem_marks hm).2.2.1] at hc
    cases hc
  rw [dispatch_of_other (Text.isBlank_of_isDigit hc) (Text.ne_quote_of_isDigit hc) hmark, if_pos hc]

theorem dispatch_of_isNameStart (hc : Text.isNameStart c = true) :
    k.dispatch text c = .ok ⟨.name c, k⟩ := by
  have hmark : c ∉ Text.marks := by
    intro hm
    rw [(Text.class_of_mem_marks hm).2.2.2] at hc
    cases hc
  have hdigit : ¬ c.isDigit = true := by
    rw [Text.isDigit_of_isNameStart hc]
    exact Bool.false_ne_true
  rw [dispatch_of_other (Text.isBlank_of_isNameStart hc) (Text.ne_quote_of_isNameStart hc) hmark,
    if_neg hdigit, if_pos hc]

/-! What a piece leaves behind -/

/-- The cursor after a piece that starts where it stands: its token, its diagnostic and
its events are put after those before. -/
def put (table : ReservedWords) (k : Cursor) (p : Piece) : Cursor where
  start := k.here
  here := k.here.after p.text
  tokens := k.tokens ++ (Placed.token? table ⟨p, k.here⟩).toList
  diagnostics := k.diagnostics ++ (Placed.diagnostic? ⟨p, k.here⟩).toList
  events := k.events ++ Placed.events table ⟨p, k.here⟩

variable {table : ReservedWords} {p : Piece}

theorem reserved?_of_kind?_eq_none (h : p.kind? table = none) :
    Placed.reserved? table ⟨p, k.here⟩ = none := by
  apply Placed.reserved?_of_ne
  rw [h]
  exact (Option.some_ne_none _).symm

/-- A token is given for the piece, after the event that tells of a reserved word. -/
theorem tell_add_eq_put (table : ReservedWords) (cls : NameClass) {kind : TokenKind}
    (hkind : p.kind? table = some kind)
    (htold : Placed.reserved? table ⟨p, k.here⟩ = cls.event? k.here.line)
    (hsees : k.Sees text (p.text ++ rest)) :
    ((k.latch.pass p.text).tell cls).add text kind p.literal? = .ok ⟨.next, k.put table p⟩ := by
  have hfault : p.fault? = none := by
    cases hf : p.fault? with
    | none => rfl
    | some fault =>
      rw [Piece.kind?_eq_none_of_fault? hf] at hkind
      cases hkind
  have hstop : (k.here.after p.text).offset = k.here.offset + p.text.length :=
    Position.offset_after _ _
  have hlexeme : ((k.latch.pass p.text).tell cls).lexeme text = .ok p.text := hsees.lexeme
  rw [add, hlexeme]
  show Except.ok _ = Except.ok _
  rw [put, Placed.events, htold, Placed.token?, hkind, Placed.diagnostic?_of_no_fault hfault]
  simp only [tell, latch, pass, hstop, Option.map_some, Option.map_none, Option.toList_some,
    Option.toList_none, List.append_nil, List.append_assoc, Piece.lexeme, Placed.span]

/-- A piece that is no name is told of by its token alone. -/
theorem add_eq_put (table : ReservedWords) {kind : TokenKind} (hkind : p.kind? table = some kind)
    (hne : kind ≠ .reserveWord) (hsees : k.Sees text (p.text ++ rest)) :
    (k.latch.pass p.text).add text kind p.literal? = .ok ⟨.next, k.put table p⟩ := by
  have hplain : Placed.reserved? table ⟨p, k.here⟩ = none := by
    apply Placed.reserved?_of_ne
    rwa [hkind, ne_eq, Option.some_inj]
  have htell : (k.latch.pass p.text).tell .identifier = k.latch.pass p.text := by
    rw [tell, NameClass.event?, Option.toList_none, List.append_nil]
  have hadd := tell_add_eq_put table .identifier hkind hplain hsees
  rwa [htell] at hadd

theorem report_eq_put (table : ReservedWords) {fault : Fault} (hfault : p.fault? = some fault) :
    (k.latch.pass p.text).report fault = ⟨.next, k.put table p⟩ := by
  have hplain := reserved?_of_kind?_eq_none (k := k) (Piece.kind?_eq_none_of_fault? hfault table)
  rw [put, Placed.events, hplain, Placed.token?_of_fault hfault,
    Placed.diagnostic?_of_fault hfault]
  simp only [report, latch, pass, Option.map_some, Option.map_none, Option.toList_some,
    Option.toList_none, List.append_nil, List.nil_append]

theorem pass_eq_put (table : ReservedWords) (hkind : p.kind? table = none)
    (hfault : p.fault? = none) :
    k.latch.pass p.text = k.put table p := by
  have hplain := reserved?_of_kind?_eq_none (k := k) hkind
  rw [put, Placed.events, hplain, Placed.token?, hkind, Placed.diagnostic?_of_no_fault hfault]
  simp only [latch, pass, Option.map_none, Option.toList_none, List.append_nil]

end Cursor

/-! The events of what is left -/

namespace Scan

/-- The events of a text that starts in the place `pos`, but the last. -/
def eventsFrom (table : ReservedWords) (pos : Position) (text : List Char) : List Event :=
  (Placed.place pos (Piece.pieces text)).flatMap (Placed.events table)

theorem eventsFrom_nil (table : ReservedWords) (pos : Position) : eventsFrom table pos [] = [] := by
  rw [eventsFrom, Piece.pieces_nil, Placed.place, List.flatMap_nil]

theorem eventsFrom_cut (table : ReservedWords) (pos : Position) {p : Piece} {rest : List Char}
    (h : Cut p rest) : eventsFrom table pos (p.text ++ rest) =
      Placed.events table ⟨p, pos⟩ ++ eventsFrom table (pos.after p.text) rest := by
  rw [eventsFrom, Piece.pieces_cut h, Placed.place, List.flatMap_cons, eventsFrom]

end Scan

/-! Walking on -/

/-- A walk comes from one state to another. -/
def Leads (table : ReservedWords) (text : List Char) : Walk → Walk → Prop :=
  Relation.ReflTransGen fun s s' => s.step table text = .ok s'

namespace Leads

variable {table : ReservedWords} {text rest body : List Char} {k : Cursor} {c : Char} {s : Walk}
  {p : Piece}

theorem one {s s' : Walk} (h : s.step table text = .ok s') : Leads table text s s' :=
  Relation.ReflTransGen.single h

theorem trans {s s' s'' : Walk} (h : Leads table text s s') (h' : Leads table text s' s'') :
    Leads table text s s'' :=
  Relation.ReflTransGen.trans h h'

/-- A piece is begun, its first character taken, and what to do next chosen. -/
theorem dispatch (h : k.Sees text (c :: rest))
    (hs : k.latch.onward.dispatch text c = .ok s) : Leads table text ⟨.next, k⟩ s := by
  have hnext : Walk.step table text ⟨.next, k⟩ = .ok ⟨.first, k.latch⟩ := by
    refine if_neg ?_
    rw [h.atEnd]
    exact nofun
  have hlatch : k.latch.Sees text (c :: rest) := h
  have hfirst : Walk.step table text ⟨.first, k.latch⟩ = .ok s := by
    show k.latch.advance text >>= _ = _
    rw [hlatch.advance]
    exact hs
  exact (one hnext).trans (one hfirst)

/-- A loop takes all characters that pass its test. -/
theorem run (table : ReservedWords) {control : Control} {test : Char → Bool}
    (hturn : ∀ (k : Cursor) (c : Char) (cs : List Char), k.Sees text (c :: cs) → test c = true →
      Walk.step table text ⟨control, k⟩ = .ok ⟨control, k.pass [c]⟩)
    (h : k.Sees text (body ++ rest)) (hbody : ∀ c ∈ body, test c = true) :
    Leads table text ⟨control, k⟩ ⟨control, k.pass body⟩ := by
  induction body generalizing k with
  | nil => exact Relation.ReflTransGen.refl
  | cons c body ih =>
    have hsees : (k.pass [c]).Sees text (body ++ rest) := Cursor.Sees.pass (w := [c]) h
    have hrest := ih hsees fun d hd => hbody d (List.mem_cons_of_mem c hd)
    rw [Cursor.pass_pass] at hrest
    exact (one (hturn k c _ h (hbody c List.mem_cons_self))).trans hrest

/-! Loops -/

theorem turn_comment (k : Cursor) (c : Char) (cs : List Char) (h : k.Sees text (c :: cs))
    (hc : (c != '\n') = true) :
    Walk.step table text ⟨.comment, k⟩ = .ok ⟨.comment, k.pass [c]⟩ := by
  have hne : c ≠ '\n' := bne_iff_ne.mp hc
  have htest : k.peek text ≠ '\n' ∧ ¬ k.atEnd text = true := by
    rw [h.peek, h.atEnd]
    exact ⟨hne, nofun⟩
  show k.stepComment text = _
  rw [Cursor.stepComment, if_pos htest]
  exact h.taken hne .comment

theorem turn_string (k : Cursor) (c : Char) (cs : List Char) (h : k.Sees text (c :: cs))
    (hc : (c != '"') = true) :
    Walk.step table text ⟨.string, k⟩ = .ok ⟨.string, k.pass [c]⟩ := by
  have htest : k.peek text ≠ '"' ∧ ¬ k.atEnd text = true := by
    rw [h.peek, h.atEnd]
    exact ⟨bne_iff_ne.mp hc, nofun⟩
  have hpass : (if c = '\n' then k.onward.newline else k.onward) = k.pass [c] := by
    split
    · next hline => rw [hline, Cursor.newline_eq_pass]
    · next hline => rw [k.onward_eq_pass hline]
  show k.stepString text = _
  rw [Cursor.stepString, if_pos htest, h.advance, ← hpass]
  rfl

theorem turn_digits (k : Cursor) (c : Char) (cs : List Char) (h : k.Sees text (c :: cs))
    (hc : c.isDigit = true) :
    Walk.step table text ⟨.digits, k⟩ = .ok ⟨.digits, k.pass [c]⟩ := by
  have htest : (k.peek text).isDigit = true := by rwa [h.peek]
  show k.stepDigits text = _
  rw [Cursor.stepDigits, if_pos htest]
  exact h.taken (Text.ne_of_test hc (by decide)) .digits

theorem turn_fraction (k : Cursor) (c : Char) (cs : List Char) (h : k.Sees text (c :: cs))
    (hc : c.isDigit = true) :
    Walk.step table text ⟨.fraction, k⟩ = .ok ⟨.fraction, k.pass [c]⟩ := by
  have htest : (k.peek text).isDigit = true := by rwa [h.peek]
  show k.stepFraction text = _
  rw [Cursor.stepFraction, if_pos htest]
  exact h.taken (Text.ne_of_test hc (by decide)) .fraction

theorem turn_name (first : Char) (k : Cursor) (c : Char) (cs : List Char)
    (h : k.Sees text (c :: cs)) (hc : Text.isNameChar c = true) :
    Walk.step table text ⟨.name first, k⟩ = .ok ⟨.name first, k.pass [c]⟩ := by
  have htest : Text.isNameChar (k.peek text) = true := by rwa [h.peek]
  show k.stepName table text first = _
  rw [Cursor.stepName, if_pos htest]
  exact h.taken (Text.ne_of_test hc (by decide)) (.name first)

theorem peek_of_stops {q : Char → Bool} (h : k.Sees text rest) (hr : Stops q rest)
    (hq : q Cursor.sentinel = false) : q (k.peek text) = false := by
  rw [h.peek]
  cases rest with
  | nil => exact hq
  | cons c rest => exact Stops.cons_iff.mp hr

/-! Pieces -/

theorem blank (hc : Text.isBlank c = true) (h : k.Sees text (c :: rest)) :
    Leads table text ⟨.next, k⟩ ⟨.next, k.put table ⟨.blank, c, []⟩⟩ := by
  rw [← Cursor.pass_eq_put table (k := k) (p := ⟨.blank, c, []⟩) rfl rfl]
  apply dispatch h
  simp only [Text.isBlank, Bool.or_eq_true, decide_eq_true_eq] at hc
  rcases hc with ((rfl | rfl) | rfl) | rfl <;> rfl

theorem unexpected (hc : Text.isRecognised c = false) (h : k.Sees text (c :: rest)) :
    Leads table text ⟨.next, k⟩ ⟨.next, k.put table ⟨.unexpected, c, []⟩⟩ := by
  have hline : c ≠ '\n' := (Text.ne_of_test (q := Text.isRecognised) (by decide) hc).symm
  rw [← Cursor.report_eq_put table (k := k) (p := ⟨.unexpected, c, []⟩) rfl]
  apply dispatch h
  rw [Cursor.dispatch_of_not_isRecognised hc, Cursor.onward_eq_pass _ hline]
  rfl

theorem digit (table : ReservedWords) (hc : c.isDigit = true) (h : k.Sees text (c :: rest)) :
    Leads table text ⟨.next, k⟩ ⟨.digits, k.latch.pass [c]⟩ := by
  apply dispatch h
  rw [Cursor.dispatch_of_isDigit hc, ← Cursor.onward_eq_pass _ (Text.ne_of_test hc (by decide))]

theorem nameStart (hc : Text.isNameStart c = true) (h : k.Sees text (c :: rest)) :
    Leads table text ⟨.next, k⟩ ⟨.name c, k.latch.pass [c]⟩ := by
  apply dispatch h
  rw [Cursor.dispatch_of_isNameStart hc,
    ← Cursor.onward_eq_pass _ (Text.ne_of_test hc (by decide))]

theorem name {ds : List Char} (hc : Text.isNameStart c = true)
    (hds : ∀ d ∈ ds, Text.isNameChar d = true) (hr : Stops Text.isNameChar rest)
    (h : k.Sees text (c :: ds ++ rest)) :
    Leads table text ⟨.next, k⟩ ⟨.next, k.put table ⟨.name, c, ds⟩⟩ := by
  have hloop := run table (turn_name c) (k := k.latch.pass [c])
    (Cursor.Sees.pass (w := [c]) h) hds
  have hend : (k.latch.pass (c :: ds)).Sees text rest := Cursor.Sees.pass (k := k.latch) h
  have htest := peek_of_stops hend hr (by decide)
  have hadd := Cursor.tell_add_eq_put table (table.classify c (String.ofList (c :: ds))) (k := k)
    (p := ⟨.name, c, ds⟩) rfl rfl h
  have hlexeme := Cursor.Sees.lexeme (p := ⟨.name, c, ds⟩) h
  rw [Cursor.pass_pass] at hloop
  refine ((nameStart hc h).trans hloop).trans (one ?_)
  show (k.latch.pass (c :: ds)).stepName table text c = _
  rw [Cursor.stepName, htest, if_neg nofun]
  show Cursor.lexeme text (k.latch.pass (Piece.text ⟨.name, c, ds⟩)) >>= _ = _
  rw [hlexeme]
  exact hadd

theorem addNumber {w : List Char} (h : k.Sees text (c :: w ++ rest)) :
    (k.latch.pass (c :: w)).addNumber text = .ok ⟨.next, k.put table ⟨.number, c, w⟩⟩ := by
  have hadd := Cursor.add_eq_put table (k := k) (p := ⟨.number, c, w⟩) rfl (by simp) h
  have hlexeme := Cursor.Sees.lexeme (p := ⟨.number, c, w⟩) h
  show Cursor.lexeme text (k.latch.pass (Piece.text ⟨.number, c, w⟩)) >>= _ = _
  rw [hlexeme]
  exact hadd

theorem whole {ds : List Char} (hc : c.isDigit = true) (hds : ∀ d ∈ ds, d.isDigit = true)
    (hr : Stops Char.isDigit rest)
    (hpoint : ∀ d more, rest = '.' :: d :: more → d.isDigit = false)
    (h : k.Sees text (c :: ds ++ rest)) :
    Leads table text ⟨.next, k⟩ ⟨.next, k.put table ⟨.number, c, ds⟩⟩ := by
  have hloop := run table turn_digits (k := k.latch.pass [c])
    (Cursor.Sees.pass (w := [c]) h) hds
  have hend : (k.latch.pass (c :: ds)).Sees text rest := Cursor.Sees.pass (k := k.latch) h
  have htest := peek_of_stops hend hr (by decide)
  have hno : ¬ ((k.latch.pass (c :: ds)).peek text = '.' ∧
      ((k.latch.pass (c :: ds)).peekNext text).isDigit = true) := by
    rw [hend.peek, hend.peekNext]
    intro hboth
    match rest, hboth with
    | '.' :: d :: more, ⟨rfl, hd⟩ =>
      rw [List.getElem?_cons_succ, List.getElem?_cons_zero, Option.getD_some,
        hpoint d more rfl] at hd
      cases hd
    | [_], ⟨_, hd⟩ =>
      have hnul : Cursor.sentinel.isDigit = true := hd
      exact absurd hnul (by decide)
    | [], ⟨hpt, _⟩ =>
      have hnul : Cursor.sentinel = '.' := hpt
      exact absurd hnul (by decide)
  rw [Cursor.pass_pass] at hloop
  refine ((digit table hc h).trans hloop).trans (one ?_)
  show (k.latch.pass (c :: ds)).stepDigits text = _
  rw [Cursor.stepDigits, htest, if_neg nofun, if_neg hno]
  exact addNumber h

theorem point {f : Char} (hf : f.isDigit = true) (h : k.Sees text ('.' :: f :: rest)) :
    Leads table text ⟨.digits, k⟩ ⟨.fraction, k.pass ['.']⟩ := by
  have hdot : (k.peek text).isDigit = false := by
    rw [h.peek]
    rfl
  have hboth : k.peek text = '.' ∧ (k.peekNext text).isDigit = true := by
    rw [h.peek, h.peekNext]
    exact ⟨rfl, hf⟩
  apply one
  show k.stepDigits text = _
  rw [Cursor.stepDigits, hdot, if_neg nofun, if_pos hboth]
  exact h.taken (by decide) .fraction

theorem fraction {f : Char} {ds fs : List Char} (hc : c.isDigit = true)
    (hds : ∀ d ∈ ds, d.isDigit = true) (hf : f.isDigit = true)
    (hfs : ∀ d ∈ fs, d.isDigit = true) (hr : Stops Char.isDigit rest)
    (h : k.Sees text (c :: (ds ++ '.' :: f :: fs) ++ rest)) :
    Leads table text ⟨.next, k⟩ ⟨.next, k.put table ⟨.number, c, ds ++ '.' :: f :: fs⟩⟩ := by
  have hall : ∀ d ∈ f :: fs, d.isDigit = true := by
    intro d hd
    rcases List.mem_cons.mp hd with rfl | hd
    · exact hf
    · exact hfs d hd
  -- the text is taken in three parts: digits, the point, digits
  have hparts : k.Sees text (c :: ds ++ (['.'] ++ (f :: fs ++ rest))) := by
    simpa using h
  have hwhole : (k.latch.pass [c]).Sees text (ds ++ (['.'] ++ (f :: fs ++ rest))) :=
    Cursor.Sees.pass (k := k.latch) (w := [c]) hparts
  have hpoint := hwhole.pass
  have hfraction := hpoint.pass
  have hend := hfraction.pass
  have hdigits := (digit table hc hparts).trans (run table turn_digits hwhole hds)
  have hwalk := (hdigits.trans (point hf hpoint)).trans (run table turn_fraction hfraction hall)
  have htext : [c] ++ (ds ++ (['.'] ++ f :: fs)) = c :: (ds ++ '.' :: f :: fs) := rfl
  rw [Cursor.pass_pass, Cursor.pass_pass, Cursor.pass_pass, htext] at hwalk hend
  have htest := peek_of_stops hend hr (by decide)
  refine hwalk.trans (one ?_)
  show (k.latch.pass (c :: (ds ++ '.' :: f :: fs))).stepFraction text = _
  rw [Cursor.stepFraction, htest, if_neg nofun]
  exact addNumber h

theorem comment (hbody : '\n' ∉ body) (hr : Stops (· != '\n') rest)
    (h : k.Sees text ('/' :: '/' :: body ++ rest)) :
    Leads table text ⟨.next, k⟩ ⟨.next, k.put table ⟨.comment, '/', '/' :: body⟩⟩ := by
  have hlatch : k.latch.Sees text ('/' :: '/' :: body ++ rest) := h
  have hopen : Leads table text ⟨.next, k⟩ ⟨.comment, k.latch.pass ['/', '/']⟩ := by
    apply dispatch h
    show k.latch.onward.matchChar text '/' >>= _ = _
    rw [hlatch.onward.matchChar_found, Cursor.onward_eq_pass k.latch (c := '/') (by decide),
      Cursor.onward_eq_pass _ (c := '/') (by decide), Cursor.pass_pass]
    rfl
  have hloop := run table turn_comment (k := k.latch.pass ['/', '/'])
    (Cursor.Sees.pass (w := ['/', '/']) hlatch) (Shape.bne_of_notMem hbody)
  have hend : (k.latch.pass ('/' :: '/' :: body)).Sees text rest := Cursor.Sees.pass hlatch
  have htest : ¬ ((k.latch.pass ('/' :: '/' :: body)).peek text ≠ '\n' ∧
      ¬ (k.latch.pass ('/' :: '/' :: body)).atEnd text = true) := by
    rw [hend.peek, hend.atEnd]
    intro hboth
    cases rest with
    | nil => exact hboth.2 rfl
    | cons d rest => exact hboth.1 (by simpa using hr)
  rw [Cursor.pass_pass] at hloop
  rw [← Cursor.pass_eq_put table (k := k) (p := ⟨.comment, '/', '/' :: body⟩) rfl rfl]
  refine (hopen.trans hloop).trans (one ?_)
  show (k.latch.pass ('/' :: '/' :: body)).stepComment text = _
  rw [Cursor.stepComment, if_neg htest]
  rfl

/-- The value of a string is the stretch between its quotes. -/
theorem stretch_inner (h : k.Sees text ('"' :: body ++ '"' :: rest)) :
    stretch text (k.here.offset + 1) (k.here.after ('"' :: body)).offset = .ok body := by
  have h : text.drop k.here.offset = '"' :: body ++ '"' :: rest := h
  have hlen := congrArg List.length h
  have hdrop : text.drop (k.here.offset + 1) = body ++ '"' :: rest := by
    rw [← List.drop_drop, h]
    rfl
  rw [List.length_drop, List.length_append, List.length_cons, List.length_cons] at hlen
  rw [Position.offset_after, List.length_cons,
    Cursor.stretch_of_le (by omega) (by omega), List.drop_take, hdrop]
  have hcount : k.here.offset + (body.length + 1) - (k.here.offset + 1) = body.length := by omega
  rw [hcount, List.take_left]

theorem quote (table : ReservedWords) (hbody : '"' ∉ body) (h : k.Sees text ('"' :: body ++ rest)) :
    Leads table text ⟨.next, k⟩ ⟨.string, k.latch.pass ('"' :: body)⟩ ∧
      (k.latch.pass ('"' :: body)).Sees text rest := by
  have hopen : Leads table text ⟨.next, k⟩ ⟨.string, k.latch.pass ['"']⟩ := dispatch h rfl
  have hloop := run table turn_string (k := k.latch.pass ['"'])
    (Cursor.Sees.pass (w := ['"']) h) (Shape.bne_of_notMem hbody)
  rw [Cursor.pass_pass] at hloop
  exact ⟨hopen.trans hloop, Cursor.Sees.pass (k := k.latch) h⟩

theorem unterminated (hbody : '"' ∉ body) (h : k.Sees text ('"' :: body ++ [])) :
    Leads table text ⟨.next, k⟩ ⟨.next, k.put table ⟨.unterminated, '"', body⟩⟩ := by
  obtain ⟨hloop, hend⟩ := quote table hbody h
  have hatEnd : (k.latch.pass ('"' :: body)).atEnd text = true := by rw [hend.atEnd]; rfl
  rw [← Cursor.report_eq_put table (k := k) (p := ⟨.unterminated, '"', body⟩) rfl]
  refine hloop.trans (one ?_)
  show (k.latch.pass ('"' :: body)).stepString text = _
  rw [Cursor.stepString, if_neg (fun hboth => hboth.2 hatEnd), if_pos hatEnd]
  rfl

theorem string (hbody : '"' ∉ body) (h : k.Sees text ('"' :: (body ++ ['"']) ++ rest)) :
    Leads table text ⟨.next, k⟩ ⟨.next, k.put table ⟨.string, '"', body ++ ['"']⟩⟩ := by
  have hparts : k.Sees text ('"' :: body ++ '"' :: rest) := by simpa using h
  obtain ⟨hloop, hclose⟩ := quote table hbody hparts
  have htest : ¬ ((k.latch.pass ('"' :: body)).peek text ≠ '"' ∧
      ¬ (k.latch.pass ('"' :: body)).atEnd text = true) := by
    rw [hclose.peek]
    exact fun hboth => hboth.1 rfl
  have hatEnd : ¬ (k.latch.pass ('"' :: body)).atEnd text = true := by
    rw [hclose.atEnd]
    exact nofun
  have hvalue := stretch_inner hparts
  have hless : oneLess (k.here.after ('"' :: body ++ ['"'])).offset =
      .ok (k.here.after ('"' :: body)).offset := by
    rw [Position.after_append, Position.after_cons, Position.after_nil, Position.offset_advance]
    rfl
  have hliteral : Piece.literal? ⟨.string, '"', body ++ ['"']⟩ =
      some (.string (String.ofList body)) := by
    simp [Piece.literal?]
  have hadd := Cursor.add_eq_put table (k := k) (p := ⟨.string, '"', body ++ ['"']⟩)
    rfl (by simp) h
  rw [hliteral] at hadd
  refine hloop.trans (one ?_)
  show (k.latch.pass ('"' :: body)).stepString text = _
  rw [Cursor.stepString, if_neg htest, if_neg hatEnd, hclose.advance,
    Cursor.onward_eq_pass (c := '"') _ (by decide), Cursor.pass_pass]
  show oneLess (k.here.after ('"' :: body ++ ['"'])).offset >>= _ = _
  rw [hless]
  show stretch text (k.here.offset + 1) (k.here.after ('"' :: body)).offset >>= _ = _
  rw [hvalue]
  exact hadd

/-! Operators -/

section

variable {m second : Char} {w : List Char} {op double single : Operator}

/-- A mark that is an operator by itself, whatever follows. -/
theorem mark (hw : c :: w ∈ [[m]]) (hm : m ≠ '\n')
    (hd : ∀ k : Cursor, k.dispatch text m = k.add text (.operator op) none)
    (h : k.Sees text (c :: w ++ rest)) :
    Leads table text ⟨.next, k⟩ ⟨.next, k.put table ⟨.operator op, c, w⟩⟩ := by
  obtain ⟨rfl, rfl⟩ := List.cons.inj (List.mem_singleton.mp hw)
  apply dispatch h
  rw [hd, Cursor.onward_eq_pass _ hm]
  exact Cursor.add_eq_put table (p := ⟨.operator op, c, []⟩) rfl (by simp) h

/-- A mark without the second one that would make it another operator. -/
theorem markSingle (hw : c :: w ∈ [[m]]) (hm : m ≠ '\n')
    (hd : ∀ k : Cursor, k.dispatch text m = k.addWith text second double single)
    (hlonger : [m, second] ∈ Operator.spellings.map Prod.fst)
    (hr : ∀ d ∈ rest.head?, ¬ Operator.Continues (c :: w) d) (h : k.Sees text (c :: w ++ rest)) :
    Leads table text ⟨.next, k⟩ ⟨.next, k.put table ⟨.operator single, c, w⟩⟩ := by
  obtain ⟨rfl, rfl⟩ := List.cons.inj (List.mem_singleton.mp hw)
  have hon : (k.latch.pass [c]).Sees text rest := Cursor.Sees.pass (k := k.latch) (w := [c]) h
  have hmissed := hon.matchChar_missed (c := second) fun he => hr second he (.inl hlonger)
  apply dispatch h
  rw [hd, Cursor.onward_eq_pass _ hm, Cursor.addWith, hmissed]
  exact Cursor.add_eq_put table (p := ⟨.operator single, c, []⟩) rfl (by simp) h

theorem markDouble (hw : c :: w ∈ [[m, second]]) (hm : m ≠ '\n') (hs : second ≠ '\n')
    (hd : ∀ k : Cursor, k.dispatch text m = k.addWith text second double single)
    (h : k.Sees text (c :: w ++ rest)) :
    Leads table text ⟨.next, k⟩ ⟨.next, k.put table ⟨.operator double, c, w⟩⟩ := by
  obtain ⟨rfl, rfl⟩ := List.cons.inj (List.mem_singleton.mp hw)
  have hon : (k.latch.pass [c]).Sees text (second :: rest) :=
    Cursor.Sees.pass (k := k.latch) (w := [c]) h
  apply dispatch h
  rw [hd, Cursor.onward_eq_pass _ hm, Cursor.addWith, hon.matchChar_found,
    Cursor.onward_eq_pass _ hs, Cursor.pass_pass]
  exact Cursor.add_eq_put table (p := ⟨.operator double, c, [second]⟩) rfl (by simp) h

theorem slash (hr : rest.head? ≠ some '/') (h : k.Sees text (['/'] ++ rest)) :
    Leads table text ⟨.next, k⟩ ⟨.next, k.put table ⟨.operator .slash, '/', []⟩⟩ := by
  have hon : (k.latch.pass ['/']).Sees text rest := Cursor.Sees.pass (k := k.latch) h
  apply dispatch h
  rw [Cursor.onward_eq_pass (c := '/') _ (by decide)]
  show (k.latch.pass ['/']).matchChar text '/' >>= _ = _
  rw [hon.matchChar_missed hr]
  exact Cursor.add_eq_put table (p := ⟨.operator .slash, '/', []⟩) rfl (by simp) h

end

theorem colonLoop (table : ReservedWords) (op : Operator) {w : List Char} (hw : '\n' ∉ w)
    (h : k.Sees text (w ++ rest)) :
    Leads table text ⟨.colon op w.length, k⟩ ⟨.colon op 0, k.pass w⟩ := by
  induction w generalizing k with
  | nil => exact Relation.ReflTransGen.refl
  | cons c w ih =>
    obtain ⟨hc, hw⟩ : '\n' ≠ c ∧ '\n' ∉ w := by simpa using hw
    have hrest := ih hw (Cursor.Sees.pass (w := [c]) h)
    rw [Cursor.pass_pass] at hrest
    refine (one ?_).trans hrest
    have h : k.Sees text (c :: (w ++ rest)) := h
    exact h.taken (Ne.symm hc) (.colon op w.length)

theorem colons {op : Operator} {w : List Char} (hw : '\n' ∉ w)
    (hkind : colonKind ((w ++ rest).head?.getD Cursor.sentinel)
      ((w ++ rest)[1]?.getD Cursor.sentinel) = (op, w.length))
    (h : k.Sees text (':' :: w ++ rest)) :
    Leads table text ⟨.next, k⟩ ⟨.next, k.put table ⟨.operator op, ':', w⟩⟩ := by
  have hon : (k.latch.pass [':']).Sees text (w ++ rest) :=
    Cursor.Sees.pass (k := k.latch) (w := [':']) h
  have hopen : Leads table text ⟨.next, k⟩ ⟨.colon op w.length, k.latch.pass [':']⟩ := by
    apply dispatch h
    rw [Cursor.onward_eq_pass (c := ':') _ (by decide)]
    rw [← hon.peek, ← hon.peekNext] at hkind
    show Except.ok (Walk.mk (.colon (colonKind _ _).1 (colonKind _ _).2) _) = _
    rw [hkind]
  have hloop := colonLoop table op hw hon
  rw [Cursor.pass_pass] at hloop
  refine (hopen.trans hloop).trans (one ?_)
  exact Cursor.add_eq_put table (p := ⟨.operator op, ':', w⟩) rfl (by simp) h

theorem getD_ne (hr : rest.head? ≠ some c) (hc : Cursor.sentinel ≠ c) :
    rest.head?.getD Cursor.sentinel ≠ c := by
  cases rest with
  | nil => exact hc
  | cons d rest => exact fun he => hr (congrArg some he)

theorem colonKind_of_ne {a : Char} (ha : a ≠ ':') (b : Char) : colonKind a b = (.colon, 0) := by
  unfold colonKind
  split
  · exact absurd rfl ha
  · exact absurd rfl ha
  · rfl

theorem colonKind_colon {b : Char} (hb : b ≠ '=') : colonKind ':' b = (.colon, 1) := by
  unfold colonKind
  split
  · exact absurd rfl hb
  · rfl
  · next h _ => exact absurd rfl h

theorem colon {w : List Char} (hw : c :: w ∈ Operator.colon.texts)
    (hr : ∀ d ∈ rest.head?, ¬ Operator.Continues (c :: w) d) (h : k.Sees text (c :: w ++ rest)) :
    Leads table text ⟨.next, k⟩ ⟨.next, k.put table ⟨.operator .colon, c, w⟩⟩ := by
  rcases List.mem_cons.mp hw with hw | hw
  · obtain ⟨rfl, rfl⟩ := List.cons.inj hw
    have hne := getD_ne (fun he => hr ':' he (.inl (by decide))) (by decide)
    exact colons (by decide) (colonKind_of_ne hne _) h
  · obtain ⟨rfl, rfl⟩ := List.cons.inj (List.mem_singleton.mp hw)
    have hne := getD_ne (fun he => hr '=' he (.inl (by decide))) (by decide)
    rw [List.head?_eq_getElem?] at hne
    exact colons (by decide) (colonKind_colon hne) h

theorem operator {op : Operator} {w : List Char} (hw : (c :: w, op) ∈ Operator.spellings)
    (hr : ∀ d ∈ rest.head?, ¬ Operator.Continues (c :: w) d) (h : k.Sees text (c :: w ++ rest)) :
    Leads table text ⟨.next, k⟩ ⟨.next, k.put table ⟨.operator op, c, w⟩⟩ := by
  rw [← Operator.mem_texts_iff] at hw
  cases op with
  | leftParen => exact mark hw (by decide) (fun _ => rfl) h
  | rightParen => exact mark hw (by decide) (fun _ => rfl) h
  | leftBrace => exact mark hw (by decide) (fun _ => rfl) h
  | rightBrace => exact mark hw (by decide) (fun _ => rfl) h
  | comma => exact mark hw (by decide) (fun _ => rfl) h
  | minus => exact mark hw (by decide) (fun _ => rfl) h
  | plus => exact mark hw (by decide) (fun _ => rfl) h
  | semicolon => exact mark hw (by decide) (fun _ => rfl) h
  | star => exact mark hw (by decide) (fun _ => rfl) h
  | verticalLine => exact mark hw (by decide) (fun _ => rfl) h
  | dot => exact markSingle hw (by decide) (fun _ => rfl) (by decide) hr h
  | bang => exact markSingle hw (by decide) (fun _ => rfl) (by decide) hr h
  | equal => exact markSingle hw (by decide) (fun _ => rfl) (by decide) hr h
  | less => exact markSingle hw (by decide) (fun _ => rfl) (by decide) hr h
  | greater => exact markSingle hw (by decide) (fun _ => rfl) (by decide) hr h
  | rangeSeparator => exact markDouble hw (by decide) (by decide) (fun _ => rfl) h
  | bangEqual => exact markDouble hw (by decide) (by decide) (fun _ => rfl) h
  | equalEqual => exact markDouble hw (by decide) (by decide) (fun _ => rfl) h
  | lessEqual => exact markDouble hw (by decide) (by decide) (fun _ => rfl) h
  | greaterEqual => exact markDouble hw (by decide) (by decide) (fun _ => rfl) h
  | slash =>
    obtain ⟨rfl, rfl⟩ := List.cons.inj (List.mem_singleton.mp hw)
    exact slash (fun he => hr '/' he (.inr ⟨rfl, rfl⟩)) h
  | assignment =>
    obtain ⟨rfl, rfl⟩ := List.cons.inj (List.mem_singleton.mp hw)
    exact colons (by decide) rfl h
  | colon => exact colon hw hr h

/-! The whole text -/

/-- **One piece.** A walk that begins a piece comes to its end with what the piece gives. -/
theorem piece (hcut : Cut p rest) (h : k.Sees text (p.text ++ rest)) :
    Leads table text ⟨.next, k⟩ ⟨.next, k.put table p⟩ := by
  cases hcut with
  | blank hc => exact blank hc h
  | string hb => exact string hb h
  | unterminated hb => exact unterminated hb h
  | whole hc hds hr hp => exact whole hc hds hr hp h
  | fraction hc hds hf hfs hr => exact fraction hc hds hf hfs hr h
  | name hc hds hr => exact name hc hds hr h
  | comment hb hr => exact comment hb hr h
  | operator hw hr => exact operator hw hr h
  | unexpected hc => exact unexpected hc h

/-- From any place on, a walk is done with the tokens, diagnostics and events of the scan. -/
theorem scan (table : ReservedWords) (rest : List Char) (h : k.Sees text rest) :
    ∃ s, Leads table text ⟨.next, k⟩ s ∧ s.control = .done ∧
      s.cursor.tokens = k.tokens ++ Scan.tokensFrom table k.here rest ∧
      s.cursor.diagnostics = k.diagnostics ++ Scan.diagnosticsFrom k.here rest ∧
      s.cursor.events = k.events ++ Scan.eventsFrom table k.here rest ++
        [.scanFinished s.cursor.tokens.length s.cursor.diagnostics.length
          (k.here.after rest).line] := by
  induction rest using Piece.cut_induction generalizing k with
  | nil =>
    have hend : Walk.step table text ⟨.next, k⟩ = .ok k.finish := by
      refine if_pos ?_
      rw [h.atEnd]
      rfl
    refine ⟨k.finish, one hend, rfl, ?_, ?_, ?_⟩
    · rw [Scan.tokensFrom_nil]
      rfl
    · rw [Scan.diagnosticsFrom_nil, List.append_nil]
      rfl
    · rw [Scan.eventsFrom_nil, List.append_nil]
      rfl
  | cut p rest hcut ih =>
    have hsees : (k.put table p).Sees text rest := Cursor.Sees.pass (k := k) h
    obtain ⟨s, hleads, hdone, htokens, hdiagnostics, hevents⟩ := ih hsees
    refine ⟨s, (piece hcut h).trans hleads, hdone, ?_, ?_, ?_⟩
    · rw [htokens, Scan.tokensFrom_cut table _ hcut, ← List.append_assoc]
      rfl
    · rw [hdiagnostics, Scan.diagnosticsFrom_cut _ hcut, ← List.append_assoc]
      rfl
    · rw [hevents, Scan.eventsFrom_cut table _ hcut, Position.after_append, ← List.append_assoc]
      rfl

theorem exists_after {s : Walk} (h : Leads table text Walk.begin s) :
    ∃ n, Walk.after table text n = .ok s := by
  induction h with
  | refl => exact ⟨0, rfl⟩
  | tail _ hstep ih =>
    obtain ⟨n, hn⟩ := ih
    exact ⟨n + 1, by rw [Walk.after_succ hn, hstep]⟩

end Leads

/-- **A walk is done with the scan**, after at most three steps for each character, and two. -/
theorem Walk.finishes_scan (table : ReservedWords) (text : List Char) :
    ∃ s, after table text (3 * text.length + 2) = .ok s ∧ s.control = .done ∧
      s.cursor.tokens = (Scan.ofChars table text).tokens ∧
      s.cursor.diagnostics = (Scan.ofChars table text).diagnostics ∧
      s.cursor.events = Scan.events table text := by
  have hsees : begin.cursor.Sees text text := rfl
  obtain ⟨s, hleads, hdone, htokens, hdiagnostics, hevents⟩ := Leads.scan table text hsees
  rw [htokens, hdiagnostics] at hevents
  obtain ⟨n, hn⟩ := Leads.exists_after hleads
  obtain ⟨t, ht, _⟩ := exists_after table text (3 * text.length + 2)
  -- a walk that is done stays as it is, so both ends are one
  have hlater := after_of_done hn hdone (Nat.le_max_left n (3 * text.length + 2))
  rw [after_of_done ht (done_of_after ht) (Nat.le_max_right n (3 * text.length + 2))] at hlater
  obtain rfl := Except.ok.inj hlater
  exact ⟨t, ht, hdone, htokens, hdiagnostics, hevents⟩

/-- A walk through a text is safe, and gives a scan. -/
structure WalksSafely (table : ReservedWords) (text : List Char) (scan : Scan) : Prop where
  /-- No step is trapped: no character is read beyond the text, no stretch is out of
  range, and nothing is counted below zero. -/
  noTrap : ∀ n, ∃ s, Walk.after table text n = .ok s
  /-- At all times the piece starts not after the cursor, and the cursor stands in the
  text; lines and columns are no more than its characters and one. -/
  bounds : ∀ n s, Walk.after table text n = .ok s →
    s.cursor.start.offset ≤ s.cursor.here.offset ∧ s.cursor.here.offset ≤ text.length ∧
      s.cursor.here.line ≤ text.length + 1 ∧ s.cursor.here.column ≤ text.length + 1
  /-- Between the beginnings of two pieces the cursor moves. -/
  progress : ∀ n m s s', n < m → Walk.after table text n = .ok s →
    Walk.after table text m = .ok s' → s.control = .next → s'.control = .next →
    s.cursor.here.offset < s'.cursor.here.offset
  /-- From within any loop a walk comes back to the beginning of a piece. -/
  loopsEnd : ∀ n s, Walk.after table text n = .ok s → s.control ≠ .done →
    ∃ m s', n ≤ m ∧ Walk.after table text m = .ok s' ∧ s'.control = .next
  /-- The walk is done after a bounded number of steps, with the scan and its events. -/
  finishes : ∃ s, Walk.after table text (3 * text.length + 2) = .ok s ∧ s.control = .done ∧
    s.cursor.tokens = scan.tokens ∧ s.cursor.diagnostics = scan.diagnostics ∧
    s.cursor.events = Scan.events table text

/-- **A walk is safe and gives the scan**, for every source and every table of reserved
words. -/
theorem walksSafely_scan (table : ReservedWords) (source : String) :
    WalksSafely table source.toList (Scan.ofSource table source) where
  noTrap := by
    intro n
    obtain ⟨s, hs, _⟩ := Walk.exists_after table source.toList n
    exact ⟨s, hs⟩
  bounds := by
    intro n s hs
    obtain ⟨hstart, hlength, hline, hcolumn⟩ := (Walk.sound_of_after hs).cursor
    exact ⟨hstart, hlength, by omega, by omega⟩
  progress := by
    intro n m s s' hlt hs hs' hnext hnext'
    exact Walk.offset_lt_of_after hs hlt hs' hnext hnext'
  loopsEnd := fun n s hs hdone => Walk.exists_next_of_after hs hdone
  finishes := Walk.finishes_scan table source.toList

end SeqScan
