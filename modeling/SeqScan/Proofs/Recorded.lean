import SeqScan.Event
import SeqScan.Proofs.Words

/-
  What the log of a scan tells.

  A scan gives two lists, in which nothing says how the tokens and the diagnostics
  stand to each other. The log has one entry after the other, while the scan goes.
  Still the log is fixed by the two lists: merge them in the order of their places,
  which is strict, and tell each in turn. A diagnostic and a token are one entry each,
  and the token of a reserved word has one more before it. The last entry, and only
  it, sums up.

  What is proved:
    1. `Position.before_after`: a text moves its place on, in line or in column.
    2. `Merged.unique`: there is one way to merge the two lists.
    3. `records_events`: pieces are told as what they are found to be.
    4. `recorded_events`: the log of every scan.
-/

namespace SeqScan

/-! What is found -/

/-- What a scan finds: a token, or something wrong. -/
inductive Finding where
  | token (t : Token)
  | fault (d : Diagnostic)
  deriving DecidableEq, Repr

namespace Finding

def line : Finding → Nat
  | token t => t.span.line
  | fault d => d.line

def column : Finding → Nat
  | token t => t.span.column
  | fault d => d.column

def token? : Finding → Option Token
  | token t => some t
  | fault _ => none

def fault? : Finding → Option Diagnostic
  | token _ => none
  | fault d => some d

def Before (x y : Finding) : Prop := x.line < y.line ∨ x.line = y.line ∧ x.column < y.column

end Finding

/-- The tokens of a scan, but the last, and its diagnostics are merged in the order of
their places. -/
structure Merged (s : Scan) (findings : List Finding) : Prop where
  tokens : findings.filterMap Finding.token? = s.words
  diagnostics : findings.filterMap Finding.fault? = s.diagnostics
  increasing : findings.Pairwise Finding.Before

/-! What is told -/

abbrev Entry := String × List (String × FieldValue)

def Event.entry (e : Event) : Entry := (e.message, e.fields)

def Token.entry (t : Token) : Entry :=
  ("token", [("token", .shown t.text), ("line", .count t.span.line)])

/-- The entries that tell of what is found, in turn. -/
inductive Records (table : ReservedWords) : List Finding → List Entry → Prop where
  | nil : Records table [] []
  | fault {d findings entries} (others : Records table findings entries) :
    Records table (.fault d :: findings) (("diagnostic", [("error", .shown d.text)]) :: entries)
  | token {t findings entries} (plain : t.kind ≠ .reserveWord)
    (others : Records table findings entries) :
    Records table (.token t :: findings) (t.entry :: entries)
  /-- The token of a reserved word comes after the kind that the table gives its lexeme. -/
  | reserved {t kind findings entries} (word : t.kind = .reserveWord)
    (held : table.get? t.lexeme = some kind) (others : Records table findings entries) :
    Records table (.token t :: findings)
      (("reserved word", [("keyword", .shown kind.title), ("line", .count t.span.line)]) ::
        t.entry :: entries)

/-- The entries of a log are a record of the scan of a text. -/
structure Recorded (table : ReservedWords) (text : List Char) (s : Scan) (entries : List Entry) :
    Prop where
  /-- What is found is told in the one order of its places, and then the scan is summed up. -/
  told : ∃ findings told, Merged s findings ∧
    (∀ others, Merged s others → others = findings) ∧ Records table findings told ∧
    entries = told ++ [("scan finished", [("tokens", .count s.tokens.length),
      ("diagnostics", .count s.diagnostics.length), ("lines", .count (1 + text.count '\n'))])]
  /-- The scan is summed up once. -/
  once : entries.countP (·.1 = "scan finished") = 1
  /-- The last token stands on the last line. -/
  last : ∃ t, s.tokens.getLast? = some t ∧ t.kind = .eof ∧ t.span.line = 1 + text.count '\n'

/-! One order -/

namespace Finding

theorem token?_eq_some_iff {x : Finding} {t : Token} : x.token? = some t ↔ x = token t := by
  cases x <;> simp [token?]

theorem fault?_eq_some_iff {x : Finding} {d : Diagnostic} : x.fault? = some d ↔ x = fault d := by
  cases x <;> simp [fault?]

theorem Before.asymm {x y : Finding} (h : Before x y) : ¬ Before y x := by
  unfold Before at *
  omega

theorem Before.ne {x y : Finding} (h : Before x y) : x ≠ y := by
  rintro rfl
  exact h.asymm h

end Finding

namespace Merged

variable {s : Scan} {findings others : List Finding}

theorem token_mem_iff (h : Merged s findings) {t : Token} :
    .token t ∈ findings ↔ t ∈ s.words := by
  rw [← h.tokens, List.mem_filterMap]
  simp only [Finding.token?_eq_some_iff, exists_eq_right]

theorem fault_mem_iff (h : Merged s findings) {d : Diagnostic} :
    .fault d ∈ findings ↔ d ∈ s.diagnostics := by
  rw [← h.diagnostics, List.mem_filterMap]
  simp only [Finding.fault?_eq_some_iff, exists_eq_right]

/-- **There is one way to merge** tokens and diagnostics in the order of their places. -/
theorem unique (h : Merged s findings) (h' : Merged s others) : findings = others := by
  have hmem : ∀ x, x ∈ findings ↔ x ∈ others := by
    intro x
    cases x with
    | token t => rw [h.token_mem_iff, h'.token_mem_iff]
    | fault d => rw [h.fault_mem_iff, h'.fault_mem_iff]
  have hnodup : findings.Nodup := h.increasing.imp Finding.Before.ne
  have hnodup' : others.Nodup := h'.increasing.imp Finding.Before.ne
  refine List.Perm.eq_of_pairwise ?_ h.increasing h'.increasing
    ((List.perm_ext_iff_of_nodup hnodup hnodup').mpr hmem)
  intro x y _ _ hxy hyx
  exact absurd hyx hxy.asymm

end Merged

/-! Places go on -/

namespace Position

def Before (p q : Position) : Prop := p.line < q.line ∨ p.line = q.line ∧ p.column < q.column

theorem Before.trans {p q r : Position} (h : Before p q) (h' : Before q r) : Before p r := by
  unfold Before at *
  omega

theorem before_advance (p : Position) (c : Char) : Before p (p.advance c) := by
  unfold Before advance
  split
  · exact .inl (Nat.lt_succ_self _)
  · exact .inr ⟨rfl, Nat.lt_succ_self _⟩

theorem before_after (p : Position) (c : Char) (text : List Char) :
    Before p (p.after (c :: text)) := by
  induction text generalizing p c with
  | nil => exact before_advance p c
  | cons d text ih => exact (before_advance p c).trans (ih (p.advance c) d)

end Position

namespace Placed

theorem pairwise_place (pos : Position) (pieces : List Piece) :
    (place pos pieces).Pairwise (fun p q => p.start.Before q.start) ∧
      ∀ p ∈ place pos pieces, p.start = pos ∨ pos.Before p.start := by
  induction pieces generalizing pos with
  | nil => exact ⟨.nil, by simp [place]⟩
  | cons piece rest ih =>
    obtain ⟨hpairs, hlater⟩ := ih (pos.after piece.text)
    have hnext : pos.Before (pos.after piece.text) :=
      Position.before_after pos piece.first piece.rest
    have hrest : ∀ p ∈ place (pos.after piece.text) rest, pos.Before p.start := by
      intro p hp
      rcases hlater p hp with heq | hbefore
      · rw [heq]
        exact hnext
      · exact hnext.trans hbefore
    refine ⟨List.pairwise_cons.mpr ⟨hrest, hpairs⟩, ?_⟩
    intro p hp
    rcases List.mem_cons.mp hp with rfl | hp
    · exact .inl rfl
    · exact .inr (hrest p hp)

/-! What a piece is found to be -/

variable {table : ReservedWords} {p : Placed}

/-- What is found of a piece, if anything is. -/
def finding? (table : ReservedWords) (p : Placed) : Option Finding :=
  match p.token? table with
  | some t => some (.token t)
  | none => p.diagnostic?.map .fault

theorem diagnostic?_of_token? {t : Token} (h : p.token? table = some t) :
    p.diagnostic? = none := by
  cases hd : p.piece.fault? with
  | none => exact diagnostic?_of_no_fault hd p.start
  | some fault =>
    rw [token?_of_fault hd table p.start] at h
    cases h

theorem finding?_bind_token? : (p.finding? table).bind Finding.token? = p.token? table := by
  unfold finding?
  cases p.token? table with
  | some t => rfl
  | none => cases p.diagnostic? <;> rfl

theorem finding?_bind_fault? : (p.finding? table).bind Finding.fault? = p.diagnostic? := by
  unfold finding?
  cases ht : p.token? table with
  | some t =>
    rw [diagnostic?_of_token? ht]
    rfl
  | none => cases p.diagnostic? <;> rfl

theorem start_of_finding? {x : Finding} (h : p.finding? table = some x) :
    x.line = p.start.line ∧ x.column = p.start.column := by
  unfold finding? at h
  split at h
  next t ht =>
    obtain ⟨_, hspan⟩ := span_of_token? ht
    rw [← Option.some.inj h, Finding.line, Finding.column, hspan]
    exact ⟨rfl, rfl⟩
  next =>
    obtain ⟨d, hd, rfl⟩ := Option.map_eq_some_iff.mp h
    obtain ⟨fault, _, rfl⟩ := Option.map_eq_some_iff.mp hd
    exact ⟨rfl, rfl⟩

end Placed

/-! Pieces in the log -/

theorem Piece.kind?_eq_reserveWord_iff {table : ReservedWords} {p : Piece} :
    p.kind? table = some .reserveWord ↔
      p.shape = .name ∧ ∃ kind, table.get? p.lexeme = some kind := by
  rw [← ReservedWords.contains_iff,
    ← ReservedWords.tokenKind_classify_eq_reserveWord_iff p.first, ← nameClass]
  unfold kind?
  cases p.shape <;> simp

namespace Placed

variable {table : ReservedWords} {p : Placed}

theorem reserved?_of_word {kind : TokenKind} (hshape : p.piece.shape = .name)
    (hheld : table.get? p.piece.lexeme = some kind) :
    p.reserved? table = some (.reservedWord kind p.start.line) := by
  rw [reserved?, hshape]
  show (p.piece.nameClass table).event? p.start.line = _
  rw [Piece.nameClass, ReservedWords.classify_of_get? hheld]
  rfl

theorem kind?_of_token? {t : Token} (h : p.token? table = some t) :
    p.piece.kind? table = some t.kind := by
  obtain ⟨kind, hkind, rfl⟩ := Option.map_eq_some_iff.mp h
  exact hkind

theorem records_cons {findings : List Finding} {entries : List Entry}
    (hothers : Records table findings entries) :
    Records table ((p.finding? table).toList ++ findings)
      ((p.events table).map Event.entry ++ entries) := by
  unfold finding? events
  cases ht : p.token? table with
  | some t =>
    obtain ⟨hlexeme, hspan⟩ := span_of_token? ht
    have hline : t.span.line = p.start.line := by rw [hspan, span]
    rw [diagnostic?_of_token? ht]
    by_cases hword : t.kind = .reserveWord
    · have hkind := kind?_of_token? ht
      rw [hword] at hkind
      obtain ⟨hshape, kind, hheld⟩ := Piece.kind?_eq_reserveWord_iff.mp hkind
      rw [reserved?_of_word hshape hheld, ← hline]
      exact .reserved hword (hlexeme ▸ hheld) hothers
    · have hplain : p.piece.kind? table ≠ some .reserveWord := by
        rwa [kind?_of_token? ht, ne_eq, Option.some_inj]
      rw [reserved?_of_ne hplain]
      exact .token hword hothers
  | none =>
    have hplain : p.piece.kind? table ≠ some .reserveWord := by
      rw [Option.map_eq_none_iff.mp ht]
      exact (Option.some_ne_none _).symm
    rw [reserved?_of_ne hplain]
    cases p.diagnostic? with
    | some d => exact .fault hothers
    | none => exact hothers

/-- **Pieces are told as what they are found to be**, in their order. -/
theorem records_events (table : ReservedWords) (pieces : List Placed) :
    Records table (pieces.filterMap (finding? table))
      ((pieces.flatMap (events table)).map Event.entry) := by
  induction pieces with
  | nil => exact .nil
  | cons p rest ih =>
    have hstep := records_cons (p := p) ih
    rw [List.flatMap_cons, List.map_append, List.filterMap_cons]
    cases hp : p.finding? table <;> rwa [hp] at hstep

end Placed

/-! The whole log -/

namespace Scan

theorem merged_findings (table : ReservedWords) (text : List Char) :
    Merged (ofChars table text) ((Placed.ofText text).filterMap (Placed.finding? table)) where
  tokens := by
    rw [List.filterMap_filterMap, words, filter_tokens]
    exact congrArg (List.filterMap · _) (funext fun _ => Placed.finding?_bind_token?)
  diagnostics := by
    rw [List.filterMap_filterMap]
    exact congrArg (List.filterMap · _) (funext fun _ => Placed.finding?_bind_fault?)
  increasing := by
    refine List.Pairwise.filterMap _ ?_ (Placed.pairwise_place .first (Piece.pieces text)).1
    intro p q hpq x hx y hy
    obtain ⟨hxline, hxcolumn⟩ := Placed.start_of_finding? hx
    obtain ⟨hyline, hycolumn⟩ := Placed.start_of_finding? hy
    rw [Finding.Before, hxline, hyline, hxcolumn, hycolumn]
    exact hpq

end Scan

theorem Records.countP_finished {table : ReservedWords} {findings : List Finding}
    {entries : List Entry} (h : Records table findings entries) :
    entries.countP (·.1 = "scan finished") = 0 := by
  induction h with
  | nil => rfl
  | fault _ ih => simpa using ih
  | token _ _ ih => simpa [Token.entry] using ih
  | reserved _ _ _ ih => simpa [Token.entry] using ih

theorem Scan.recorded (table : ReservedWords) (source : String) :
    Recorded table source.toList (ofSource table source)
      ((events table source.toList).map Event.entry) := by
  have hline : (Position.first.after source.toList).line = 1 + source.toList.count '\n' :=
    Position.line_after .first source.toList
  have hmerged := merged_findings table source.toList
  have hrecords := Placed.records_events table (Placed.ofText source.toList)
  rw [events, finished, hline, List.map_append]
  exact {
    told := ⟨_, _, hmerged, fun _ h => h.unique hmerged, hrecords, rfl⟩
    once := by
      rw [List.countP_append, hrecords.countP_finished]
      rfl
    last := ⟨_, getLast?_tokens table source.toList, rfl, hline⟩ }

/-- **The log of a scan is a record of it**, for every source and every table of reserved
words. -/
theorem recorded_events (table : ReservedWords) (source : String) :
    Recorded table source.toList (Scan.ofSource table source)
      ((Scan.events table source.toList).map Event.entry) :=
  Scan.recorded table source

end SeqScan
