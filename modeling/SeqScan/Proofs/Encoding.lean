import SeqScan.Text.Lines

/-
  Bytes that encode a text.

  A character stands for one to four bytes. Those of an ASCII character are its number
  alone, and those of any other are all 128 or more, so a line feed or a carriage return
  among the bytes is one of the text. Hence bytes may be cut into lines before they are
  decoded or after.

  What is proved:
    1. `decode?_eq_some_iff`: bytes are decoded to a text if they encode it, and only then.
    2. `lines_flatMap`: lines are cut before a code is applied as after it, for every code
       that keeps the two characters of a line's end apart from all others.
    3. `map_decode?_byteLines`: the lines of the bytes of a text decode to its lines.
-/

namespace SeqScan

namespace Text

def encode (text : List Char) : List UInt8 := text.flatMap String.utf8EncodeChar

theorem toByteArray_encode (text : List Char) : (encode text).toByteArray = text.utf8Encode := rfl

theorem decode?_eq_some_iff {bytes : List UInt8} {text : String} :
    decode? bytes = some text ↔ bytes = encode text.toList := by
  rw [← List.toByteArray_inj, toByteArray_encode, String.utf8Encode_toList, decode?,
    String.fromUTF8?]
  constructor
  · intro h
    split at h
    · rw [← Option.some.inj h]
      rfl
    · cases h
  · intro h
    rw [h, dif_pos text.isValidUTF8]
    rfl

theorem decode?_encode (text : List Char) : decode? (encode text) = some (String.ofList text) := by
  rw [decode?_eq_some_iff, String.toList_ofList]

/-! Bytes of one character -/

theorem encodeChar_ascii {c : Char} (h : c.toNat < 128) :
    String.utf8EncodeChar c = [UInt8.ofNat c.toNat] := by
  have hv : c.val.toNat ≤ 127 := Nat.le_of_lt_succ h
  simp only [String.utf8EncodeChar, hv, if_true]
  rfl

theorem encodeChar_other {c : Char} (h : 128 ≤ c.toNat) :
    ∀ b ∈ String.utf8EncodeChar c, 128 ≤ b.toNat := by
  have hv : ¬ c.val.toNat ≤ 127 := Nat.not_le.mpr h
  simp only [String.utf8EncodeChar, hv, if_false]
  split
  · simp
    omega
  · split
    · simp
      omega
    · simp
      omega

/-- A byte below 128 is the number of the character that it belongs to. -/
theorem toNat_of_mem_encodeChar {c : Char} {b : UInt8} (h : b ∈ String.utf8EncodeChar c)
    (hb : b.toNat < 128) : c.toNat = b.toNat := by
  by_cases hc : c.toNat < 128
  · rw [encodeChar_ascii hc, List.mem_singleton] at h
    rw [h, UInt8.toNat_ofNat']
    omega
  · have := encodeChar_other (Nat.le_of_not_lt hc) b h
    omega

/-! Lines of a code -/

/-- Characters in front of the first line. -/
def inFront {α : Type} (w : List α) : List (List α) → List (List α)
  | [] => [w]
  | line :: others => (w ++ line) :: others

theorem inFront_inFront {α : Type} (v w : List α) (ls : List (List α)) :
    inFront v (inFront w ls) = inFront (v ++ w) ls := by
  cases ls <;> simp [inFront]

section

variable {α : Type} [DecidableEq α] {cr lf : α}

theorem lines_cons {c : α} {rest : List α} (hlf : c ≠ lf)
    (hcr : ¬ (c = cr ∧ rest.head? = some lf)) :
    lines cr lf (c :: rest) = inFront [c] (lines cr lf rest) := by
  rw [lines, if_neg hlf, if_neg hcr]
  cases lines cr lf rest <;> rfl

theorem lines_append_of_notMem {w : List α} (hw : w ≠ []) (hcr : cr ∉ w) (hlf : lf ∉ w)
    (rest : List α) : lines cr lf (w ++ rest) = inFront w (lines cr lf rest) := by
  induction w with
  | nil => contradiction
  | cons c w ih =>
    simp only [List.mem_cons, not_or] at hcr hlf
    have hc : ¬ (c = cr ∧ (w ++ rest).head? = some lf) := fun h => hcr.1 h.1.symm
    rw [List.cons_append, lines_cons (Ne.symm hlf.1) hc]
    cases w with
    | nil => rfl
    | cons d w => rw [ih (by simp) hcr.2 hlf.2, inFront_inFront, List.singleton_append]

variable {β : Type} [DecidableEq β] {cr' lf' : β} {code : α → List β}

/-- **Lines are cut before a code is applied as after it**, if the code keeps the two
characters that end lines, and gives no other character either of them. -/
theorem lines_flatMap (hcr : code cr = [cr']) (hlf : code lf = [lf']) (hne : cr' ≠ lf')
    (hother : ∀ c, c ≠ cr → c ≠ lf → code c ≠ [] ∧ cr' ∉ code c ∧ lf' ∉ code c)
    (text : List α) :
    lines cr' lf' (text.flatMap code) = (lines cr lf text).map (·.flatMap code) := by
  have hfront : ∀ c (ls : List (List α)), (inFront [c] ls).map (·.flatMap code) =
      inFront (code c) (ls.map (·.flatMap code)) := by
    intro c ls
    cases ls <;> simp [inFront]
  have hhead : ∀ rest : List α, (rest.flatMap code).head? = some lf' ↔ rest.head? = some lf := by
    intro rest
    cases rest with
    | nil => simp
    | cons d rest =>
      by_cases hd : d = lf
      · simp [hd, hlf]
      by_cases hr : d = cr
      · subst hr
        simp [hcr, hne, hd]
      · obtain ⟨hn, _, hnl⟩ := hother d hr hd
        obtain ⟨b, bs, hb⟩ := List.exists_cons_of_ne_nil hn
        simp only [hb, List.mem_cons, not_or] at hnl
        simp [hb, hd, Ne.symm hnl.1]
  induction text with
  | nil => rfl
  | cons c rest ih =>
    rw [List.flatMap_cons]
    by_cases hc : c = lf
    · subst hc
      rw [hlf, List.singleton_append, lines, if_pos rfl, lines, if_pos rfl, ih]
      rfl
    by_cases hr : c = cr
    · subst hr
      rw [hcr, List.singleton_append]
      by_cases hl : rest.head? = some lf
      · rw [lines, if_neg hne, if_pos ⟨rfl, (hhead rest).mpr hl⟩, lines, if_neg hc,
          if_pos ⟨rfl, hl⟩, ih]
      · rw [lines_cons hc (fun h => hl h.2), lines_cons hne (fun h => hl ((hhead rest).mp h.2)),
          hfront, hcr, ih]
    · obtain ⟨hn, hnr, hnl⟩ := hother c hr hc
      rw [lines_append_of_notMem hn hnr hnl, lines_cons hc (fun h => hr h.1), hfront, ih]

end

/-- **The lines of the bytes of a text decode to its lines.** -/
theorem map_decode?_byteLines (text : List Char) :
    (byteLines (encode text)).map decode? =
      (lines '\r' '\n' text).map fun line => some (String.ofList line) := by
  have hlines : byteLines (encode text) = (lines '\r' '\n' text).map encode := by
    apply lines_flatMap
    · rfl
    · rfl
    · decide
    · intro c hr hn
      refine ⟨String.utf8EncodeChar_ne_nil, ?_, ?_⟩
      · intro h
        exact hr (Char.toNat_inj.mp (toNat_of_mem_encodeChar h (by decide)))
      · intro h
        exact hn (Char.toNat_inj.mp (toNat_of_mem_encodeChar h (by decide)))
  rw [hlines, List.map_map]
  exact congrArg (List.map · _) (funext decode?_encode)

end Text

end SeqScan
