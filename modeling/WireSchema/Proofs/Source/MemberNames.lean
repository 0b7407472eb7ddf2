import WireSchema.Proofs.Source.Capture
import WireSchema.Proofs.Text.Letters

/-!
# Names of members

The name of a struct field is made of the letters and digits of the schema's name for it, and a
getter puts `Get` in front of that. An `X` is to keep the name of a field from beginning with a
digit. It does so for the digits of ASCII only: where the first letter or digit of a name is a digit
of another script, the name of the field begins with it and is no identifier, while the getter always
is one.
-/

namespace WireSchema

namespace Names

/-! ## Characters of exported names -/

/-- Does the character come into an exported name? -/
def isKept (c : Char) : Bool := isLetter c || isDecimalDigit c

theorem isKept_upperChar {c : Char} (h : isKept c = true) : isKept (upperChar c) = true := by
  rw [isKept, Bool.or_eq_true] at h ⊢
  rcases h with h | h
  · exact .inl (isLetter_upperChar h)
  · rw [upperChar_of_isDecimalDigit h]
    exact .inr h

theorem isKept_capitalised (start : Bool) (cs : List Char) :
    (capitalised start cs).all isKept = true := by
  induction cs generalizing start with
  | nil => rfl
  | cons c rest ih =>
    rw [capitalised]
    split
    next hkept =>
      rw [List.all_cons, ih false, Bool.and_true]
      cases start with
      | true => exact isKept_upperChar hkept
      | false => exact hkept
    next => exact ih true

theorem head?_capitalised (cs : List Char) :
    (capitalised true cs).head? = (cs.find? isKept).map upperChar := by
  induction cs with
  | nil => rfl
  | cons c rest ih =>
    rw [capitalised, List.find?_cons, ← isKept]
    cases hkept : isKept c with
    | true => rfl
    | false => exact ih

/-- The characters with an `X` before a digit of ASCII, or alone. -/
def guarded : List Char → List Char
  | [] => ['X']
  | c :: rest => if c.isDigit then 'X' :: c :: rest else c :: rest

theorem isDigit_iff_toNat {c : Char} : c.isDigit = true ↔ 0x30 ≤ c.toNat ∧ c.toNat ≤ 0x39 := by
  simp [Char.isDigit, UInt32.le_iff_toNat_le]

theorem isDigit_utf8 {c : Char} {b : UInt8} {rest : Text}
    (h : String.utf8EncodeChar c = b :: rest) : Text.isDigit b = c.isDigit := by
  have hbyte : Text.isDigit b = true ↔ 0x30 ≤ b.toNat ∧ b.toNat ≤ 0x39 := by
    simp [Text.isDigit, UInt8.le_iff_toNat_le]
  rw [Bool.eq_iff_iff, hbyte, isDigit_iff_toNat]
  constructor
  · intro hb
    have hnat := Text.toNat_of_mem_utf8 (h ▸ List.mem_cons_self) (by omega)
    omega
  · intro hc
    -- a character of ASCII is its own byte
    have hbyte := Text.toNat_ofNat_byte (n := c.toNat) (by omega)
    have hascii : UInt8.ofNat c.toNat < 0x80 := UInt8.lt_iff_toNat_lt.mpr (by simp [hbyte]; omega)
    have hutf8 := Text.utf8_ascii hascii
    rw [hbyte, Char.ofNat_toNat, h] at hutf8
    rw [(List.cons.inj hutf8).1, hbyte]
    exact hc

theorem exported_eq (t : Text) :
    exported t = Text.ofChars (guarded (capitalised true (Text.chars t))) := by
  unfold exported
  cases capitalised true (Text.chars t) with
  | nil => rfl
  | cons c rest =>
    obtain ⟨b, tail, hc⟩ := List.exists_cons_of_ne_nil (String.utf8EncodeChar_ne_nil (c := c))
    have hchars : Text.ofChars (c :: rest) = b :: (tail ++ Text.ofChars rest) := by
      rw [Text.ofChars, List.flatMap_cons, hc]
      rfl
    rw [guarded, hchars]
    simp only [isDigit_utf8 hc]
    split
    · rw [← hchars]
      rfl
    · rw [hchars]

/-! ## Identifiers -/

/-- Is the first letter or digit of the text a digit of another script than ASCII? -/
def leadsWithForeignDigit (t : Text) : Bool :=
  ((Text.chars t).find? isKept).any fun c => isDecimalDigit c && !c.isDigit

theorem isDecimalDigit_of_isDigit {c : Char} (h : c.isDigit = true) : isDecimalDigit c = true := by
  have hall : ∀ n < 0x3A, 0x30 ≤ n → digitRanges.contains n = true := by decide
  obtain ⟨hlow, hhigh⟩ := isDigit_iff_toNat.mp h
  exact hall _ (by omega) hlow

theorem isKept_guarded {cs : List Char} (h : cs.all isKept = true) :
    (guarded cs).all isKept = true := by
  have hX : isKept 'X' = true := by decide
  cases cs with
  | nil => simpa [guarded] using hX
  | cons c rest =>
    rw [guarded]
    split
    · rw [List.all_cons, hX, h, Bool.and_true]
    · exact h

/-- An exported name begins with a letter that is not small, unless the `X` is missing. -/
theorem exists_exported (t : Text) : ∃ c rest, exported t = Text.ofChars (c :: rest) ∧
    (c :: rest).all isKept = true ∧ c.isLower = false ∧ isLetter c = !leadsWithForeignDigit t := by
  have hkept := isKept_guarded (isKept_capitalised true (Text.chars t))
  suffices h : ∃ c rest, guarded (capitalised true (Text.chars t)) = c :: rest ∧ c.isLower = false ∧
      isLetter c = !leadsWithForeignDigit t by
    obtain ⟨c, rest, heq, h⟩ := h
    exact ⟨c, rest, by rw [exported_eq, heq], heq ▸ hkept, h⟩
  have hX : isLetter 'X' = true := by decide
  have hhead := head?_capitalised (Text.chars t)
  unfold leadsWithForeignDigit
  cases hfind : (Text.chars t).find? isKept with
  | none =>
    rw [hfind, Option.map_none, List.head?_eq_none_iff] at hhead
    exact ⟨'X', [], by rw [hhead, guarded], rfl, hX⟩
  | some c =>
    rw [hfind, Option.map_some, List.head?_eq_some_iff] at hhead
    obtain ⟨rest, hrest⟩ := hhead
    rw [hrest, guarded, Option.any_some]
    cases hdigit : isDecimalDigit c with
    | true =>
      rw [upperChar_of_isDecimalDigit hdigit]
      cases hascii : c.isDigit with
      | true => exact ⟨'X', c :: rest, rfl, rfl, hX⟩
      | false =>
        refine ⟨c, rest, rfl, ?_, isLetter_of_isDecimalDigit hdigit⟩
        rw [← upperChar_of_isDecimalDigit hdigit]
        exact isLower_upperChar c
    | false =>
      have hletter : isLetter c = true := by simpa [isKept, hdigit] using List.find?_some hfind
      have hupper := isLetter_upperChar hletter
      have hno : (upperChar c).isDigit = false := by
        by_contra hd
        rw [Bool.not_eq_false] at hd
        rw [isLetter_of_isDecimalDigit (isDecimalDigit_of_isDigit hd)] at hupper
        cases hupper
      exact ⟨upperChar c, rest, by rw [hno]; rfl, isLower_upperChar c, hupper⟩

theorem isUtf8_exported (t : Text) : (exported t).isUtf8 = true := by
  obtain ⟨c, rest, heq, -⟩ := exists_exported t
  exact Text.isUtf8_iff.mpr ⟨_, heq⟩

/-- No reserved word begins with anything but a small letter. -/
theorem isKeyword_ofChars {c : Char} {rest : List Char} (h : c.isLower = false) :
    isKeyword (Text.ofChars (c :: rest)) = false := by
  have hsmall : ∀ k ∈ keywords, k.toList.head?.any Char.isLower = true := by decide
  rw [isKeyword, List.any_eq_false]
  intro k hk heq
  obtain ⟨x, tail, hx, hchars⟩ := beginsSmall_ofString (hsmall k hk)
  rw [beq_iff_eq, hchars, Text.ofChars_injective.eq_iff, List.cons.injEq] at heq
  rw [heq.1, h] at hx
  cases hx

/-- Letters and digits are an identifier if the first one is a letter and not a small one. -/
theorem isIdentifier_ofChars {c : Char} {rest : List Char} (h : c.isLower = false)
    (hkept : (c :: rest).all isKept = true) :
    isIdentifier (Text.ofChars (c :: rest)) = isLetter c := by
  have hunderscore : isKept '_' = false := by decide
  rw [List.all_cons, Bool.and_eq_true] at hkept
  have hstart : startsIdentifier c = isLetter c := by
    have hne : (c == '_') = false := by
      rw [beq_eq_false_iff_ne]
      rintro rfl
      rw [hunderscore] at hkept
      cases hkept.1
    rw [startsIdentifier, hne, Bool.false_or]
  have hrest : rest.all continuesIdentifier = true := by
    refine List.all_eq_true.mpr fun d hd => ?_
    rw [continuesIdentifier, Bool.or_assoc, ← isKept, List.all_eq_true.mp hkept.2 d hd,
      Bool.or_true]
  rw [isIdentifier, isKeyword_ofChars h, Text.chars_ofChars]
  simp only [Bool.not_false, Bool.true_and, hstart, hrest, Bool.and_true]

theorem isDecimalDigit_eq {c : Char} (h : isKept c = true) : isDecimalDigit c = !isLetter c := by
  cases hdigit : isDecimalDigit c with
  | true => rw [isLetter_of_isDecimalDigit hdigit, Bool.not_false]
  | false => simpa [isKept, hdigit] using h

/-- **Names of members.** An exported name is a well-formed text of one or more letters and digits.
It begins with a digit, and so is no identifier, exactly if the first letter or digit of the name in
the schema is a digit beyond ASCII. The name of a getter is always an identifier. -/
theorem members_named (t : Text) :
    exported t ≠ [] ∧ (exported t).isUtf8 = true ∧ (Text.chars (exported t)).all isKept = true ∧
      (Text.chars (exported t)).head?.any isDecimalDigit = leadsWithForeignDigit t ∧
      isIdentifier (Model.memberName t) = !leadsWithForeignDigit t ∧
      isIdentifier (Model.getterName t) = true := by
  obtain ⟨c, rest, heq, hkept, hlower, hletter⟩ := exists_exported t
  have hfirst : isKept c = true := List.all_eq_true.mp hkept c List.mem_cons_self
  have hgetter : Model.getterName t = Text.ofChars ('G' :: 'e' :: 't' :: c :: rest) := by
    rw [Model.getterName, heq]
    rfl
  refine ⟨exported_ne_nil t, isUtf8_exported t, ?_, ?_, ?_, ?_⟩
  · rw [heq, Text.chars_ofChars, hkept]
  · rw [heq, Text.chars_ofChars, List.head?_cons, Option.any_some, isDecimalDigit_eq hfirst,
      hletter, Bool.not_not]
  · rw [Model.memberName, heq, isIdentifier_ofChars hlower hkept, hletter]
  · have hget : (['G', 'e', 't'].all isKept && isLetter 'G') = true := by decide
    rw [Bool.and_eq_true] at hget
    rw [hgetter, isIdentifier_ofChars rfl ?_, hget.2]
    rw [show 'G' :: 'e' :: 't' :: c :: rest = ['G', 'e', 't'] ++ c :: rest from rfl,
      List.all_append, hget.1, hkept, Bool.and_true]

/-- The Arabic digit three stays without an `X`, and so is no name for a struct field. -/
theorem arabic_digit_unguarded : exported "٣" = "٣" ∧ isDecimalDigit '٣' = true ∧
    isIdentifier (Model.memberName "٣") = false := by
  have hchars : Text.chars "٣" = ['٣'] := Text.chars_ofChars ['٣']
  have hexported : exported "٣" = Text.ofChars ['٣'] := by
    rw [exported_eq, hchars]
    decide
  refine ⟨hexported, by decide, ?_⟩
  rw [Model.memberName, hexported, isIdentifier_ofChars (by decide) (by decide)]
  decide

end Names

end WireSchema
