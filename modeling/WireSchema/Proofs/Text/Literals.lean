import Mathlib.Algebra.Group.Nat.Defs
import Mathlib.Data.Nat.Basic
import Mathlib.Data.Option.Basic
import Mathlib.Order.Basic
import WireSchema.Proofs.Text.Utf8
import WireSchema.Text.Quoted

/-!
# String literals

How Go reads a string literal between double quotes, and that a quoted text is a literal of that text,
whatever its bytes are. Stray bytes and characters that cannot be shown come back from their escapes,
and all other characters stand for themselves.
-/

namespace WireSchema.Text

/-! ## Reading a literal -/

/-- The letters that name a byte after a backslash. -/
def escapeLetters : List (UInt8 × UInt8) :=
  [(0x61, 0x07), (0x62, 0x08), (0x66, 0x0C), (0x6E, 0x0A), (0x72, 0x0D), (0x74, 0x09), (0x76, 0x0B),
    (0x5C, 0x5C), (0x22, 0x22)]

/-- The number that `width` digits at the start of a text spell, and the text after them. -/
def number? (base width : Nat) (t : Text) : Option (Nat × Text) := do
  let digits := t.take width
  guard (digits.length = width)
  let value ← digits.foldlM (fun n b => do
    let d ← hexValue? b
    guard (d < base)
    pure (n * base + d)) 0
  pure (value, t.drop width)

def numberedByte? (n : Nat) : Option Text := if n < 0x100 then some [n.toUInt8] else none

/-- The encoding of the character of a number; surrogates have none. -/
def numberedChar? (n : Nat) : Option Text :=
  if n.isValidChar then some (ofChars [Char.ofNat n]) else none

/-- What the escape after a backslash stands for, and the text after it. -/
def escape? : Text → Option (Text × Text)
  | [] => none
  | b :: r =>
    match escapeLetters.lookup b with
    | some c => some ([c], r)
    | none =>
      if b = 0x78 then numbered numberedByte? (number? 16 2 r)
      else if b = 0x75 then numbered numberedChar? (number? 16 4 r)
      else if b = 0x55 then numbered numberedChar? (number? 16 8 r)
      else numbered numberedByte? (number? 8 3 (b :: r))
where
  numbered (f : Nat → Option Text) (read : Option (Nat × Text)) : Option (Text × Text) := do
    let (n, rest) ← read
    let t ← f n
    pure (t, rest)

theorem length_of_number? {base width n : Nat} {t rest : Text}
    (h : number? base width t = some (n, rest)) : rest.length ≤ t.length := by
  unfold number? at h
  simp only [Option.bind_eq_bind, Option.bind_eq_some_iff, Option.pure_def, Option.some.injEq,
    Prod.mk.injEq] at h
  obtain ⟨-, -, v, -, -, rfl⟩ := h
  simp

theorem length_of_numbered {f : Nat → Option Text} {read : Option (Nat × Text)} {bytes rest : Text}
    {bound : Nat} (hread : ∀ n u, read = some (n, u) → u.length ≤ bound)
    (h : escape?.numbered f read = some (bytes, rest)) : rest.length ≤ bound := by
  unfold escape?.numbered at h
  simp only [Option.bind_eq_bind, Option.bind_eq_some_iff, Option.pure_def, Option.some.injEq,
    Prod.mk.injEq] at h
  obtain ⟨⟨n, u⟩, hu, t, -, -, rfl⟩ := h
  exact hread n u hu

theorem length_of_escape? {t bytes rest : Text} (h : escape? t = some (bytes, rest)) :
    rest.length ≤ t.length := by
  cases t with
  | nil => cases h
  | cons b r =>
    have hshort (width : Nat) (n : Nat) (u : Text) (hu : number? 16 width r = some (n, u)) :
        u.length ≤ (b :: r).length := by
      have := length_of_number? hu
      simp only [List.length_cons]
      omega
    simp only [escape?] at h
    split at h
    · cases h
      simp
    · split_ifs at h
      · exact length_of_numbered (hshort 2) h
      · exact length_of_numbered (hshort 4) h
      · exact length_of_numbered (hshort 8) h
      · exact length_of_numbered (fun _ _ => length_of_number?) h

/-- The text that stands before the closing quote at the end, with its escapes resolved. -/
def unescaped? (t : Text) : Option Text :=
  match t with
  | [] => none
  | b :: r =>
    if b = 0x22 then if r.isEmpty then some [] else none
    else if b = 0x0A then none
    else if b = 0x5C then
      match _h : escape? r with
      | none => none
      | some (bytes, rest) => (unescaped? rest).map (bytes ++ ·)
    else (unescaped? r).map (b :: ·)
termination_by t.length
decreasing_by
  · have := length_of_escape? _h
    simp only [List.length_cons]
    omega
  · simp

def unquoted? (t : Text) : Option Text :=
  if t.isUtf8 then (dropStart? t "\"").bind unescaped? else none

/-! ## Escapes -/

theorem hexValue?_hexDigit {n : Nat} (h : n < 16) : hexValue? (hexDigit n) = some n := by
  have hall : ∀ d < 16, hexValue? (hexDigit d) = some d := by decide
  exact hall n h

theorem length_hex (width n : Nat) : (hex width n).length = width := by
  induction width generalizing n with
  | zero => rfl
  | succ width ih => simp [hex, ih]

/-- Digits that were written are read back, as far as there is room for them. -/
theorem number?_hex (width n : Nat) (rest : Text) :
    number? 16 width (hex width n ++ rest) = some (n % 16 ^ width, rest) := by
  have hvalue : (hex width n).foldlM (fun n b => do
      let d ← hexValue? b
      guard (d < 16)
      pure (n * 16 + d)) 0 = some (n % 16 ^ width) := by
    induction width generalizing n with
    | zero => simp [hex, Nat.mod_one]
    | succ width ih =>
      have hlast : n % 16 < 16 := Nat.mod_lt n (by decide)
      have hsplit : n % 16 ^ (width + 1) = n / 16 % 16 ^ width * 16 + n % 16 := by
        rw [Nat.pow_succ', Nat.mod_mul, Nat.add_comm, Nat.mul_comm]
      rw [hex, List.foldlM_append, ih, hsplit]
      simp [hexValue?_hexDigit hlast, guard, hlast]
  have htake : (hex width n ++ rest).take width = hex width n := by
    rw [List.take_append_of_le_length (length_hex width n).ge,
      List.take_of_length_le (length_hex width n).le]
  have hdrop : (hex width n ++ rest).drop width = rest := List.drop_left' (length_hex width n)
  simp only [number?, htake, length_hex, hdrop, hvalue]
  simp [guard]

variable {b : UInt8} {r rest bytes : Text}

theorem unescaped?_escape (h : escape? r = some (bytes, rest)) :
    unescaped? (0x5C :: r) = (unescaped? rest).map (bytes ++ ·) := by
  rw [unescaped?, if_neg (by decide), if_neg (by decide), if_pos rfl]
  split
  · rename_i hnone
    rw [h] at hnone
    cases hnone
  · rename_i hsome
    rw [h] at hsome
    cases hsome
    rfl

theorem unescaped?_letter {c : UInt8} (h : escapeLetters.lookup b = some c) (rest : Text) :
    unescaped? (0x5C :: b :: rest) = (unescaped? rest).map (c :: ·) := by
  have hescape : escape? (b :: rest) = some ([c], rest) := by simp only [escape?, h]
  exact unescaped?_escape hescape

/-- What needs no escape stands for itself. -/
theorem unescaped?_plain {t : Text} (h : ∀ b ∈ t, b ≠ 0x22 ∧ b ≠ 0x0A ∧ b ≠ 0x5C) (rest : Text) :
    unescaped? (t ++ rest) = (unescaped? rest).map (t ++ ·) := by
  induction t with
  | nil => simp
  | cons b t ih =>
    obtain ⟨⟨hquote, hbreak, hslash⟩, ht⟩ := List.forall_mem_cons.mp h
    rw [List.cons_append, unescaped?, if_neg hquote, if_neg hbreak, if_neg hslash, ih ht,
      Option.map_map]
    rfl

theorem numbered_hex {f : Nat → Option Text} {width n : Nat} (hn : n < 16 ^ width)
    (hf : f n = some bytes) (rest : Text) :
    escape?.numbered f (number? 16 width (hex width n ++ rest)) = some (bytes, rest) := by
  rw [number?_hex, Nat.mod_eq_of_lt hn]
  simp [escape?.numbered, hf]

theorem unescaped?_byte {n : Nat} (h : n < 0x100) (rest : Text) :
    unescaped? ("\\x" ++ hex 2 n ++ rest) = (unescaped? rest).map ([n.toUInt8] ++ ·) := by
  have hescape : escape? (0x78 :: (hex 2 n ++ rest)) = some ([n.toUInt8], rest) :=
    numbered_hex h (if_pos h) rest
  exact unescaped?_escape hescape

theorem numberedChar?_toNat (c : Char) : numberedChar? c.toNat = some (String.utf8EncodeChar c) := by
  have hvalid : c.toNat.isValidChar := c.valid
  rw [numberedChar?, if_pos hvalid, Char.ofNat_toNat, ofChars, List.flatMap_singleton]

theorem unescaped?_short {c : Char} (h : c.toNat < 0x10000) (rest : Text) :
    unescaped? ("\\u" ++ hex 4 c.toNat ++ rest) =
      (unescaped? rest).map (String.utf8EncodeChar c ++ ·) := by
  have hescape : escape? (0x75 :: (hex 4 c.toNat ++ rest)) =
      some (String.utf8EncodeChar c, rest) :=
    numbered_hex h (numberedChar?_toNat c) rest
  exact unescaped?_escape hescape

theorem unescaped?_long (c : Char) (rest : Text) :
    unescaped? ("\\U" ++ hex 8 c.toNat ++ rest) =
      (unescaped? rest).map (String.utf8EncodeChar c ++ ·) := by
  have hvalid : c.toNat < 0xD800 ∨ 0xDFFF < c.toNat ∧ c.toNat < 0x110000 := c.valid
  have hescape : escape? (0x55 :: (hex 8 c.toNat ++ rest)) =
      some (String.utf8EncodeChar c, rest) :=
    numbered_hex (by omega) (numberedChar?_toNat c) rest
  exact unescaped?_escape hescape

/-! ## Quoted texts -/

theorem lookup_escapeLetter? {c l : Char} (h : escapeLetter? c = some l) :
    c.toNat < 0x80 ∧ ofChars [l] = [l.toNat.toUInt8] ∧
      escapeLetters.lookup l.toNat.toUInt8 = some c.toNat.toUInt8 := by
  unfold escapeLetter? at h
  simp only [beq_iff_eq] at h
  split_ifs at h with h₁ h₂ h₃ h₄ h₅ h₆ h₇ <;> cases h <;> subst c <;> decide

theorem utf8_of_lt {c : Char} (h : c.toNat < 0x80) : String.utf8EncodeChar c = [c.toNat.toUInt8] := by
  have hbyte : c.toNat.toUInt8.toNat = c.toNat := toNat_ofNat_byte (by omega)
  have hlt : c.toNat.toUInt8 < 0x80 := UInt8.lt_iff_toNat_lt.mpr (by rw [hbyte]; exact h)
  have hascii := utf8_ascii hlt
  rwa [hbyte, Char.ofNat_toNat] at hascii

theorem plain_of_isPrintable {c : Char} (h : isPrintable c = true) (hquote : c ≠ '"')
    (hslash : c ≠ '\\') : ∀ b ∈ String.utf8EncodeChar c, b ≠ 0x22 ∧ b ≠ 0x0A ∧ b ≠ 0x5C := by
  have hbreak : c ≠ '\n' := by
    rintro rfl
    exact absurd h (by decide +kernel)
  intro b hb
  have hne {x : UInt8} {d : Char} (hd : c ≠ d) (hx : x.toNat < 0x80) (hxd : x.toNat = d.toNat) :
      b ≠ x := by
    rintro rfl
    exact hd (Char.toNat_inj.mp ((toNat_of_mem_utf8 hb hx).symm.trans hxd))
  exact ⟨hne hquote (by decide) (by decide), hne hbreak (by decide) (by decide),
    hne hslash (by decide) (by decide)⟩

theorem unescaped?_quotedPiece (p : Piece) (rest : Text) :
    unescaped? (quotedPiece p ++ rest) = (unescaped? rest).map (p.bytes ++ ·) := by
  cases p with
  | stray b =>
    have hbyte : b.toNat.toUInt8 = b := eq_ofNat_byte rfl
    rw [quotedPiece, unescaped?_byte b.toNat_lt, hbyte]
    rfl
  | char c =>
    simp only [quotedPiece, Piece.bytes]
    split
    · rename_i hself
      rw [Bool.or_eq_true, beq_iff_eq, beq_iff_eq] at hself
      rcases hself with rfl | rfl
      · exact unescaped?_letter (by decide) rest
      · exact unescaped?_letter (by decide) rest
    rename_i hself
    rw [Bool.or_eq_true, beq_iff_eq, beq_iff_eq, not_or] at hself
    split
    · rename_i hprintable
      rw [ofChars, List.flatMap_singleton]
      exact unescaped?_plain (plain_of_isPrintable hprintable hself.1 hself.2) rest
    split
    · rename_i l hletter
      obtain ⟨hlt, hl, hlookup⟩ := lookup_escapeLetter? hletter
      have hspelled : ofChars ['\\', l] = 0x5C :: ofChars [l] := rfl
      rw [hspelled, hl, utf8_of_lt hlt]
      exact unescaped?_letter hlookup rest
    split
    · rename_i hlt
      rw [utf8_of_lt hlt]
      exact unescaped?_byte (by omega) rest
    split
    · rename_i hlt
      exact unescaped?_short hlt rest
    · exact unescaped?_long c rest

theorem unescaped?_flatMap (ps : List Piece) :
    unescaped? (ps.flatMap quotedPiece ++ [0x22]) = some (ps.flatMap Piece.bytes) := by
  induction ps with
  | nil =>
    rw [List.flatMap_nil, List.nil_append, unescaped?]
    rfl
  | cons p ps ih =>
    rw [List.flatMap_cons, List.append_assoc, unescaped?_quotedPiece, ih, List.flatMap_cons]
    rfl

theorem isUtf8_quotedPiece (p : Piece) : (quotedPiece p).isUtf8 = true := by
  have hchars (cs : List Char) : (ofChars cs).isUtf8 = true := isUtf8_iff.mpr ⟨cs, rfl⟩
  have hhex (s : String) (width n : Nat) : isUtf8 (s ++ hex width n) = true :=
    isUtf8_append (isUtf8_ofString s) (isUtf8_hex width n)
  cases p with
  | stray b => exact hhex _ _ _
  | char c =>
    simp only [quotedPiece]
    split
    · exact hchars _
    split
    · exact hchars _
    split
    · exact hchars _
    split_ifs
    · exact hhex _ _ _
    · exact hhex _ _ _
    · exact hhex _ _ _

theorem isUtf8_quoted (t : Text) : (quoted t).isUtf8 = true := by
  have hbody (ps : List Piece) : isUtf8 (ps.flatMap quotedPiece) = true := by
    induction ps with
    | nil => exact isUtf8_ofString ""
    | cons p ps ih => exact isUtf8_append (isUtf8_quotedPiece p) ih
  exact isUtf8_append (isUtf8_append (isUtf8_ofString _) (hbody _)) (isUtf8_ofString _)

theorem unquoted?_quoted (t : Text) : unquoted? (quoted t) = some t := by
  rw [unquoted?, if_pos (isUtf8_quoted t)]
  have hrest : dropStart? (quoted t) "\"" = some ((pieces t).flatMap quotedPiece ++ [0x22]) := rfl
  rw [hrest, Option.bind_some, unescaped?_flatMap, flatMap_bytes_pieces]

end WireSchema.Text
