import Mathlib.Tactic.ByContra
import Mathlib.Tactic.SplitIfs
import Mathlib.Tactic.Tauto
import WireSchema.Text.Utf8

/-!
# Well-formed texts

The encoding of a character is read back as that character, whatever follows it, and nothing else is
read as a character. So the well-formed texts are exactly those that encode a list of characters.
-/

namespace WireSchema.Text

/-! ## One character -/

theorem toNat_ofNat_valid {n : Nat} (h : n.isValidChar) : (Char.ofNat n).toNat = n := by
  rw [Char.ofNat, dif_pos h]
  rfl

theorem uncons?_ascii {b : UInt8} (h : b < 0x80) (r : Text) :
    uncons? (b :: r) = some (.char (Char.ofNat b.toNat), r) := by
  simp [uncons?, h]

theorem uncons?_multibyte {b : UInt8} {r r' : Text} {c : Char} (h : ¬b < 0x80)
    (hm : multibyte? b r = some (c, r')) : uncons? (b :: r) = some (.char c, r') := by
  simp [uncons?, h, hm]

theorem multibyte?_two {b b₁ : UInt8} (hb : 0xC2 ≤ b.toNat) (hb' : b.toNat ≤ 0xDF)
    (h₁ : 0x80 ≤ b₁.toNat) (h₁' : b₁.toNat ≤ 0xBF) (r : Text) :
    multibyte? b (b₁ :: r) = some (Char.ofNat ((b.toNat - 0xC0) * 64 + b₁.toNat % 64), r) := by
  have hc : (0xC2 ≤ b && b ≤ 0xDF && isTail b₁) = true := by
    simp [isTail, UInt8.le_iff_toNat_le, hb, hb', h₁, h₁']
  rcases r with _ | ⟨b₂, _ | ⟨b₃, r⟩⟩ <;> simp [multibyte?, hc, tailBits]

theorem multibyte?_three {b b₁ b₂ : UInt8} (hb : 0xE0 ≤ b.toNat) (hb' : b.toNat ≤ 0xEF)
    (h₁ : 0x80 ≤ b₁.toNat) (h₁' : b₁.toNat ≤ 0xBF) (h₂ : 0x80 ≤ b₂.toNat) (h₂' : b₂.toNat ≤ 0xBF)
    (hlow : b.toNat = 0xE0 → 0xA0 ≤ b₁.toNat) (hgap : b.toNat = 0xED → b₁.toNat ≤ 0x9F) (r : Text) :
    multibyte? b (b₁ :: b₂ :: r) =
      some (Char.ofNat ((b.toNat - 0xE0) * 4096 + b₁.toNat % 64 * 64 + b₂.toNat % 64), r) := by
  have hno : (0xC2 ≤ b && b ≤ 0xDF && isTail b₁) = false := by
    simp [UInt8.le_iff_toNat_le, isTail]
    omega
  have hc : (multibyte?.isThree b b₁ && isTail b₂) = true := by
    simp [multibyte?.isThree, isTail, UInt8.le_iff_toNat_le, ← UInt8.toNat_inj, hb, hb', h₁, h₁', h₂,
      h₂']
    omega
  rcases r with _ | ⟨b₃, r⟩ <;> simp [multibyte?, hno, hc, tailBits]

theorem multibyte?_four {b b₁ b₂ b₃ : UInt8} (hb : 0xF0 ≤ b.toNat) (hb' : b.toNat ≤ 0xF4)
    (h₁ : 0x80 ≤ b₁.toNat) (h₁' : b₁.toNat ≤ 0xBF) (h₂ : 0x80 ≤ b₂.toNat) (h₂' : b₂.toNat ≤ 0xBF)
    (h₃ : 0x80 ≤ b₃.toNat) (h₃' : b₃.toNat ≤ 0xBF) (hlow : b.toNat = 0xF0 → 0x90 ≤ b₁.toNat)
    (htop : b.toNat = 0xF4 → b₁.toNat ≤ 0x8F) (r : Text) :
    multibyte? b (b₁ :: b₂ :: b₃ :: r) =
      some (Char.ofNat ((b.toNat - 0xF0) * 262144 + b₁.toNat % 64 * 4096 + b₂.toNat % 64 * 64
        + b₃.toNat % 64), r) := by
  have hno : (0xC2 ≤ b && b ≤ 0xDF && isTail b₁) = false := by
    simp [UInt8.le_iff_toNat_le, isTail]
    omega
  have hno' : (multibyte?.isThree b b₁ && isTail b₂) = false := by
    simp [multibyte?.isThree, UInt8.le_iff_toNat_le]
    omega
  have hc : (multibyte?.isFour b b₁ && isTail b₂ && isTail b₃) = true := by
    simp [multibyte?.isFour, isTail, UInt8.le_iff_toNat_le, ← UInt8.toNat_inj, hb, hb', h₁, h₁', h₂,
      h₂', h₃, h₃']
    omega
  simp [multibyte?, hno, hno', hc, tailBits]

theorem toNat_ofNat_byte {n : Nat} (h : n < 256) : (UInt8.ofNat n).toNat = n := by
  simp [Nat.mod_eq_of_lt h]

/-- A character is read back from its encoding, whatever follows. -/
theorem uncons?_utf8 (c : Char) (r : Text) :
    uncons? (String.utf8EncodeChar c ++ r) = some (.char c, r) := by
  have hvalid : c.toNat < 0xD800 ∨ 0xDFFF < c.toNat ∧ c.toNat < 0x110000 := c.valid
  have hc (n : Nat) (h : n = c.toNat) : Char.ofNat n = c := by rw [h, Char.ofNat_toNat]
  have hval : c.val.toNat = c.toNat := rfl
  unfold String.utf8EncodeChar
  simp only [hval]
  split_ifs with h₁ h₂ h₃
  · have hb : (UInt8.ofNat c.toNat).toNat = c.toNat := toNat_ofNat_byte (by omega)
    rw [List.singleton_append, uncons?_ascii (by rw [UInt8.lt_iff_toNat_lt, hb]; simpa using by omega),
      hc _ hb]
  · have e₀ := toNat_ofNat_byte (show c.toNat / 64 % 32 + 192 < 256 by omega)
    have e₁ := toNat_ofNat_byte (show c.toNat % 64 + 128 < 256 by omega)
    refine uncons?_multibyte (by rw [UInt8.lt_iff_toNat_lt, e₀]; simp) ?_
    refine (multibyte?_two ?_ ?_ ?_ ?_ r).trans (by rw [hc _ (by omega)]) <;> omega
  · have e₀ := toNat_ofNat_byte (show c.toNat / 4096 % 16 + 224 < 256 by omega)
    have e₁ := toNat_ofNat_byte (show c.toNat / 64 % 64 + 128 < 256 by omega)
    have e₂ := toNat_ofNat_byte (show c.toNat % 64 + 128 < 256 by omega)
    refine uncons?_multibyte (by rw [UInt8.lt_iff_toNat_lt, e₀]; simp) ?_
    refine (multibyte?_three ?_ ?_ ?_ ?_ ?_ ?_ ?_ ?_ r).trans (by rw [hc _ (by omega)]) <;> omega
  · have e₀ := toNat_ofNat_byte (show c.toNat / 262144 % 8 + 240 < 256 by omega)
    have e₁ := toNat_ofNat_byte (show c.toNat / 4096 % 64 + 128 < 256 by omega)
    have e₂ := toNat_ofNat_byte (show c.toNat / 64 % 64 + 128 < 256 by omega)
    have e₃ := toNat_ofNat_byte (show c.toNat % 64 + 128 < 256 by omega)
    refine uncons?_multibyte (by rw [UInt8.lt_iff_toNat_lt, e₀]; simp) ?_
    refine (multibyte?_four ?_ ?_ ?_ ?_ ?_ ?_ ?_ ?_ ?_ ?_ r).trans (by rw [hc _ (by omega)]) <;> omega

theorem eq_ofNat_byte {b : UInt8} {n : Nat} (h : n = b.toNat) : UInt8.ofNat n = b := by
  simp [h]

theorem utf8_ascii {b : UInt8} (h : b < 0x80) : String.utf8EncodeChar (Char.ofNat b.toNat) = [b] := by
  have hb : b.toNat < 0x80 := UInt8.lt_iff_toNat_lt.mp h
  have hn : (Char.ofNat b.toNat).val.toNat = b.toNat := toNat_ofNat_valid (.inl (by omega))
  simp only [String.utf8EncodeChar, hn]
  rw [if_pos (by omega), eq_ofNat_byte rfl]

theorem utf8_two {b b₁ : UInt8} (hb : 0xC2 ≤ b.toNat) (hb' : b.toNat ≤ 0xDF)
    (h₁ : 0x80 ≤ b₁.toNat) (h₁' : b₁.toNat ≤ 0xBF) :
    String.utf8EncodeChar (Char.ofNat ((b.toNat - 0xC0) * 64 + b₁.toNat % 64)) = [b, b₁] := by
  have hn : (Char.ofNat ((b.toNat - 0xC0) * 64 + b₁.toNat % 64)).val.toNat = _ :=
    toNat_ofNat_valid (.inl (by omega))
  simp only [String.utf8EncodeChar, hn]
  rw [if_neg (by omega), if_pos (by omega), eq_ofNat_byte (b := b) (by omega),
    eq_ofNat_byte (b := b₁) (by omega)]

theorem utf8_three {b b₁ b₂ : UInt8} (hb : 0xE0 ≤ b.toNat) (hb' : b.toNat ≤ 0xEF)
    (h₁ : 0x80 ≤ b₁.toNat) (h₁' : b₁.toNat ≤ 0xBF) (h₂ : 0x80 ≤ b₂.toNat) (h₂' : b₂.toNat ≤ 0xBF)
    (hlow : b.toNat = 0xE0 → 0xA0 ≤ b₁.toNat) (hgap : b.toNat = 0xED → b₁.toNat ≤ 0x9F) :
    String.utf8EncodeChar (Char.ofNat ((b.toNat - 0xE0) * 4096 + b₁.toNat % 64 * 64 + b₂.toNat % 64)) =
      [b, b₁, b₂] := by
  have hn : (Char.ofNat ((b.toNat - 0xE0) * 4096 + b₁.toNat % 64 * 64 + b₂.toNat % 64)).val.toNat = _ :=
    toNat_ofNat_valid (by simp only [Nat.isValidChar]; omega)
  simp only [String.utf8EncodeChar, hn]
  rw [if_neg (by omega), if_neg (by omega), if_pos (by omega), eq_ofNat_byte (b := b) (by omega),
    eq_ofNat_byte (b := b₁) (by omega), eq_ofNat_byte (b := b₂) (by omega)]

theorem utf8_four {b b₁ b₂ b₃ : UInt8} (hb : 0xF0 ≤ b.toNat) (hb' : b.toNat ≤ 0xF4)
    (h₁ : 0x80 ≤ b₁.toNat) (h₁' : b₁.toNat ≤ 0xBF) (h₂ : 0x80 ≤ b₂.toNat) (h₂' : b₂.toNat ≤ 0xBF)
    (h₃ : 0x80 ≤ b₃.toNat) (h₃' : b₃.toNat ≤ 0xBF) (hlow : b.toNat = 0xF0 → 0x90 ≤ b₁.toNat)
    (htop : b.toNat = 0xF4 → b₁.toNat ≤ 0x8F) :
    String.utf8EncodeChar (Char.ofNat ((b.toNat - 0xF0) * 262144 + b₁.toNat % 64 * 4096
      + b₂.toNat % 64 * 64 + b₃.toNat % 64)) = [b, b₁, b₂, b₃] := by
  have hn : (Char.ofNat ((b.toNat - 0xF0) * 262144 + b₁.toNat % 64 * 4096 + b₂.toNat % 64 * 64
      + b₃.toNat % 64)).val.toNat = _ := toNat_ofNat_valid (.inr (by omega))
  simp only [String.utf8EncodeChar, hn]
  rw [if_neg (by omega), if_neg (by omega), if_neg (by omega), eq_ofNat_byte (b := b) (by omega),
    eq_ofNat_byte (b := b₁) (by omega), eq_ofNat_byte (b := b₂) (by omega),
    eq_ofNat_byte (b := b₃) (by omega)]

theorem multibyte?_sound {b : UInt8} {t r : Text} {c : Char} (h : multibyte? b t = some (c, r)) :
    b :: t = String.utf8EncodeChar c ++ r := by
  have two {b₁ : UInt8} {rest : Text} (hb : (0xC2 ≤ b && b ≤ 0xDF && isTail b₁) = true)
      (h : (Char.ofNat ((b.toNat - 0xC0) * 64 + tailBits b₁), rest) = (c, r)) :
      b :: b₁ :: rest = String.utf8EncodeChar c ++ r := by
    obtain ⟨rfl, rfl⟩ := Prod.mk.inj h
    simp only [isTail, UInt8.le_iff_toNat_le, Bool.and_eq_true, decide_eq_true_eq] at hb
    rw [tailBits, utf8_two hb.1.1 hb.1.2 hb.2.1 hb.2.2]
    rfl
  have three {b₁ b₂ : UInt8} {rest : Text} (hb : (multibyte?.isThree b b₁ && isTail b₂) = true)
      (h : (Char.ofNat ((b.toNat - 0xE0) * 4096 + tailBits b₁ * 64 + tailBits b₂), rest) = (c, r)) :
      b :: b₁ :: b₂ :: rest = String.utf8EncodeChar c ++ r := by
    obtain ⟨rfl, rfl⟩ := Prod.mk.inj h
    simp [multibyte?.isThree, isTail, UInt8.le_iff_toNat_le, ← UInt8.toNat_inj] at hb
    rw [tailBits, tailBits, utf8_three (by omega) (by omega) (by omega) (by omega) (by omega) (by omega)
      (by omega) (by omega)]
    rfl
  unfold multibyte? at h
  split at h
  · split at h
    case isTrue hb => exact two hb (Option.some.inj h)
    split at h
    case isTrue hb => exact three hb (Option.some.inj h)
    split at h
    case isTrue hb =>
      obtain ⟨rfl, rfl⟩ := Prod.mk.inj (Option.some.inj h)
      simp [multibyte?.isFour, isTail, UInt8.le_iff_toNat_le, ← UInt8.toNat_inj] at hb
      rw [tailBits, tailBits, tailBits, utf8_four (by omega) (by omega) (by omega) (by omega)
        (by omega) (by omega) (by omega) (by omega) (by omega) (by omega)]
      rfl
    case isFalse => simp at h
  · split at h
    case isTrue hb => exact two hb (Option.some.inj h)
    split at h
    case isTrue hb => exact three hb (Option.some.inj h)
    case isFalse => simp at h
  · split at h
    case isTrue hb => exact two hb (Option.some.inj h)
    case isFalse => simp at h
  · simp at h

/-- A byte that begins no character begins none either when a byte follows that continues none. -/
theorem multibyte?_append_of_none {b d : UInt8} {t : Text} (h : multibyte? b t = none)
    (hd : isTail d = false) (r : Text) : multibyte? b (t ++ d :: r) = none := by
  have hthree (b₁ : UInt8) : multibyte?.isThree b b₁ = true → isTail b₁ = true := by
    simp only [multibyte?.isThree, Bool.and_eq_true]
    tauto
  have hfour (b₁ : UInt8) : multibyte?.isFour b b₁ = true → isTail b₁ = true := by
    simp only [multibyte?.isFour, Bool.and_eq_true]
    tauto
  rcases t with _ | ⟨b₁, _ | ⟨b₂, _ | ⟨b₃, t⟩⟩⟩
  · have h₃ : multibyte?.isThree b d = false := by
      by_contra hne
      simp [hthree d (by simpa using hne)] at hd
    have h₄ : multibyte?.isFour b d = false := by
      by_contra hne
      simp [hfour d (by simpa using hne)] at hd
    rcases r with _ | ⟨c₁, _ | ⟨c₂, r⟩⟩ <;> simp [multibyte?, hd, h₃, h₄]
  · simp only [multibyte?] at h
    split_ifs at h with htwo
    rcases r with _ | ⟨c₁, r⟩ <;> simp [multibyte?, hd, htwo]
  · simp only [multibyte?] at h
    split_ifs at h with htwo hthr
    simp [multibyte?, hd, htwo, hthr]
  · simp only [multibyte?] at h
    split_ifs at h with htwo hthr hfou
    simp [multibyte?, htwo, hthr, hfou]

theorem uncons?_sound {t r : Text} {c : Char} (h : uncons? t = some (.char c, r)) :
    t = String.utf8EncodeChar c ++ r := by
  cases t with
  | nil => simp [uncons?] at h
  | cons b t =>
    simp only [uncons?] at h
    split at h
    · rename_i hb
      obtain ⟨hc, rfl⟩ := Prod.mk.inj (Option.some.inj h)
      obtain rfl := Piece.char.inj hc
      rw [utf8_ascii hb]
      rfl
    · split at h
      · rename_i c' r' hm
        obtain ⟨hc, rfl⟩ := Prod.mk.inj (Option.some.inj h)
        obtain rfl := Piece.char.inj hc
        exact multibyte?_sound hm
      · simp at h

/-- The encoding of a character is one byte below 0x80, or it begins with a higher byte. -/
theorem utf8_cases (c : Char) :
    (∃ b : UInt8, String.utf8EncodeChar c = [b] ∧ b < 0x80 ∧ b.toNat = c.toNat) ∨
    ∃ b tail, String.utf8EncodeChar c = b :: tail ∧ ¬b < 0x80 ∧
      ∀ r, multibyte? b (tail ++ r) = some (c, r) := by
  obtain ⟨b, tail, he⟩ := List.exists_cons_of_ne_nil (String.utf8EncodeChar_ne_nil (c := c))
  by_cases hb : b < 0x80
  · have h := uncons?_utf8 c []
    rw [he, List.append_nil, uncons?_ascii hb] at h
    obtain ⟨hc, rfl⟩ := Prod.mk.inj (Option.some.inj h)
    refine .inl ⟨b, he, hb, ?_⟩
    rw [← Piece.char.inj hc, toNat_ofNat_valid]
    have := UInt8.lt_iff_toNat_lt.mp hb
    exact .inl (by simp at this; omega)
  · refine .inr ⟨b, tail, he, hb, fun r => ?_⟩
    have h := uncons?_utf8 c r
    rw [he, List.cons_append] at h
    simp only [uncons?, if_neg hb] at h
    split at h
    · rename_i hm
      obtain ⟨hc, rfl⟩ := Prod.mk.inj (Option.some.inj h)
      rw [hm, Piece.char.inj hc]
    · simp at h

/-- A byte below 0x80 stands only for its own character. -/
theorem toNat_of_mem_utf8 {c : Char} {b : UInt8} (hb : b ∈ String.utf8EncodeChar c)
    (h : b.toNat < 0x80) : b.toNat = c.toNat := by
  have hval : c.val.toNat = c.toNat := rfl
  unfold String.utf8EncodeChar at hb
  simp only [hval] at hb
  split_ifs at hb <;> simp only [List.mem_cons, List.not_mem_nil, or_false] at hb
  · rw [hb, toNat_ofNat_byte (by omega)]
  · rcases hb with rfl | rfl <;> rw [toNat_ofNat_byte (by omega)] at h <;> omega
  · rcases hb with rfl | rfl | rfl <;> rw [toNat_ofNat_byte (by omega)] at h <;> omega
  · rcases hb with rfl | rfl | rfl | rfl <;> rw [toNat_ofNat_byte (by omega)] at h <;> omega

/-! ## Whole texts -/

theorem piecesLoop_append (seen before : List Piece) (t : Text) :
    piecesLoop (seen ++ before) t = before.reverse ++ piecesLoop seen t := by
  fun_induction piecesLoop seen t with
  | case1 seen t h =>
    rw [piecesLoop, h]
    simp
  | case2 seen t p r h ih =>
    rw [piecesLoop, h]
    exact ih

theorem pieces_of_uncons? {t r : Text} {p : Piece} (h : uncons? t = some (p, r)) :
    pieces t = p :: pieces r := by
  rw [pieces, piecesLoop, h]
  exact piecesLoop_append [] [p] r

theorem uncons?_bytes {t r : Text} {p : Piece} (h : uncons? t = some (p, r)) : t = p.bytes ++ r := by
  cases p with
  | char c => exact uncons?_sound h
  | stray b =>
    cases t with
    | nil => simp [uncons?] at h
    | cons d t =>
      simp only [uncons?] at h
      split at h
      · cases h
      · split at h <;> cases h
        rfl

theorem flatMap_bytes_pieces (t : Text) : (pieces t).flatMap Piece.bytes = t := by
  induction hn : t.length using Nat.strongRecOn generalizing t with
  | ind n ih =>
    cases hu : uncons? t with
    | none =>
      rw [pieces, piecesLoop, hu]
      cases t with
      | nil => rfl
      | cons b t =>
        simp only [uncons?] at hu
        split at hu
        · cases hu
        · split at hu <;> cases hu
    | some step =>
      obtain ⟨p, r⟩ := step
      rw [pieces_of_uncons? hu, List.flatMap_cons, ih r.length (hn ▸ length_of_uncons? hu) r rfl,
        ← uncons?_bytes hu]

/-- The pieces of an encoding are the characters encoded. -/
theorem pieces_ofChars (cs : List Char) : pieces (ofChars cs) = cs.map .char := by
  induction cs with
  | nil => rw [pieces, piecesLoop]; rfl
  | cons c cs ih => rw [List.map_cons, ← ih]; exact pieces_of_uncons? (uncons?_utf8 c (ofChars cs))

theorem chars_ofChars (cs : List Char) : chars (ofChars cs) = cs := by
  rw [chars, pieces_ofChars, List.map_map]
  exact List.map_id cs

theorem ofChars_injective : Function.Injective ofChars :=
  Function.LeftInverse.injective chars_ofChars

/-- The well-formed texts are the encodings of lists of characters. -/
theorem isUtf8_iff {t : Text} : t.isUtf8 = true ↔ ∃ cs, t = ofChars cs := by
  constructor
  · intro h
    induction hn : t.length using Nat.strongRecOn generalizing t with
    | ind n ih =>
      cases hu : uncons? t with
      | none =>
        cases t with
        | nil => exact ⟨[], rfl⟩
        | cons b t =>
          simp only [uncons?] at hu
          split at hu
          · simp at hu
          · split at hu <;> simp at hu
      | some step =>
        obtain ⟨p, r⟩ := step
        have hlen := length_of_uncons? hu
        rw [isUtf8, pieces_of_uncons? hu, List.all_cons, Bool.and_eq_true] at h
        cases p with
        | stray b => simp at h
        | char c =>
          obtain ⟨cs, hcs⟩ := ih r.length (hn ▸ hlen) h.2 rfl
          exact ⟨c :: cs, by rw [uncons?_sound hu, hcs]; rfl⟩
  · rintro ⟨cs, rfl⟩
    simp [isUtf8, pieces_ofChars]

theorem isUtf8_ofString (s : String) : (ofString s).isUtf8 = true :=
  isUtf8_iff.mpr ⟨s.toList, rfl⟩

theorem isUtf8_append {t u : Text} (ht : t.isUtf8 = true) (hu : u.isUtf8 = true) :
    isUtf8 (t ++ u) = true := by
  obtain ⟨cs, rfl⟩ := isUtf8_iff.mp ht
  obtain ⟨ds, rfl⟩ := isUtf8_iff.mp hu
  exact isUtf8_iff.mpr ⟨cs ++ ds, by simp [ofChars]⟩

theorem isUtf8_of_ascii {t : Text} (h : ∀ b ∈ t, b < 0x80) : t.isUtf8 = true := by
  induction t with
  | nil => exact isUtf8_iff.mpr ⟨[], rfl⟩
  | cons b t ih =>
    obtain ⟨hb, ht⟩ := List.forall_mem_cons.mp h
    have hbyte : isUtf8 [b] = true := by
      refine isUtf8_iff.mpr ⟨[Char.ofNat b.toNat], ?_⟩
      rw [ofChars, List.flatMap_singleton, utf8_ascii hb]
    exact isUtf8_append hbyte (ih ht)

theorem isUtf8_hex (width n : Nat) : (hex width n).isUtf8 = true := by
  have hdigit : ∀ d : Fin 16, hexDigit d < 0x80 := by decide
  induction width generalizing n with
  | zero => exact isUtf8_of_ascii (List.forall_mem_nil _)
  | succ width ih =>
    refine isUtf8_append (ih _) (isUtf8_of_ascii ?_)
    exact List.forall_mem_singleton.mpr (hdigit ⟨n % 16, Nat.mod_lt n (by decide)⟩)

end WireSchema.Text
