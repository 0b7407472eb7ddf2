import WireSchema.Text.Basic

/-!
# Characters of a text

A text is read as a sequence of pieces: a character wherever the bytes are well-formed UTF-8, and
a stray byte wherever they are not. Decoding restarts at the byte after a stray one, so a
well-formed character is never lost to the damage before it.
-/

namespace WireSchema

/-- What stands at a place of a text: a character, or a byte that starts none. -/
inductive Piece where
  | char (c : Char)
  | stray (b : UInt8)
  deriving DecidableEq, Repr

namespace Piece

def bytes : Piece → Text
  | .char c => String.utf8EncodeChar c
  | .stray b => [b]

/-- The character of a piece; a stray byte counts as U+FFFD. -/
def toChar : Piece → Char
  | .char c => c
  | .stray _ => '�'

end Piece

namespace Text

def isTail (b : UInt8) : Bool := 0x80 ≤ b && b ≤ 0xBF

/-- The low six bits of a continuation byte. -/
def tailBits (b : UInt8) : Nat := b.toNat % 64

/-- The character of several bytes that starts with `b`, and the text after it. Overlong forms,
surrogates and values above U+10FFFF are refused. -/
def multibyte? (b : UInt8) : Text → Option (Char × Text)
  | b₁ :: b₂ :: b₃ :: r =>
    if 0xC2 ≤ b && b ≤ 0xDF && isTail b₁ then
      some (Char.ofNat ((b.toNat - 0xC0) * 64 + tailBits b₁), b₂ :: b₃ :: r)
    else if isThree b b₁ && isTail b₂ then
      some (Char.ofNat ((b.toNat - 0xE0) * 4096 + tailBits b₁ * 64 + tailBits b₂), b₃ :: r)
    else if isFour b b₁ && isTail b₂ && isTail b₃ then
      some (Char.ofNat ((b.toNat - 0xF0) * 262144 + tailBits b₁ * 4096 + tailBits b₂ * 64
        + tailBits b₃), r)
    else none
  | [b₁, b₂] =>
    if 0xC2 ≤ b && b ≤ 0xDF && isTail b₁ then
      some (Char.ofNat ((b.toNat - 0xC0) * 64 + tailBits b₁), [b₂])
    else if isThree b b₁ && isTail b₂ then
      some (Char.ofNat ((b.toNat - 0xE0) * 4096 + tailBits b₁ * 64 + tailBits b₂), [])
    else none
  | [b₁] =>
    if 0xC2 ≤ b && b ≤ 0xDF && isTail b₁ then
      some (Char.ofNat ((b.toNat - 0xC0) * 64 + tailBits b₁), [])
    else none
  | [] => none
where
  /-- The first two bytes of a character of three. -/
  isThree (b b₁ : UInt8) : Bool :=
    0xE0 ≤ b && b ≤ 0xEF && isTail b₁ && (b != 0xE0 || 0xA0 ≤ b₁) && (b != 0xED || b₁ ≤ 0x9F)
  /-- The first two bytes of a character of four. -/
  isFour (b b₁ : UInt8) : Bool :=
    0xF0 ≤ b && b ≤ 0xF4 && isTail b₁ && (b != 0xF0 || 0x90 ≤ b₁) && (b != 0xF4 || b₁ ≤ 0x8F)

theorem length_of_multibyte? {b : UInt8} {t r : Text} {c : Char}
    (h : multibyte? b t = some (c, r)) : r.length < t.length := by
  unfold multibyte? at h
  split at h
  · split at h
    · simp only [Option.some.injEq, Prod.mk.injEq] at h; simp [← h.2]
    · split at h
      · simp only [Option.some.injEq, Prod.mk.injEq] at h; simp [← h.2]
      · split at h
        · simp only [Option.some.injEq, Prod.mk.injEq] at h; simp [← h.2]; omega
        · simp at h
  · split at h
    · simp only [Option.some.injEq, Prod.mk.injEq] at h; simp [← h.2]
    · split at h
      · simp only [Option.some.injEq, Prod.mk.injEq] at h; simp [← h.2]
      · simp at h
  · split at h
    · simp only [Option.some.injEq, Prod.mk.injEq] at h; simp [← h.2]
    · simp at h
  · simp at h

/-- The first piece of a text and the text after it. -/
def uncons? : Text → Option (Piece × Text)
  | [] => none
  | b :: r =>
    if b < 0x80 then some (.char (Char.ofNat b.toNat), r)
    else
      match multibyte? b r with
      | some (c, r') => some (.char c, r')
      | none => some (.stray b, r)

theorem length_of_uncons? {t r : Text} {p : Piece} (h : uncons? t = some (p, r)) :
    r.length < t.length := by
  cases t with
  | nil => simp [uncons?] at h
  | cons b t =>
    simp only [uncons?] at h
    split at h
    · simp only [Option.some.injEq, Prod.mk.injEq] at h; simp [h.2]
    · split at h
      · rename_i c r' hm
        simp only [Option.some.injEq, Prod.mk.injEq] at h
        have := length_of_multibyte? hm
        simp [← h.2]; omega
      · simp only [Option.some.injEq, Prod.mk.injEq] at h; simp [h.2]

/-- The loop of `pieces`: `seen` holds the pieces passed, last first. -/
def piecesLoop (seen : List Piece) (t : Text) : List Piece :=
  match _h : uncons? t with
  | none => seen.reverse
  | some (p, r) => piecesLoop (p :: seen) r
termination_by t.length
decreasing_by exact length_of_uncons? _h

def pieces (t : Text) : List Piece := piecesLoop [] t

/-- The characters of a text, with U+FFFD for every stray byte. -/
def chars (t : Text) : List Char := (pieces t).map Piece.toChar

def chars? (t : Text) : Option (List Char) :=
  (pieces t).mapM fun
    | .char c => some c
    | .stray _ => none

/-- Is the text well-formed UTF-8? -/
def isUtf8 (t : Text) : Bool := (pieces t).all fun
  | .char _ => true
  | .stray _ => false

/-- The text with U+FFFD for every stray byte. -/
def mended (t : Text) : Text := ofChars (chars t)

/-- The number of characters, a stray byte counting as one. -/
def charCount (t : Text) : Nat := (pieces t).length

def toString? (t : Text) : Option String := (chars? t).map String.ofList

end Text

end WireSchema
