import WireSchema.Json.Escape
import WireSchema.Proofs.Json.Tree

/-!
# The grammar of JSON

Which texts spell a document: `Tree.Spells t x` says that the text `x`, from its first byte to its
last, is a way to write the tree `t`. Blanks may stand around every token, and a string may be written
with escapes or without; half of a surrogate pair stands for U+FFFD. Numbers keep their literals.
-/

namespace WireSchema.Json

def Blank (x : Text) : Prop := ∀ b ∈ x, b = 0x20 ∨ b = 0x09 ∨ b = 0x0A ∨ b = 0x0D

def IsDigits (x : Text) : Prop := x ≠ [] ∧ ∀ b ∈ x, Text.isDigit b = true

/-- The text after the point of a number, with the point; it may be missing. -/
def IsFraction (x : Text) : Prop := x = [] ∨ ∃ ds, x = 0x2E :: ds ∧ IsDigits ds

/-- The exponent of a number, with its mark; it may be missing. -/
def IsExponent (x : Text) : Prop :=
  x = [] ∨ ∃ mark sign ds, x = mark :: sign ++ ds ∧ (mark = 0x65 ∨ mark = 0x45) ∧
    (sign = [] ∨ sign = [0x2B] ∨ sign = [0x2D]) ∧ IsDigits ds

/-- The literal of a number. The whole part has no leading zeros. -/
def IsNumber (x : Text) : Prop :=
  ∃ sign whole fraction exponent, x = sign ++ whole ++ fraction ++ exponent ∧
    (sign = [] ∨ sign = [0x2D]) ∧ IsDigits whole ∧ (whole.head? = some 0x30 → whole = [0x30]) ∧
    IsFraction fraction ∧ IsExponent exponent

inductive SpellsString : (s x : Text) → Prop
  | nil : SpellsString [] []
  | plain {s x : Text} {c : Char} : 0x20 ≤ c.toNat → c ≠ '"' → c ≠ '\\' → SpellsString s x →
      SpellsString (utf8 c ++ s) (utf8 c ++ x)
  | letter {s x : Text} {b value : UInt8} : escaped? b = some value → SpellsString s x →
      SpellsString (value :: s) (0x5C :: b :: x)
  | unit {s x : Text} {a b c d : UInt8} :
      (∀ h ∈ [a, b, c, d], (Text.hexValue? h).isSome = true) → isSurrogate (unit a b c d) = false →
      SpellsString s x →
      SpellsString (utf8 (single (unit a b c d)) ++ s) (0x5C :: 0x75 :: a :: b :: c :: d :: x)
  | pair {s x : Text} {a b c d e f g h : UInt8} {ch : Char} :
      (∀ i ∈ [a, b, c, d, e, f, g, h], (Text.hexValue? i).isSome = true) →
      pair? (unit a b c d) (unit e f g h) = some ch → SpellsString s x →
      SpellsString (utf8 ch ++ s)
        (0x5C :: 0x75 :: a :: b :: c :: d :: 0x5C :: 0x75 :: e :: f :: g :: h :: x)
  -- half of a pair, where the other half does not follow, stands for U+FFFD
  | lone {s x : Text} {a b c d : UInt8} :
      (∀ h ∈ [a, b, c, d], (Text.hexValue? h).isSome = true) → isSurrogate (unit a b c d) = true →
      (∀ e f g h y, x = 0x5C :: 0x75 :: e :: f :: g :: h :: y →
        pair? (unit a b c d) (unit e f g h) = none) →
      SpellsString s x → SpellsString (utf8 '�' ++ s) (0x5C :: 0x75 :: a :: b :: c :: d :: x)
  -- and so does a byte that begins no character
  | stray {s x : Text} {b : UInt8} : ¬b < 0x80 → Text.multibyte? b x = none → SpellsString s x →
      SpellsString (utf8 '�' ++ s) (b :: x)

def SpellsQuoted (s x : Text) : Prop := ∃ body, x = 0x22 :: (body ++ [0x22]) ∧ SpellsString s body

namespace Tree

mutual

def Spells : Tree → Text → Prop
  | .null, x => x = "null"
  | .bool b, x => x = Text.ofBool b
  | .number literal, x => x = literal ∧ IsNumber literal
  | .string s, x => SpellsQuoted s x
  | .array items, x => ∃ body, x = 0x5B :: (body ++ [0x5D]) ∧ SpellsItems items body
  | .object members, x => ∃ body, x = 0x7B :: (body ++ [0x7D]) ∧ SpellsMembers members body

def SpellsItems : List Tree → Text → Prop
  | [], x => Blank x
  | t :: rest, x => ∃ before y after, x = before ++ (y ++ after) ∧ Blank before ∧ Spells t y ∧
      SpellsMoreItems rest after

def SpellsMoreItems : List Tree → Text → Prop
  | [], x => Blank x
  | t :: rest, x => ∃ blank before y after, x = blank ++ 0x2C :: (before ++ (y ++ after)) ∧
      Blank blank ∧ Blank before ∧ Spells t y ∧ SpellsMoreItems rest after

def SpellsMembers : List (Text × Tree) → Text → Prop
  | [], x => Blank x
  | (name, t) :: rest, x => ∃ before key gap after y more,
      x = before ++ (key ++ (gap ++ 0x3A :: (after ++ (y ++ more)))) ∧ Blank before ∧
      SpellsQuoted name key ∧ Blank gap ∧ Blank after ∧ Spells t y ∧ SpellsMoreMembers rest more

def SpellsMoreMembers : List (Text × Tree) → Text → Prop
  | [], x => Blank x
  | (name, t) :: rest, x => ∃ blank before key gap after y more,
      x = blank ++ 0x2C :: (before ++ (key ++ (gap ++ 0x3A :: (after ++ (y ++ more))))) ∧
      Blank blank ∧ Blank before ∧ SpellsQuoted name key ∧ Blank gap ∧ Blank after ∧ Spells t y ∧
      SpellsMoreMembers rest more

end

/-- The text is the value as a document: blanks may stand before it and after it. -/
def Documents (t : Tree) (x : Text) : Prop :=
  ∃ before y after, x = before ++ (y ++ after) ∧ Blank before ∧ t.Spells y ∧ Blank after

end Tree

end WireSchema.Json
