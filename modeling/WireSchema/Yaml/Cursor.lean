import WireSchema.Text.Utf8

/-!
# Characters of a YAML stream

The characters of a stream, whatever its encoding, and a cursor that walks over them and counts
lines and columns.
-/

namespace WireSchema.Yaml

/-! ## Decoding -/

/-- May the character stand in a stream? -/
def isAllowed (c : Char) : Bool :=
  let n := c.toNat
  n == 0x09 || n == 0x0A || n == 0x0D || (0x20 ≤ n && n ≤ 0x7E) || n == 0x85
    || (0xA0 ≤ n && n ≤ 0xD7FF) || (0xE000 ≤ n && n ≤ 0xFFFD) || 0x10000 ≤ n

/-- The characters of UTF-16 units. -/
def ofUnits : List Nat → Option (List Char)
  | [] => some []
  | u :: rest =>
    if 0xDC00 ≤ u && u ≤ 0xDFFF then none
    else if 0xD800 ≤ u && u ≤ 0xDBFF then
      match rest with
      | v :: rest =>
        if 0xDC00 ≤ v && v ≤ 0xDFFF then
          (ofUnits rest).map (Char.ofNat (0x10000 + (u - 0xD800) * 1024 + (v - 0xDC00)) :: ·)
        else none
      | [] => none
    else (ofUnits rest).map (Char.ofNat u :: ·)

/-- The 16-bit units of bytes, the high byte first or last. -/
def units (highFirst : Bool) : Text → Option (List Nat)
  | [] => some []
  | a :: b :: rest =>
    let u := if highFirst then a.toNat * 256 + b.toNat else b.toNat * 256 + a.toNat
    (units highFirst rest).map (u :: ·)
  | [_] => none

/-- The characters of a stream. A byte order mark tells the encoding, which is UTF-8 without one. -/
def decode (t : Text) : Option (List Char) := do
  let cs ← match t with
    | 0xFF :: 0xFE :: rest => ofUnits (← units false rest)
    | 0xFE :: 0xFF :: rest => ofUnits (← units true rest)
    | 0xEF :: 0xBB :: 0xBF :: rest => Text.chars? rest
    | _ => Text.chars? t
  if cs.all isAllowed then some cs else none

/-! ## Classes of characters -/

/-- Is the character a space or a tab? -/
def isBlank (c : Char) : Bool := c == ' ' || c == '\t'

/-- Does the character end a line? -/
def isBreak (c : Char) : Bool :=
  c == '\n' || c == '\r' || c == '\u0085' || c == '\u2028' || c == '\u2029'

/-- Does a word end here: at a blank, a line break or the end of the stream? -/
def atGap : List Char → Bool
  | [] => true
  | c :: _ => isBlank c || isBreak c

/-- May the character stand in the name of an anchor? -/
def isNameChar (c : Char) : Bool := c.isAlphanum || c == '_' || c == '-'

/-! ## The cursor -/

/-- A place in a stream: what is left, and the line, column and index from zero. -/
structure Cursor where
  rest : List Char
  line : Nat := 0
  column : Nat := 0
  index : Nat := 0
  deriving Repr

namespace Cursor

/-- Passes over `n` characters of the line. -/
def advance (c : Cursor) (n : Nat) : Cursor :=
  { c with rest := c.rest.drop n, column := c.column + n, index := c.index + n }

/-- Passes over a line break; a carriage return and a line feed are one. -/
def breakLine (c : Cursor) : Cursor :=
  match c.rest with
  | '\r' :: '\n' :: rest => { rest, line := c.line + 1, column := 0, index := c.index + 2 }
  | _ :: rest => { rest, line := c.line + 1, column := 0, index := c.index + 1 }
  | [] => c

/-- Passes over the characters of the line that satisfy `p`. -/
def skipWhile (p : Char → Bool) (c : Cursor) : Cursor := c.advance (c.rest.takeWhile p).length

/-- Passes over the rest of the line. -/
def toLineEnd (c : Cursor) : Cursor := c.skipWhile (!isBreak ·)

def skipBlanks (c : Cursor) : Cursor := c.skipWhile isBlank

/-- The text that a line break gives: a line feed, but separators stay themselves. -/
def breakChar : Char → Char
  | '\u2028' => '\u2028'
  | '\u2029' => '\u2029'
  | _ => '\n'

/-- Does a document marker (`---` or `...`) stand here, at the start of a line? -/
def atMarker (c : Cursor) : Bool :=
  c.column == 0 &&
    match c.rest with
    | '-' :: '-' :: '-' :: rest => atGap rest
    | '.' :: '.' :: '.' :: rest => atGap rest
    | _ => false

end Cursor

end WireSchema.Yaml
