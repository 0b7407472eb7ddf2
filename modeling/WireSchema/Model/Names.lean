import WireSchema.Text.Utf8
import WireSchema.Text.Letter
import WireSchema.Text.Digit
import WireSchema.Text.Case

/-!
# Names

How names of a schema become identifiers of Go source, and which texts are identifiers at all.
-/

namespace WireSchema

namespace Names

/-- The reserved words of Go. -/
def keywords : List String :=
  ["break", "case", "chan", "const", "continue", "default", "defer", "else", "fallthrough", "for",
    "func", "go", "goto", "if", "import", "interface", "map", "package", "range", "return",
    "select", "struct", "switch", "type", "var"]

def isKeyword (t : Text) : Bool := keywords.any fun k => Text.ofString k == t

def startsIdentifier (c : Char) : Bool := c == '_' || isLetter c

/-- May the character stand inside an identifier? -/
def continuesIdentifier (c : Char) : Bool := c == '_' || isLetter c || isDecimalDigit c

/-- Is the text an identifier: letters, digits and underscores, no digit first, not reserved? -/
def isIdentifier (t : Text) : Bool :=
  !isKeyword t &&
    match Text.chars t with
    | [] => false
    | c :: rest => startsIdentifier c && rest.all continuesIdentifier

/-- Keeps letters and digits only, and capitalises the first one and each one after a gap. -/
def capitalised : (start : Bool) → List Char → List Char
  | _, [] => []
  | start, c :: rest =>
    if isLetter c || isDecimalDigit c then
      (if start then upperChar c else c) :: capitalised false rest
    else capitalised true rest

/-- The exported identifier for a name of a schema. A text that would start with a digit, or be
empty, gets an `X` in front. -/
def exported (t : Text) : Text :=
  match Text.ofChars (capitalised true (Text.chars t)) with
  | [] => "X"
  | b :: rest => if Text.isDigit b then 0x58 :: b :: rest else b :: rest

/-- The name with a small first letter. -/
def unexported (t : Text) : Text :=
  match Text.chars t with
  | [] => []
  | c :: rest => Text.ofChars (lowerChar c :: rest)

/-- The part of a dotted name after the last dot. -/
def lastSegment (t : Text) : Text :=
  match Text.cutLast? t 0x2E with
  | some (_, last) => last
  | none => t

/-- The part of a dotted name before the last dot. -/
def qualifier (t : Text) : Text :=
  match Text.cutLast? t 0x2E with
  | some (before, _) => before
  | none => []

def lowered (t : Text) : Text := Text.ofChars ((Text.chars t).map lowerChar)

end Names

end WireSchema
