import WireSchema.Failure
import WireSchema.Schema.Basic

/-!
# Schema text

One construct per line:

* `Name` or `Name: Base1, Base2` declares an object, `:Name` an interface;
* `- key: type` declares a field of the object above it, `- "key" => name: [type]` an array under
  another name, `- * => name: {type}` the dictionary of all other keys.

Text after `//` and blank lines are ignored. The first malformed line ends the reading.
-/

namespace WireSchema.Schema

/-! ## Lines -/

/-- What a line holds, once comments and blanks are gone. -/
inductive Line where
  | blank
  | property (body : Text)
  | object (isInterface : Bool) (body : Text)
  deriving DecidableEq, Repr

/-- The text of a line before any comment, without blanks around it. -/
def uncommented (raw : Text) : Text :=
  match Text.cut? raw "//" with
  | some (before, _) => Text.trim before
  | none => Text.trim raw

/-- What a line holds, by its first character. -/
def Line.ofText (raw : Text) : Line :=
  match uncommented raw with
  | [] => .blank
  | 0x2D :: body => .property (Text.trim body)
  | 0x3A :: body => .object true (Text.trim body)
  | body => .object false body

/-! ## Properties -/

/-- Splits at the first colon outside double quotes; `seen` holds the bytes passed, last first. -/
def splitAtColon : (quoted : Bool) → (seen : Text) → Text → Option (Text × Text)
  | _, _, [] => none
  | quoted, seen, b :: rest =>
    if b == 0x3A && !quoted then some (seen.reverse, rest)
    else splitAtColon (if b == 0x22 then !quoted else quoted) (b :: seen) rest

/-- The text between a first byte `left` and a last byte `right`. -/
def unenclosed? (left right : UInt8) : Text → Option Text
  | b :: rest =>
    if b == left && rest.getLast? == some right then some rest.dropLast else none
  | [] => none

/-- Takes off one pair of brackets, if there is any; half a pair is a fault. -/
def unbracket (left right : UInt8) (fault : Fault) (t : Text) : Except Fault (Bool × Text) :=
  if t.head? == some left || t.getLast? == some right then
    match unenclosed? left right t with
    | some inner => .ok (true, Text.trim inner)
    | none => .error fault
  else .ok (false, t)

/-- The key and the name before the colon of a property. -/
def keyAndName (t : Text) : Except Fault (Text × Text) := do
  let (key, name) ← match Text.cut? t "=>" with
    | none => pure (t, [])
    | some (key, name) =>
      let name := Text.trim name
      if name.isEmpty then .error .missingFieldName else pure (Text.trim key, name)
  let key := Text.trim key
  let key := (unenclosed? 0x22 0x22 key).getD key
  if key.isEmpty then .error .missingKey
  else pure (key, if name.isEmpty then key else name)

def Property.parse (line : Nat) (body : Text) : Except Fault Property := do
  match splitAtColon false [] body with
  | none => .error .noPropertyType
  | some (left, type) =>
    let (isArray, type) ← unbracket 0x5B 0x5D .arrayBrackets (Text.trim type)
    let (isDictionary, type) ← unbracket 0x7B 0x7D .dictionaryBraces type
    if type.isEmpty then .error .missingType
    else
      let (key, name) ← keyAndName (Text.trim left)
      pure { key, name, type, isArray, isDictionary, line }

/-! ## Objects -/

/-- The bases listed after the colon of an object. -/
def parseBases (t : Text) : Except Fault (List Text) :=
  (Text.splitOn t 0x2C).mapM fun base =>
    let base := Text.trim base
    if base.isEmpty then .error .emptyBase else .ok base

def Declaration.parse (line : Nat) (isInterface : Bool) (body : Text) :
    Except Fault Declaration := do
  let (name, bases) ← match Text.cut? body ":" with
    | some (name, bases) => do pure (Text.trim name, ← parseBases bases)
    | none => pure (body, [])
  if name.isEmpty then .error .missingObjectName
  else pure { name, isInterface, bases, line }

/-! ## The whole text -/

/-- The declarations read so far: the finished ones, last first, and the one under way. -/
structure Progress where
  finished : List Declaration := []
  current : Option Declaration := none
  deriving DecidableEq, Repr

namespace Progress

/-- The finished declarations, with the one under way among them. -/
def close (p : Progress) : List Declaration :=
  match p.current with
  | some d => d :: p.finished
  | none => p.finished

def step (p : Progress) (line : Nat) (raw : Text) : Except Fault Progress :=
  match Line.ofText raw with
  | .blank => .ok p
  | .property body =>
    match p.current with
    | none => .error .propertyBeforeObject
    | some d => do
      let property ← Property.parse line body
      pure { p with current := some { d with properties := d.properties ++ [property] } }
  | .object isInterface body => do
    let d ← Declaration.parse line isInterface body
    pure { finished := p.close, current := some d }

end Progress

def chomp (line : Text) : Text := (Text.dropEnd? line "\r").getD line

/-- The lines of a text; one at the very end counts only if there is something on it. -/
def lines (t : Text) : List Text :=
  let all := Text.splitOn t 0x0A
  if all.getLast? == some [] then all.dropLast else all

/-- The size from which on a line is refused. -/
def lineLimit : Nat := 1048576

/-- Takes in the lines from number `n` on. -/
def parseLines : Progress → Nat → List Text → Except Failure (List Declaration)
  | p, _, [] => .ok p.close.reverse
  | p, n, raw :: rest =>
    if lineLimit ≤ raw.length then .error (.plain "bufio.Scanner: token too long")
    else
      let line := chomp raw
      match p.step n line with
      | .error fault => .error (.schemaSyntax n line fault.message)
      | .ok p => parseLines p (n + 1) rest

/-- The declarations of a schema text, in order. -/
def parse (t : Text) : Except Failure (List Declaration) := parseLines {} 1 (lines t)

end WireSchema.Schema
