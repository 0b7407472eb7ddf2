import WireSchema.Number.BinaryText
import WireSchema.Number.Decimal
import WireSchema.Number.Shortest
import WireSchema.Token.Basic
import WireSchema.Yaml.Node
import WireSchema.Yaml.Timestamp

/-!
# What scalars mean

A plain scalar without a tag may spell a number, a truth value, null or a timestamp; every other
scalar is text unless its tag says otherwise.
-/

namespace WireSchema.Yaml

/-- What a scalar means. -/
inductive Meaning where
  | null
  | truth (value : Bool)
  | integer (value : Int)
  | float (value : Binary)
  | timestamp
  | text
  deriving DecidableEq, Repr

namespace Meaning

def words : List (Text × Meaning) :=
  [("", .null), ("~", .null), ("null", .null), ("Null", .null), ("NULL", .null),
    ("true", .truth true), ("True", .truth true), ("TRUE", .truth true),
    ("false", .truth false), ("False", .truth false), ("FALSE", .truth false),
    (".nan", .float .nan), (".NaN", .float .nan), (".NAN", .float .nan),
    (".inf", .float (.infinite false)), (".Inf", .float (.infinite false)),
    (".INF", .float (.infinite false)), ("+.inf", .float (.infinite false)),
    ("+.Inf", .float (.infinite false)), ("+.INF", .float (.infinite false)),
    ("-.inf", .float (.infinite true)), ("-.Inf", .float (.infinite true)),
    ("-.INF", .float (.infinite true))]

/-- Passes over digits, of which there must be one. -/
def skipDigits? (t : Text) : Option Text :=
  match t with
  | d :: rest => if Text.isDigit d then some (rest.dropWhile Text.isDigit) else none
  | [] => none

def skipSign : Text → Text
  | b :: rest => if b == 0x2B || b == 0x2D then rest else b :: rest
  | [] => []

/-- Passes over a point and digits after it, if there is a point. -/
def skipFraction : Text → Text
  | 0x2E :: rest => rest.dropWhile Text.isDigit
  | t => t

/-- Passes over digits with a point, of which there must be one digit. -/
def skipMantissa? : Text → Option Text
  | 0x2E :: rest => skipDigits? rest
  | t => (skipDigits? t).map skipFraction

/-- Does the text have the form of a decimal number: a sign, digits with a point, an exponent? -/
def isDecimalForm (t : Text) : Bool :=
  match skipMantissa? (skipSign t) with
  | none => false
  | some [] => true
  | some (e :: rest) => (e == 0x65 || e == 0x45) && skipDigits? (skipSign rest) == some []

/-- A signed integer of 64 bits in the given base. -/
def inBase? (base : Nat) (t : Text) : Option Int :=
  match Integer.readBase base 64 t with
  | (n, none) => some n
  | _ => none

def unsigned? : Integer.Scan → Option Int
  | .value n => some n
  | _ => none

/-- An integer of 64 bits that announces its base, signed or not. -/
def integer? (t : Text) : Option Int :=
  match Integer.readAnnounced 64 t with
  | (n, none) => some n
  | _ => unsigned? (Integer.scanAnnounced 64 t)

/-- A decimal number that double precision has a finite number for. -/
def float? (t : Text) : Option Binary :=
  if isDecimalForm t then
    match Binary.read .double t with
    | (x, none) => some x
    | _ => none
  else none

/-- An integer of 64 bits after `0b` or `0o`, with a sign before it or behind. -/
def prefixed? (t : Text) : Option Int :=
  match t with
  | 0x30 :: 0x62 :: rest => (inBase? 2 rest).or (unsigned? (Integer.scanUnsigned 2 64 rest))
  | 0x2D :: 0x30 :: 0x62 :: rest => inBase? 2 (0x2D :: rest)
  | 0x30 :: 0x6F :: rest => (inBase? 8 rest).or (unsigned? (Integer.scanUnsigned 8 64 rest))
  | 0x2D :: 0x30 :: 0x6F :: rest => inBase? 8 (0x2D :: rest)
  | _ => none

/-- The number that a text spells, its underscores gone: an integer or a decimal number. -/
def number? (t : Text) : Option Meaning :=
  let t := t.filter (· != 0x5F)
  match integer? t with
  | some n => some (.integer n)
  | none =>
    match float? t with
    | some x => some (.float x)
    | none => (prefixed? t).map .integer

/-- The meaning of a plain text; timestamps are looked for only if `timestamps` says so. -/
def ofText (timestamps : Bool) (t : Text) : Meaning :=
  match words.lookup t with
  | some m => m
  | none =>
    match t with
    | [] => .text
    | b :: _ =>
      if b == 0x2E then
        match Binary.read .double t with
        | (x, none) => .float x
        | _ => .text
      else if Text.isDigit b || b == 0x2B || b == 0x2D then
        if timestamps && Timestamp.accepts t then .timestamp
        else (number? t).getD .text
      else .text

def tag : Meaning → Text
  | .null => "!!null"
  | .truth _ => "!!bool"
  | .integer _ => "!!int"
  | .float _ => "!!float"
  | .timestamp => "!!timestamp"
  | .text => "!!str"

end Meaning

def maxInteger : Int := 9223372036854775807

/-- The tag of a scalar: the one that is written, or what its text means. -/
def scalarTag (tag : Text) (style : ScalarStyle) (value : Text) : Text :=
  if !tag.isEmpty then tag
  else if style != .plain then "!!str"
  else if value == "<<" then "!!merge"
  else (Meaning.ofText true value).tag

/-- The floating-point number that a scalar with the tag of one means. -/
def floatOf? (value : Text) : Option Binary :=
  match Meaning.ofText false value with
  | .float x => some x
  | .integer n =>
    if n ≤ maxInteger then some (Binary.ofRatio .double (n < 0) n.natAbs 1) else none
  | _ => none

/-- The failure over a text that does not mean what its tag says. -/
def cannotDecode (value tag : Text) : Failure :=
  .malformedYaml ("yaml: cannot decode " ++ (Meaning.ofText false value).tag ++ " `" ++ value
    ++ "` as a " ++ tag)

/-- The token of a scalar. A number keeps its text, but an integer of 64 bits is written in decimal
digits and a float that is no decimal number is written anew; a truth value must be one. -/
def scalarToken (tag : Text) (style : ScalarStyle) (value : Text) : Except Failure Token :=
  let tag := scalarTag tag style value
  if tag == "!!null" then .ok .null
  else if tag == "!!bool" then
    match Meaning.ofText false value with
    | .truth b => .ok (.bool b)
    | _ => .error (cannotDecode value tag)
  else if tag == "!!int" then
    match Meaning.ofText false value with
    -- an integer that only fits without a sign keeps its text
    | .integer n => .ok (.number (if n ≤ maxInteger then Text.ofInt n else value))
    | _ => .ok (.number value)
  else if tag == "!!float" then
    match Decimal.parse value with
    | .ok _ => .ok (.number value)
    | .error _ =>
      match floatOf? value with
      | some x => .ok (.number (x.toText .double))
      | none => .error (cannotDecode value tag)
  else .ok (.string value)

end WireSchema.Yaml
