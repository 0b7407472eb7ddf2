import WireSchema.Number.Binary
import WireSchema.Number.Integer

/-!
# Reading floating-point numbers

The texts of floating-point numbers: decimal and hexadecimal digits with an exponent, underscores
between digits, and the names of the infinities and of NaN. The number read is the one of the
format nearest to the exact value.
-/

namespace WireSchema.Binary

/-- What the last byte was, for the rule that an underscore stands between digits. -/
inductive Separation where
  | start
  | digit
  | underscore
  | other
  deriving DecidableEq, Repr

/-- Does every underscore stand between two digits? -/
def separated (hex : Bool) : Separation → Text → Bool
  | last, [] => last != .underscore
  | last, b :: rest =>
    if Text.isDigit b || (hex && (Text.hexValue? b).isSome) then separated hex .digit rest
    else if b == 0x5F then last == .digit && separated hex .underscore rest
    else last != .underscore && separated hex .other rest

/-- Are the underscores of a number well placed? A base letter after a zero counts as a digit. -/
def underscoresFit (t : Text) : Bool :=
  match (Integer.splitSign t).2 with
  | 0x30 :: b :: rest =>
    let l := Text.lowerByte b
    if l == 0x62 || l == 0x6F || l == 0x78 then separated (l == 0x78) .digit rest
    else separated false .start (0x30 :: b :: rest)
  | digits => separated false .start digits

/-- The digits of a number: their value, how many stand after the point, and whether there was a
digit or an underscore at all. -/
structure Digits where
  value : Nat := 0
  places : Nat := 0
  point : Bool := false
  any : Bool := false
  underscore : Bool := false
  deriving DecidableEq, Repr

/-- Reads digits, underscores and one point; hands back the rest. -/
def scanMantissa (base : Nat) : Digits → Text → Digits × Text
  | acc, [] => (acc, [])
  | acc, b :: rest =>
    if b == 0x5F then scanMantissa base { acc with underscore := true } rest
    else if b == 0x2E then
      if acc.point then (acc, b :: rest) else scanMantissa base { acc with point := true } rest
    else
      let digit := if base == 16 then Text.hexValue? b
        else if Text.isDigit b then some (b.toNat - 0x30) else none
      match digit with
      | none => (acc, b :: rest)
      | some d =>
        let places := if acc.point then acc.places + 1 else acc.places
        scanMantissa base { acc with value := acc.value * base + d, places, any := true } rest

/-- Reads the digits of an exponent. Beyond five digits its size no longer matters, and further
digits are passed over. -/
def scanExponent : Nat → Bool → Text → Nat × Bool × Text
  | n, u, [] => (n, u, [])
  | n, u, b :: rest =>
    if b == 0x5F then scanExponent n true rest
    else if Text.isDigit b then
      scanExponent (if n < 10000 then n * 10 + (b.toNat - 0x30) else n) u rest
    else (n, u, b :: rest)

structure Parts where
  negative : Bool
  hex : Bool
  value : Nat
  places : Nat
  exponent : Int
  deriving DecidableEq, Repr

/-- The exponent after the mantissa, if the mark is there: its value, whether it holds an
underscore, and the rest. -/
def exponentPart? (hex : Bool) : Text → Option (Int × Bool × Text)
  | [] => if hex then none else some (0, false, [])
  | b :: rest =>
    if Text.lowerByte b != (if hex then 0x70 else 0x65) then none
    else
      let (negative, digits) := Integer.splitSign rest
      match digits with
      | [] => none
      | d :: _ =>
        if !Text.isDigit d then none
        else
          let (n, u, rest) := scanExponent 0 false digits
          some (if negative then -(n : Int) else n, u, rest)

def parts? (t : Text) : Option Parts :=
  let (negative, body) := Integer.splitSign t
  let (hex, digits) := match body with
    | 0x30 :: x :: c :: rest =>
      if Text.lowerByte x == 0x78 then (true, c :: rest) else (false, body)
    | _ => (false, body)
  let (mantissa, rest) := scanMantissa (if hex then 16 else 10) {} digits
  if !mantissa.any then none
  else
    match exponentPart? hex rest with
    | some (exponent, u, []) =>
      if (mantissa.underscore || u) && !underscoresFit t then none
      else some ⟨negative, hex, mantissa.value, mantissa.places, exponent⟩
    | _ => none

/-- The number nearest to `value * base ^ exponent`. An exponent far outside the format is settled
without computing the power. -/
def ofScaled (f : BinaryFormat) (negative : Bool) (base value : Nat) (exponent : Int) : Binary :=
  let size : Int := (Nat.log2 value : Int) + exponent * Nat.log2 base
  if value == 0 then .finite negative 0 f.minExp
  else if 0 ≤ exponent && 5000 < size then .infinite negative
  else if size < -5000 then .finite negative 0 f.minExp
  else
    match exponent with
    | .ofNat e => ofRatio f negative (value * Nat.pow base e) 1
    | .negSucc e => ofRatio f negative value (Nat.pow base (e + 1))

/-- The names of the numbers that have no digits. -/
def named? (t : Text) : Option Binary :=
  let (negative, name) := Integer.splitSign t
  let name := Text.lowerAscii name
  if name == "inf" || name == "infinity" then some (.infinite negative)
  else if Text.lowerAscii t == "nan" then some .nan
  else none

/-- The number of the format that a text spells, and what is wrong with it: a malformed text gives
zero, and a number that is too large the infinity of its sign. -/
def read (f : BinaryFormat) (t : Text) : Binary × Option NumberFault :=
  match named? t with
  | some x => (x, none)
  | none =>
    match parts? t with
    | none => (.finite false 0 f.minExp, some .malformed)
    | some p =>
      let x := if p.hex then ofScaled f p.negative 2 p.value (p.exponent - 4 * p.places)
        else ofScaled f p.negative 10 p.value (p.exponent - p.places)
      (x, if x.isFinite then none else some .outOfRange)

/-- The number of the format that a text spells. -/
def parse (f : BinaryFormat) (t : Text) : Except Failure Binary :=
  match read f t with
  | (x, none) => .ok x
  | (_, some fault) => .error (.number .float t fault)

end WireSchema.Binary
