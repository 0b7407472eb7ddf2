import WireSchema.Number.Integer

/-!
# Decimals

Exact decimal numbers: a coefficient and a power of ten. They print positionally, without an
exponent and without trailing zeros in the fraction.
-/

namespace WireSchema

/-- The number `coefficient * 10 ^ exponent`. -/
structure Decimal where
  coefficient : Int
  exponent : Int
  deriving DecidableEq, Repr

namespace Decimal

inductive Fault where
  | exponentNotNumeric
  | fractionTooLong
  | manyPoints
  | notANumber
  deriving DecidableEq, Repr

def Fault.message (t : Text) : Fault → Text
  | .exponentNotNumeric => "can't convert " ++ t ++ " to decimal: exponent is not numeric"
  | .fractionTooLong => "can't convert " ++ t ++ " to decimal: fractional part too long"
  | .manyPoints => "can't convert " ++ t ++ " to decimal: too many .s"
  | .notANumber => "can't convert " ++ t ++ " to decimal"

/-- A sign and decimal digits, of any length. -/
def integer? (t : Text) : Option Int :=
  let (negative, digits) := Integer.splitSign t
  if digits.isEmpty || !digits.all Text.isDigit then none
  else
    let n : Nat := digits.foldl (fun n d => n * 10 + (d.toNat - 0x30)) 0
    some (if negative then -(n : Int) else n)

/-- The exponent after an `e`, which must be a 32-bit integer. -/
def readExponent (whole t : Text) : Except Text Int :=
  match Integer.readSigned 32 t with
  | (n, none) => .ok n
  | (_, some .outOfRange) => .error (Fault.message whole .fractionTooLong)
  | (_, some .malformed) => .error (Fault.message whole .exponentNotNumeric)

/-- The digits on both sides of the point, and how many stand after it. -/
def readMantissa (t : Text) : Except Text (Text × Nat) :=
  match t.span (· != 0x2E) with
  | (whole, []) => .ok (whole, 0)
  | (whole, _ :: fraction) =>
    if fraction.contains 0x2E then .error (Fault.message t .manyPoints)
    else .ok (whole ++ fraction, fraction.length)

def exponentFits (e : Int) : Bool := -2147483648 ≤ e && e ≤ 2147483647

/-- The decimal that a text spells: digits with at most one point, then perhaps an exponent. -/
def parse (t : Text) : Except Text Decimal := do
  let isMark (b : UInt8) : Bool := b == 0x65 || b == 0x45
  let (mantissa, tail) := t.span (!isMark ·)
  let exponent ← match tail with
    | [] => pure 0
    | _ :: digits => readExponent t digits
  let (digits, places) ← readMantissa mantissa
  match integer? digits with
  | none => .error (Fault.message mantissa .notANumber)
  | some n =>
    let e := exponent - places
    if exponentFits e then .ok ⟨n, e⟩ else .error (Fault.message t .fractionTooLong)

/-- The digits of a fraction without its trailing zeros. -/
def trimZeros (t : Text) : Text := (t.reverse.dropWhile (· == 0x30)).reverse

/-- The positional digits of `n / 10 ^ places`. -/
def positional (n places : Nat) : Text :=
  let digits := Text.ofNat n
  let padded := List.replicate (places + 1 - digits.length) 0x30 ++ digits
  let whole := padded.take (padded.length - places)
  let fraction := trimZeros (padded.drop (padded.length - places))
  if fraction.isEmpty then whole else whole ++ "." ++ fraction

/-- A decimal in positional notation. -/
def toText (d : Decimal) : Text :=
  match d.exponent with
  | .ofNat e => Text.ofInt (d.coefficient * (Nat.pow 10 e : Nat))
  | .negSucc e =>
    let digits := positional d.coefficient.natAbs (e + 1)
    if d.coefficient < 0 then 0x2D :: digits else digits

end Decimal

end WireSchema
