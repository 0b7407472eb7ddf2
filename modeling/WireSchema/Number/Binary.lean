import WireSchema.Failure

/-!
# Binary floating point

Floating-point numbers of a given format as exact values: a sign, a significand and a power of
two. Every rounding is to the nearest value of the format, and a tie goes to the even significand.
-/

namespace WireSchema

/-- A binary format: the number of significant bits, and the exponents of the last bit of the
smallest and of the largest numbers. -/
structure BinaryFormat where
  bits : Nat
  minExp : Int
  maxExp : Int
  deriving DecidableEq, Repr

namespace BinaryFormat

def single : BinaryFormat := ⟨24, -149, 104⟩

def double : BinaryFormat := ⟨53, -1074, 971⟩

end BinaryFormat

/-- A floating-point number; a finite one is `± significand * 2 ^ exponent`. -/
inductive Binary where
  | nan
  | infinite (negative : Bool)
  | finite (negative : Bool) (significand : Nat) (exponent : Int)
  deriving DecidableEq, Repr

namespace Binary

/-- Is the number neither infinite nor a NaN? -/
def isFinite : Binary → Bool
  | .finite .. => true
  | _ => false

/-- `n / d` rounded to the nearest integer, a tie to the even one. -/
def roundDiv (n d : Nat) : Nat :=
  let q := n / d
  let r := n % d
  if d < 2 * r || (2 * r == d && q % 2 == 1) then q + 1 else q

/-- `n / d` in units of `2 ^ e`, as a quotient of natural numbers. -/
def inUnits (n d : Nat) (e : Int) : Nat × Nat :=
  match e with
  | .ofNat k => (n, d * Nat.pow 2 k)
  | .negSucc k => (n * Nat.pow 2 (k + 1), d)

/-- The exponent of the last bit that `n / d` has in the format, for positive `n` and `d`. -/
def unitExp (f : BinaryFormat) (n d : Nat) : Int :=
  let guess : Int := (Nat.log2 n : Int) - Nat.log2 d - (f.bits - 1 : Nat)
  let (a, b) := inUnits n d guess
  let exact := if a < b * Nat.pow 2 (f.bits - 1) then guess - 1 else guess
  max exact f.minExp

/-- The number of the format nearest to `n / d`; infinity beyond the largest one. -/
def ofRatio (f : BinaryFormat) (negative : Bool) (n d : Nat) : Binary :=
  if n == 0 then .finite negative 0 f.minExp
  else
    let e := unitExp f n d
    let (a, b) := inUnits n d e
    let m := roundDiv a b
    let (m, e) := if m == Nat.pow 2 f.bits then (Nat.pow 2 (f.bits - 1), e + 1) else (m, e)
    if f.maxExp < e then .infinite negative else .finite negative m e

end Binary

end WireSchema
