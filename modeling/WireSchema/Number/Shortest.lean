import WireSchema.Number.Binary

/-!
# Printing floating-point numbers

A finite number prints with the fewest decimal digits that read back as the same number; of
several such the nearest. Exponents from -4 to 5 are written positionally.
-/

namespace WireSchema.Binary

/-- Decimal digits `digits` with the point before the last `-exponent` of them: the number
`digits * 10 ^ exponent`. -/
structure Scientific where
  digits : Nat
  exponent : Int
  deriving DecidableEq, Repr

/-- Twice the significand's neighbourhood in units of `2 ^ (e - 2)`: the number itself and the ends
of the interval that rounds to it, all times four. The lower end is nearer at a power of two. -/
def interval (f : BinaryFormat) (m : Nat) (e : Int) : Nat × Nat × Nat :=
  let low := if m == Nat.pow 2 (f.bits - 1) && f.minExp < e then 4 * m - 1 else 4 * m - 2
  (low, 4 * m, 4 * m + 2)

/-- `n * 2 ^ (e - 2) * 10 ^ k` as a quotient of natural numbers. -/
def scaled (n : Nat) (e k : Int) : Nat × Nat :=
  let (a, b) := match e - 2 with
    | .ofNat i => (n * Nat.pow 2 i, 1)
    | .negSucc i => (n, Nat.pow 2 (i + 1))
  match k with
  | .ofNat i => (a * Nat.pow 10 i, b)
  | .negSucc i => (a, b * Nat.pow 10 (i + 1))

/-- Of the two integers around `x * 10 ^ k`, those inside the interval of numbers that round to `x`,
and of those the nearer. -/
def candidate? (f : BinaryFormat) (m : Nat) (e k : Int) : Option Nat :=
  let (low, mid, high) := interval f m e
  let (a, b) := scaled mid e k
  let (l, lb) := scaled low e k
  let (h, hb) := scaled high e k
  -- a tie goes to the even number, so an even one owns the ends of its interval
  let closed := m % 2 == 0
  let inside (n : Nat) : Bool :=
    (l < n * lb || (closed && l == n * lb)) && (n * hb < h || (closed && n * hb == h))
  let down := a / b
  let r := a % b
  let up := if r == 0 then down else down + 1
  let nearer := if 2 * r < b || (2 * r == b && down % 2 == 0) then down else up
  if inside down && inside up then some nearer
  else if inside down then some down
  else if inside up then some up
  else none

/-- The position of the first decimal digit of `x`: the least `k` with `x < 10 ^ k`, given that `k`
lies between the guess and a few above it. -/
def decimalSize (m : Nat) (e : Int) : (fuel : Nat) → Int → Int
  | 0, k => k
  | fuel + 1, k =>
    let (a, b) := scaled (4 * m) e (-k)
    if a < b then k else decimalSize m e fuel (k + 1)

/-- The first precision, from `n` digits on, with a candidate. -/
def shortestFrom (f : BinaryFormat) (m : Nat) (e size : Int) : (fuel : Nat) → Nat → Scientific
  | 0, n => ⟨(candidate? f m e (n - size)).getD 0, size - n⟩
  | fuel + 1, n =>
    match candidate? f m e (n - size) with
    | some digits => ⟨digits, size - n⟩
    | none => shortestFrom f m e size fuel (n + 1)

/-- The fewest digits that read back as `m * 2 ^ e`, for a positive `m`. -/
def shortest (f : BinaryFormat) (m : Nat) (e : Int) : Scientific :=
  let guess : Int := ((Nat.log2 m : Int) + e) * 30103 / 100000 - 1
  let size := decimalSize m e 8 guess
  shortestFrom f m e size 20 1

/-- The digits of a number without trailing zeros. -/
def significant (n : Nat) : Text :=
  let kept := ((Text.ofNat n).reverse.dropWhile (· == 0x30)).reverse
  if kept.isEmpty then [0x30] else kept

def exponentText (x : Int) : Text :=
  let digits := Text.ofNat x.natAbs
  (if x < 0 then "e-" else "e+") ++ (if digits.length < 2 then 0x30 :: digits else digits)

def zeros (n : Nat) : Text := List.replicate n 0x30

/-- Digits whose first one stands for `10 ^ x`, with an exponent outside -4 to 5 and positionally
inside. -/
def layout (digits : Text) (x : Int) : Text :=
  if x < -4 || 6 ≤ x then
    let (first, more) := (digits.take 1, digits.drop 1)
    first ++ (if more.isEmpty then [] else 0x2E :: more) ++ exponentText x
  else if x < 0 then
    "0." ++ zeros (x.natAbs - 1) ++ digits
  else
    let whole := digits.take (x.toNat + 1)
    let more := digits.drop (x.toNat + 1)
    whole ++ zeros (x.toNat + 1 - whole.length)
      ++ (if more.isEmpty then [] else 0x2E :: more)

def toText (f : BinaryFormat) : Binary → Text
  | .nan => "NaN"
  | .infinite negative => if negative then "-Inf" else "+Inf"
  | .finite negative m e =>
    let body : Text := if m == 0 then "0" else
      let s := shortest f m e
      let all := Text.ofNat s.digits
      layout (significant s.digits) (s.exponent + all.length - 1)
    if negative then 0x2D :: body else body

end WireSchema.Binary
