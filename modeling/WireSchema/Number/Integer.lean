import WireSchema.Failure

/-!
# Integers

Reading signed integers of a given width from text. A reading that fails still yields a number:
zero for a malformed text, and the nearest end of the range for one that is too large.
-/

namespace WireSchema.Integer

/-- The outcome of scanning digits. -/
inductive Scan where
  | value (n : Nat)
  | malformed
  | tooLarge
  deriving DecidableEq, Repr

/-- The value of a digit: `0` to `9`, then letters of either case. -/
def digitValue? (b : UInt8) : Option Nat :=
  if Text.isDigit b then some (b.toNat - 0x30)
  else if Text.isAlpha b then some ((Text.lowerByte b).toNat - 0x61 + 10)
  else none

/-- Reads digits of the base from the left, with `n` the value so far. The first thing wrong
decides: a byte that is no digit, or a value above `limit`. -/
def scanDigits (base limit : Nat) : Nat → Text → Scan
  | n, [] => .value n
  | n, b :: rest =>
    match digitValue? b with
    | none => .malformed
    | some d =>
      if base ≤ d then .malformed
      else if limit < n * base + d then .tooLarge
      else scanDigits base limit (n * base + d) rest

/-- An unsigned number in the given base; there must be a digit. -/
def scanUnsigned (base bits : Nat) (t : Text) : Scan :=
  if t.isEmpty then .malformed else scanDigits base (Nat.pow 2 bits - 1) 0 t

/-- The base that a leading zero or a letter after it announces, and the digits that follow:
`0b`, `0o` and `0x`, and octal after a bare zero. -/
def announcedBase : Text → Nat × Text
  | 0x30 :: b :: c :: rest =>
    let l := Text.lowerByte b
    if l == 0x62 then (2, c :: rest)
    else if l == 0x6F then (8, c :: rest)
    else if l == 0x78 then (16, c :: rest)
    else (8, b :: c :: rest)
  | 0x30 :: rest => (8, rest)
  | t => (10, t)

/-- An unsigned number in the base that it announces. -/
def scanAnnounced (bits : Nat) (t : Text) : Scan :=
  if t.isEmpty then .malformed
  else
    let (base, digits) := announcedBase t
    scanDigits base (Nat.pow 2 bits - 1) 0 digits

def splitSign : Text → Bool × Text
  | 0x2B :: rest => (false, rest)
  | 0x2D :: rest => (true, rest)
  | t => (false, t)

/-- How many numbers below zero a signed number of the given width can be. -/
def half (bits : Nat) : Nat := Nat.pow 2 (bits - 1)

/-- Places a scanned magnitude in the range of signed numbers of the given width. -/
def clamp (bits : Nat) (negative : Bool) : Scan → Int × Option NumberFault
  | .malformed => (0, some .malformed)
  | .tooLarge => (if negative then -(half bits : Int) else (half bits : Int) - 1, some .outOfRange)
  | .value n =>
    if negative then
      if half bits < n then (-(half bits : Int), some .outOfRange) else (-(n : Int), none)
    else
      if half bits ≤ n then ((half bits : Int) - 1, some .outOfRange) else (n, none)

/-- A signed decimal integer of the given width, and what is wrong with it. -/
def readSigned (bits : Nat) (t : Text) : Int × Option NumberFault :=
  let (negative, digits) := splitSign t
  clamp bits negative (scanUnsigned 10 bits digits)

/-- A signed integer of the given width in the base that it announces. -/
def readAnnounced (bits : Nat) (t : Text) : Int × Option NumberFault :=
  let (negative, digits) := splitSign t
  clamp bits negative (scanAnnounced bits digits)

/-- A signed integer of the given width in the given base. -/
def readBase (base bits : Nat) (t : Text) : Int × Option NumberFault :=
  let (negative, digits) := splitSign t
  clamp bits negative (scanUnsigned base bits digits)

/-- The number that a text spells, if it is a signed decimal integer of the given width. -/
def parse (bits : Nat) (t : Text) : Except Failure Int :=
  match readSigned bits t with
  | (n, none) => .ok n
  | (_, some fault) => .error (.number .integer t fault)

end WireSchema.Integer
