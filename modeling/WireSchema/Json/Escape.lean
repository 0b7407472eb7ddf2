import WireSchema.Text.Utf8

/-!
# Escapes of JSON strings

The escapes that both readers know: a letter for a control character, and `\u` with the number of a
UTF-16 unit. Two units that form a pair give one character; any other surrogate gives U+FFFD.
-/

namespace WireSchema.Json

/-- The byte that a backslash and a letter stand for. -/
def escaped? (b : UInt8) : Option UInt8 :=
  if b == 0x22 || b == 0x5C || b == 0x2F then some b
  else if b == 0x62 then some 0x08
  else if b == 0x66 then some 0x0C
  else if b == 0x6E then some 0x0A
  else if b == 0x72 then some 0x0D
  else if b == 0x74 then some 0x09
  else none

/-- The number of four hexadecimal digits; anything else counts as the digit zero. -/
def unit (a b c d : UInt8) : Nat :=
  let digit (x : UInt8) : Nat := (Text.hexValue? x).getD 0
  digit a * 4096 + digit b * 256 + digit c * 16 + digit d

/-- Is the unit one half of a pair? -/
def isSurrogate (u : Nat) : Bool := 0xD800 ≤ u && u ≤ 0xDFFF

/-- The character of two units that form a pair. -/
def pair? (high low : Nat) : Option Char :=
  if 0xD800 ≤ high && high ≤ 0xDBFF && 0xDC00 ≤ low && low ≤ 0xDFFF then
    some (Char.ofNat (0x10000 + (high - 0xD800) * 1024 + (low - 0xDC00)))
  else none

/-- The character of a unit that stands alone. -/
def single (u : Nat) : Char := if isSurrogate u then '�' else Char.ofNat u

def utf8 (c : Char) : Text := String.utf8EncodeChar c

end WireSchema.Json
