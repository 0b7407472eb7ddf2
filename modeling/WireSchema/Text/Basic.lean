/-!
# Texts

A text is a list of bytes. Most texts are UTF-8, but nothing here relies on it: names, documents
and messages may carry any bytes, and every operation of this module is defined on all of them.
-/

namespace WireSchema

/-- A text: any sequence of bytes. -/
abbrev Text := List UInt8

namespace Text

def ofString (s : String) : Text := s.toList.flatMap String.utf8EncodeChar

instance : Coe String Text := ⟨ofString⟩

def ofChars (cs : List Char) : Text := cs.flatMap String.utf8EncodeChar

def ofNat (n : Nat) : Text := (Nat.toDigits 10 n).map fun c => c.toNat.toUInt8

/-- The decimal digits of an integer, with a leading `-` when it is negative. -/
def ofInt : Int → Text
  | .ofNat n => ofNat n
  | .negSucc n => 0x2D :: ofNat (n + 1)

def ofBool (b : Bool) : Text := if b then "true" else "false"

def byte (c : Char) : UInt8 := c.toNat.toUInt8

def repeated (t : Text) (n : Nat) : Text := (List.replicate n t).flatten

def endsWith (t p : Text) : Bool := p.reverse.isPrefixOf t.reverse

/-- `t` without the leading `p`, if it starts with it. -/
def dropStart? (t p : Text) : Option Text :=
  if p.isPrefixOf t then some (t.drop p.length) else none

/-- `t` without the trailing `p`, if it ends in it. -/
def dropEnd? (t p : Text) : Option Text :=
  if endsWith t p then some (t.take (t.length - p.length)) else none

/-! ## Cutting and splitting -/

/-- The loop of `cut?`: `seen` holds the bytes passed, last first. -/
def cutLoop (sep : Text) : Text → Text → Option (Text × Text)
  | seen, [] => if sep.isEmpty then some (seen.reverse, []) else none
  | seen, b :: rest =>
    if sep.isPrefixOf (b :: rest) then some (seen.reverse, (b :: rest).drop sep.length)
    else cutLoop sep (b :: seen) rest

/-- The parts before and after the first occurrence of `sep`. -/
def cut? (t sep : Text) : Option (Text × Text) := cutLoop sep [] t

/-- The parts before and after the last occurrence of the byte `b`. -/
def cutLast? (t : Text) (b : UInt8) : Option (Text × Text) :=
  let r := t.reverse
  match r.dropWhile (· != b) with
  | [] => none
  | _ :: before => some (before.reverse, (r.takeWhile (· != b)).reverse)

/-- The loop of `splitOn`: `cur` holds the part under way and `parts` the finished ones, both
last first. -/
def splitLoop (b : UInt8) : Text → List Text → Text → List Text
  | cur, parts, [] => (cur.reverse :: parts).reverse
  | cur, parts, c :: rest =>
    if c == b then splitLoop b [] (cur.reverse :: parts) rest
    else splitLoop b (c :: cur) parts rest

/-- The parts between the occurrences of the byte `b`; always at least one. -/
def splitOn (t : Text) (b : UInt8) : List Text := splitLoop b [] [] t

/-- The texts of `parts` with `sep` between them. -/
def join (sep : Text) (parts : List Text) : Text := (parts.intersperse sep).flatten

/-! ## Trimming

The blank characters are those of the Unicode property `White_Space`, recognised by their UTF-8
bytes. -/

/-- Is the byte a blank character by itself? -/
def isBlank (b : UInt8) : Bool := (9 ≤ b && b ≤ 13) || b == 32

/-- Do the bytes `0xE2`, `0x80` and this one make a blank character? -/
def endsBlank (b : UInt8) : Bool := (0x80 ≤ b && b ≤ 0x8A) || b == 0xA8 || b == 0xA9 || b == 0xAF

/-- `t` without its first character, if that is blank. -/
def dropBlank? : Text → Option Text
  | 0xC2 :: b :: r => if b == 0x85 || b == 0xA0 then some r else none
  | 0xE1 :: 0x9A :: 0x80 :: r => some r
  | 0xE2 :: 0x80 :: b :: r => if endsBlank b then some r else none
  | 0xE2 :: 0x81 :: 0x9F :: r => some r
  | 0xE3 :: 0x80 :: 0x80 :: r => some r
  | b :: r => if isBlank b then some r else none
  | [] => none

/-- The same on a reversed text: without its last character, if that is blank. A blank of one byte
is one whatever stands before it. -/
def dropBlankRev? : Text → Option Text
  | 0x85 :: 0xC2 :: r => some r
  | 0xA0 :: 0xC2 :: r => some r
  | 0x80 :: 0x9A :: 0xE1 :: r => some r
  | 0x9F :: 0x81 :: 0xE2 :: r => some r
  | 0x80 :: 0x80 :: 0xE3 :: r => some r
  | b :: r =>
    if isBlank b then some r
    else if endsBlank b then dropStart? r [0x80, 0xE2]
    else none
  | [] => none

theorem length_of_dropBlank? {t r : Text} (h : dropBlank? t = some r) : r.length < t.length := by
  unfold dropBlank? at h
  split at h <;> (try split at h) <;> simp_all <;> omega

theorem length_of_dropBlankRev? {t r : Text} (h : dropBlankRev? t = some r) :
    r.length < t.length := by
  unfold dropBlankRev? dropStart? at h
  grind

/-- `t` without its leading blank characters. -/
def trimStart (t : Text) : Text :=
  match _h : dropBlank? t with
  | some r => trimStart r
  | none => t
termination_by t.length
decreasing_by exact length_of_dropBlank? _h

/-- A reversed text without its trailing blank characters. -/
def trimEndRev (t : Text) : Text :=
  match _h : dropBlankRev? t with
  | some r => trimEndRev r
  | none => t
termination_by t.length
decreasing_by exact length_of_dropBlankRev? _h

/-- `t` without its leading and trailing blank characters. -/
def trim (t : Text) : Text := (trimEndRev (trimStart t).reverse).reverse

/-! ## ASCII classes -/

/-- Is the byte one of `0` to `9`? -/
def isDigit (b : UInt8) : Bool := 0x30 ≤ b && b ≤ 0x39

/-- Is the byte an ASCII letter? -/
def isAlpha (b : UInt8) : Bool := (0x41 ≤ b && b ≤ 0x5A) || (0x61 ≤ b && b ≤ 0x7A)

/-- An ASCII capital as its small letter; any other byte as it is. -/
def lowerByte (b : UInt8) : UInt8 := if 0x41 ≤ b && b ≤ 0x5A then b + 32 else b

def lowerAscii (t : Text) : Text := t.map lowerByte

def hexValue? (b : UInt8) : Option Nat :=
  if isDigit b then some (b.toNat - 0x30)
  else if 0x61 ≤ b && b ≤ 0x66 then some (b.toNat - 0x57)
  else if 0x41 ≤ b && b ≤ 0x46 then some (b.toNat - 0x37)
  else none

/-- The small hexadecimal digit of a number below sixteen. -/
def hexDigit (n : Nat) : UInt8 := if n < 10 then (0x30 + n).toUInt8 else (0x57 + n).toUInt8

/-- The last `width` hexadecimal digits of a number. -/
def hex : (width : Nat) → Nat → Text
  | 0, _ => []
  | width + 1, n => hex width (n / 16) ++ [hexDigit (n % 16)]

end Text

end WireSchema
