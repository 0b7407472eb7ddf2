import WireSchema.Failure
import WireSchema.Json.Nesting
import WireSchema.Json.Escape

/-!
# The lenient JSON reader

A tokenizer that takes commas and colons for blanks and does not match brackets, so that it reads
every JSON document and many texts that are none. A NUL byte ends the input. After an error the
reader stands at the byte it could not take.
-/

namespace WireSchema.Json

/-- The reader between two tokens. -/
structure Lenient where
  rest : Text
  /-- Has the end of the input been met, or will it never come because reading fails there? -/
  atEnd : Bool := false
  nesting : Nesting := []
  deriving DecidableEq, Repr

namespace Lenient

/-- May the byte stand inside a number? -/
def inNumber (b : UInt8) : Bool :=
  Text.isDigit b || b == 0x2E || b == 0x65 || b == 0x45 || b == 0x2B || b == 0x2D

/-- The outcome of reading one token from the bytes: the token or nothing, the bytes after it, and
whether the end has been met. -/
abbrev Scan (α : Type) := Except Failure α × Text × Bool

/-- The failure over a byte, for what was being read; a NUL is not named. -/
def invalidCharacter (b : UInt8) (reading : Text) : Failure :=
  .malformedJson (if b == 0 then "json: invalid character as " ++ reading
    else "json: invalid character " ++ utf8 (Char.ofNat b.toNat) ++ " as " ++ reading)

def unexpectedEnd (reading : Text) : Failure :=
  .malformedJson ("json: " ++ reading ++ " unexpected end of JSON input")

def wordName : Token → Text
  | .bool true => "bool(true)"
  | .bool false => "bool(false)"
  | _ => "null"

/-- Reads the letters of a word. Where the input ends before the first time that its end is met, the
missing letter is taken as read. -/
def scanWord (token : Token) : (letters : Text) → Text → Bool → Scan Token
  | [], rest, atEnd => (.ok token, rest, atEnd)
  | _ :: letters, [], atEnd =>
    if atEnd then (.error (invalidCharacter 0 (wordName token)), [], true)
    else scanWord token letters [] true
  | l :: letters, b :: rest, atEnd =>
    if b == l then scanWord token letters rest atEnd
    else if b == 0 && !atEnd then scanWord token letters rest true
    else (.error (invalidCharacter b (wordName token)), b :: rest, atEnd)

/-- Reads the number of a `\u` escape from the bytes after the `u`: its character and the bytes
after it. One more byte must follow. -/
def scanUnit? : Text → Option (Char × Text)
  | a :: b :: c :: d :: rest =>
    if rest.isEmpty then none
    else
      let high := unit a b c d
      match rest with
      | 0x5C :: 0x75 :: e :: f :: g :: h :: after =>
        match pair? high (unit e f g h) with
        | some ch => if after.isEmpty then some (single high, rest) else some (ch, after)
        | none => some (single high, rest)
      | _ => some (single high, rest)
  | _ => none

theorem length_of_scanUnit? {t r : Text} {c : Char} (h : scanUnit? t = some (c, r)) :
    r.length < t.length := by
  unfold scanUnit? at h
  split at h
  · split at h
    · simp at h
    · simp only at h
      split at h
      · split at h
        · split at h
          · cases h; simp only [List.length_cons]; omega
          · cases h; simp only [List.length_cons]; omega
        · cases h; simp only [List.length_cons]; omega
      · cases h; simp only [List.length_cons]; omega
  · simp at h

/-- Reads a string from the bytes after its opening quote; `seen` holds its text so far, last byte
first. -/
def scanString (seen : Text) (t : Text) : Scan Text :=
  match _ht : t with
  | [] => (.error (unexpectedEnd "string"), [], true)
  | b :: rest =>
    if b == 0 then (.error (unexpectedEnd "string"), b :: rest, true)
    else if b == 0x22 then (.ok seen.reverse, rest, false)
    else if b == 0x5C then
      match _hr : rest with
      | [] => (.error (invalidCharacter 0 "escaped string"), [], true)
      | c :: after =>
        if c == 0x75 then
          match _h : scanUnit? after with
          | some (ch, after') => scanString ((utf8 ch).reverse ++ seen) after'
          | none => (.error (invalidCharacter c "escaped string"), c :: after, true)
        else
          match escaped? c with
          | some x => scanString (x :: seen) after
          | none =>
            let f := if c == 0 then invalidCharacter c "escaped string" else unexpectedEnd "string"
            (.error f, c :: after, c == 0)
    else if b < 0x80 then scanString (b :: seen) rest
    else
      match _h : Text.multibyte? b rest with
      | some (ch, after) => scanString ((utf8 ch).reverse ++ seen) after
      | none => scanString ((utf8 '�').reverse ++ seen) rest
termination_by t.length
decreasing_by
  · have := length_of_scanUnit? _h; simp_all; omega
  · simp only [List.length_cons]; omega
  · simp_all
  · have := Text.length_of_multibyte? _h; simp_all; omega
  · simp_all

def scan (atEnd : Bool) : Text → Scan Token
  | [] => (.error (.exhausted .clean), [], true)
  | b :: rest =>
    if b == 0x20 || b == 0x09 || b == 0x0A || b == 0x0D || b == 0x2C || b == 0x3A then
      scan atEnd rest
    else if b == 0x7B then (.ok .beginObject, rest, atEnd)
    else if b == 0x7D then (.ok .endObject, rest, atEnd)
    else if b == 0x5B then (.ok .beginArray, rest, atEnd)
    else if b == 0x5D then (.ok .endArray, rest, atEnd)
    else if b == 0x2D || Text.isDigit b then
      (.ok (.number (b :: rest.takeWhile inNumber)), rest.dropWhile inNumber, atEnd)
    else if b == 0x22 then
      let (r, after, met) := scanString [] rest
      (r.map .string, after, atEnd || met)
    else if b == 0x74 then scanWord (.bool true) "rue" rest atEnd
    else if b == 0x66 then scanWord (.bool false) "alse" rest atEnd
    else if b == 0x6E then scanWord .null "ull" rest atEnd
    else if b == 0 then (.error (.exhausted .clean), b :: rest, true)
    else (.error (invalidCharacter b "token"), b :: rest, atEnd)

def next (s : Lenient) : Except Failure Token × Lenient :=
  match scan s.atEnd s.rest with
  | (.error f, rest, atEnd) => (.error f, { s with rest, atEnd })
  | (.ok token, rest, atEnd) =>
    let (nesting, token) := s.nesting.take token
    (.ok token, { rest, atEnd, nesting })

end Lenient

end WireSchema.Json
