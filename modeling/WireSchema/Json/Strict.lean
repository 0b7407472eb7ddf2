import WireSchema.Failure
import WireSchema.Json.Nesting
import WireSchema.Json.Escape

/-!
# The strict JSON reader

A tokenizer that accepts exactly the token sequences of JSON documents, one document after
another. It counts bytes, and tells an input that ends between two tokens from one that ends
inside a token. An error inside a token is final.
-/

namespace WireSchema.Json

/-- What may come next. -/
inductive Expectation where
  /-- A value at the top. -/
  | value
  /-- After `[`: an element or `]`. -/
  | firstElement
  /-- After a comma in an array: an element. -/
  | element
  /-- After an element: a comma or `]`. -/
  | elementEnd
  /-- After `\x7b`: a key or the closing brace. -/
  | firstKey
  /-- After a comma in an object: a key. -/
  | key
  /-- After a key: a colon. -/
  | colon
  /-- After a colon: a value. -/
  | member
  /-- After a member: a comma or the closing brace. -/
  | memberEnd
  deriving DecidableEq, Repr

namespace Expectation

/-- May a value come next? -/
def allowsValue : Expectation → Bool
  | .value | .firstElement | .element | .member => true
  | _ => false

/-- What a failure over a byte says of the place. -/
def place : Expectation → Text
  | .value | .firstElement | .element | .member => " looking for beginning of value"
  | .elementEnd => " after array element"
  | .firstKey => []
  | .key => " looking for beginning of object key string"
  | .colon => " after object key"
  | .memberEnd => " after object key:value pair"

/-- What may come next once a value is complete. -/
def afterValue : Expectation → Expectation
  | .firstElement | .element => .elementEnd
  | .member => .memberEnd
  | e => e

end Expectation

/-- The reader between two tokens. -/
structure Strict where
  rest : Text
  /-- How many bytes stand before `rest`. -/
  offset : Nat := 0
  /-- What reading beyond the last byte gives, if not the end. -/
  fault : Option Failure := none
  expect : Expectation := .value
  /-- What the containers around the innermost one expect. -/
  outer : List Expectation := []
  nesting : Nesting := []
  /-- The error that ended the reading. -/
  broken : Option Failure := none
  /-- The offset after the last token. -/
  last : Int := -1
  deriving DecidableEq, Repr

namespace Strict

def isBlank (b : UInt8) : Bool := b == 0x20 || b == 0x09 || b == 0x0A || b == 0x0D

/-! ## Scalars

Each scanner reads one scalar from its first byte. It hands back how many bytes were read and what
is left, so that a caller can tell a scalar that is complete at the very end. -/

/-- The outcome of scanning a scalar. -/
inductive Scan (α : Type) where
  | done (value : α) (rest : Text)
  /-- A byte that cannot stand there, and what is said of the place. -/
  | invalid (b : UInt8) (place : Text)
  | cutOff
  deriving DecidableEq, Repr

def wordName : Token → Text
  | .bool true => "true"
  | .bool false => "false"
  | _ => "null"

def scanWord (token : Token) : (letters : Text) → Text → Scan Token
  | [], rest => .done token rest
  | _ :: _, [] => .cutOff
  | l :: letters, b :: rest =>
    if b == l then scanWord token letters rest
    else .invalid b (" in literal " ++ wordName token ++ " (expecting "
      ++ Text.quotedChar (Char.ofNat l.toNat) ++ ")")

inductive NumberState where
  | sign
  | zero
  | whole
  | point
  | fraction
  | mark
  | markSign
  | exponent
  deriving DecidableEq, Repr

namespace NumberState

/-- The state after one more byte, if the byte belongs to the number. -/
def step (s : NumberState) (b : UInt8) : Option NumberState :=
  let digit := Text.isDigit b
  let isMark := b == 0x65 || b == 0x45
  match s with
  | .sign => if b == 0x30 then some .zero else if digit then some .whole else none
  | .zero => if b == 0x2E then some .point else if isMark then some .mark else none
  | .whole =>
    if digit then some .whole else if b == 0x2E then some .point
    else if isMark then some .mark else none
  | .point => if digit then some .fraction else none
  | .fraction => if digit then some .fraction else if isMark then some .mark else none
  | .mark =>
    if b == 0x2B || b == 0x2D then some .markSign else if digit then some .exponent else none
  | .markSign => if digit then some .exponent else none
  | .exponent => if digit then some .exponent else none

/-- What a failure over a byte says of the place. -/
def place : NumberState → Text
  | .point => " after decimal point in numeric literal"
  | .mark | .markSign => " in exponent of numeric literal"
  | _ => " in numeric literal"

/-- May the number end here? -/
def complete : NumberState → Bool
  | .zero | .whole | .fraction | .exponent => true
  | _ => false

end NumberState

/-- Reads a number; `seen` holds its bytes so far, last first. -/
def scanNumber (s : NumberState) (seen : Text) : Text → Scan Token
  | [] => if s.complete then .done (.number seen.reverse) [] else .cutOff
  | b :: rest =>
    match s.step b with
    | some s' => scanNumber s' (b :: seen) rest
    | none =>
      if s.complete then .done (.number seen.reverse) (b :: rest) else .invalid b s.place

/-- The failure over the first byte that is no hexadecimal digit. -/
def badDigit {α : Type} (t : Text) : Scan α :=
  .invalid ((t.find? fun b => (Text.hexValue? b).isNone).getD 0)
    " in \\u hexadecimal character escape"

/-- The four digits of a `\u` escape. -/
def scanUnit : Text → Scan Nat
  | a :: b :: c :: d :: rest =>
    if (Text.hexValue? a).isSome && (Text.hexValue? b).isSome && (Text.hexValue? c).isSome
        && (Text.hexValue? d).isSome then .done (unit a b c d) rest
    else badDigit [a, b, c, d]
  | t => if t.all fun b => (Text.hexValue? b).isSome then .cutOff else badDigit t

theorem length_of_scanUnit {t r : Text} {n : Nat} (h : scanUnit t = .done n r) :
    r.length < t.length := by
  unfold scanUnit at h
  split at h
  · split at h
    · simp only [Scan.done.injEq] at h; simp [← h.2]; omega
    · simp [badDigit] at h
  · split at h <;> simp [badDigit] at h

/-- The second unit of a pair, if a `\u` escape with one stands next. -/
def lowUnit? (high : Nat) : Text → Option (Char × Text)
  | 0x5C :: 0x75 :: rest =>
    match scanUnit rest with
    | .done low after => (pair? high low).map (·, after)
    | _ => none
  | _ => none

theorem length_of_lowUnit? {high : Nat} {t r : Text} {c : Char}
    (h : lowUnit? high t = some (c, r)) : r.length < t.length := by
  unfold lowUnit? at h
  split at h
  · split at h
    · rename_i hs
      simp only [Option.map_eq_some_iff, Prod.mk.injEq] at h
      obtain ⟨_, _, _, rfl⟩ := h
      have := length_of_scanUnit hs
      simp; omega
    · simp at h
  · simp at h

/-- Reads a string from the bytes after its opening quote; `seen` holds its text so far, last byte
first. -/
def scanString (seen : Text) (t : Text) : Scan Text :=
  match _ht : t with
  | [] => .cutOff
  | b :: rest =>
    if b == 0x22 then .done seen.reverse rest
    else if b == 0x5C then
      match _hr : rest with
      | [] => .cutOff
      | c :: after =>
        if c == 0x75 then
          match _h : scanUnit after with
          | .cutOff => .cutOff
          | .invalid b place => .invalid b place
          | .done high after' =>
            match _h' : lowUnit? high after' with
            | some (ch, after'') => scanString ((utf8 ch).reverse ++ seen) after''
            | none => scanString ((utf8 (single high)).reverse ++ seen) after'
        else
          match escaped? c with
          | some x => scanString (x :: seen) after
          | none => .invalid c " in string escape code"
    else if b < 0x20 then .invalid b " in string literal"
    else if b < 0x80 then scanString (b :: seen) rest
    else
      match _h : Text.multibyte? b rest with
      | some (ch, after) => scanString ((utf8 ch).reverse ++ seen) after
      | none => scanString ((utf8 '�').reverse ++ seen) rest
termination_by t.length
decreasing_by
  · have := length_of_scanUnit _h; have := length_of_lowUnit? _h'; simp_all; omega
  · have := length_of_scanUnit _h; simp_all; omega
  · simp only [List.length_cons]; omega
  · simp_all
  · have := Text.length_of_multibyte? _h; simp_all; omega
  · simp_all

def scanScalar (b : UInt8) (rest : Text) : Scan Token :=
  if b == 0x22 then
    match scanString [] rest with
    | .done t rest => .done (.string t) rest
    | .invalid b place => .invalid b place
    | .cutOff => .cutOff
  else if b == 0x2D then scanNumber .sign [b] rest
  else if b == 0x30 then scanNumber .zero [b] rest
  else if Text.isDigit b then scanNumber .whole [b] rest
  else if b == 0x74 then scanWord (.bool true) "rue" rest
  else if b == 0x66 then scanWord (.bool false) "alse" rest
  else if b == 0x6E then scanWord .null "ull" rest
  else .invalid b Expectation.value.place

/-! ## Tokens -/

/-- The reader without the blanks in front of the next byte; blanks before the end stay. -/
def skipBlanks (s : Strict) : Strict :=
  let after := s.rest.dropWhile isBlank
  if after.isEmpty then s
  else { s with rest := after, offset := s.offset + (s.rest.length - after.length) }

/-- What the end of the input means between two tokens. -/
def ending (s : Strict) : Failure := s.fault.getD (.exhausted .clean)

/-- Hands on a token after which `rest` is left. -/
def emit (s : Strict) (token : Token) (rest : Text) (expect : Expectation)
    (outer : List Expectation) : Except Failure Token × Strict :=
  let offset := s.offset + (s.rest.length - rest.length)
  let (nesting, token) := s.nesting.take token
  (.ok token, { s with rest, offset, expect, outer, nesting, last := offset })

/-- Ends the reading for good. -/
def halt (s : Strict) (f : Failure) : Except Failure Token × Strict :=
  (.error f, { s with broken := some f })

def invalidCharacter (b : UInt8) (place : Text) : Failure :=
  .malformedJson ("invalid character " ++ Text.quotedChar (Char.ofNat b.toNat) ++ place)

def refuse (s : Strict) (b : UInt8) : Except Failure Token × Strict :=
  (.error (invalidCharacter b s.expect.place), s)

/-- Reads a scalar that starts with `b`; `expect` is what comes after it. A scalar is complete only
when a byte or the end follows. -/
def scalar (s : Strict) (b : UInt8) (rest : Text) (expect : Expectation) :
    Except Failure Token × Strict :=
  match s.broken with
  | some f => (.error f, s)
  | none =>
    match scanScalar b rest with
    | .invalid b place => s.halt (invalidCharacter b place)
    | .cutOff => s.halt (s.fault.getD (.exhausted .torn))
    | .done token after =>
      match after, s.fault with
      | [], some f => s.halt f
      | _, _ => s.emit token after expect s.outer

/-- Closes the innermost container at the bracket `b`. -/
def close (s : Strict) (b : UInt8) (token : Token) (rest : Text) : Except Failure Token × Strict :=
  match s.outer with
  | [] => s.refuse b
  | around :: outer => s.emit token rest around.afterValue outer

/-- Reads a token where the next byte is `b` and neither a comma nor a colon. -/
def tokenAt (s : Strict) (b : UInt8) (rest : Text) : Except Failure Token × Strict :=
  if b == 0x5B then
    if s.expect.allowsValue then s.emit .beginArray rest .firstElement (s.expect :: s.outer)
    else s.refuse b
  else if b == 0x7B then
    if s.expect.allowsValue then s.emit .beginObject rest .firstKey (s.expect :: s.outer)
    else s.refuse b
  else if b == 0x5D then
    if s.expect == .firstElement || s.expect == .elementEnd then s.close b .endArray rest
    else s.refuse b
  else if b == 0x7D then
    if s.expect == .firstKey || s.expect == .memberEnd then s.close b .endObject rest
    else s.refuse b
  else if b == 0x22 && (s.expect == .firstKey || s.expect == .key) then s.scalar b rest .colon
  else if s.expect.allowsValue then s.scalar b rest s.expect.afterValue
  else s.refuse b

def afterSeparator : Expectation → UInt8 → Option Expectation
  | .colon, 0x3A => some .member
  | .elementEnd, 0x2C => some .element
  | .memberEnd, 0x2C => some .key
  | _, _ => none

/-- The next token. Between two tokens there is at most one separator. -/
def next (s : Strict) : Except Failure Token × Strict :=
  let s := s.skipBlanks
  match s.rest.dropWhile isBlank with
  | [] => (.error s.ending, s)
  | b :: rest =>
    if b == 0x2C || b == 0x3A then
      match afterSeparator s.expect b with
      | none => s.refuse b
      | some expect =>
        let s := { s with rest, offset := s.offset + 1, expect }.skipBlanks
        match s.rest.dropWhile isBlank with
        | [] => (.error s.ending, s)
        | b :: rest =>
          if b == 0x2C || b == 0x3A then s.refuse b else s.tokenAt b rest
    else s.tokenAt b rest

end Strict

end WireSchema.Json
