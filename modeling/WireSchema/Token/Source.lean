import WireSchema.Json.Lenient
import WireSchema.Json.Strict
import WireSchema.Token.Enforce

/-!
# Token sources

A source yields the tokens of a document one by one. It is a value: asking for a token gives the
token, or why there is none, and the source after it, which can be asked again also after a
failure.
-/

namespace WireSchema

/-- A source of tokens. -/
inductive Source where
  /-- A JSON text, read leniently. -/
  | lenient (s : Json.Lenient)
  /-- A JSON text, read strictly. -/
  | strict (s : Json.Strict)
  /-- Tokens given beforehand; `taken` of them are gone. -/
  | replay (rest : List Located) (taken : Nat)
  /-- The tokens of a document that was read at once, the line of the last one taken, and what comes
  after them. -/
  | document (rest : List Located) (line : Int) (ending : Failure)
  /-- A source under limits, with its open containers. -/
  | limited (limits : Limits) (frames : List Frame) (inner : Source)
  /-- A source seen through a reader: places are lost, an unknown token is a null, and every end is
  a clean one. -/
  | adapted (inner : Source)
  deriving DecidableEq, Repr

/-- How a JSON text is read: by the letter, or with more freedom between the tokens. -/
inductive Dialect where
  | lenient
  | strict
  deriving DecidableEq, Repr

namespace Source

def ofJson (d : Dialect) (t : Text) : Source :=
  match d with
  | .lenient => .lenient { rest := t }
  | .strict => .strict { rest := t }

def adapt : Token → Token
  | .unknown _ => .null
  | t => t

def adaptFailure : Failure → Failure
  | .exhausted _ => .exhausted .clean
  | f => f

/-- The next token, or why there is none, and the source after it. -/
def next : Source → Except Failure Located × Source
  | .lenient s =>
    match s.next with
    | (.ok t, s) => (.ok ⟨t, -1⟩, .lenient s)
    | (.error f, s) => (.error f, .lenient s)
  | .strict s =>
    match s.next with
    | (.ok t, s) => (.ok ⟨t, s.last⟩, .strict s)
    | (.error f, s) => (.error f, .strict s)
  | .replay [] taken => (.error (.exhausted .clean), .replay [] taken)
  | .replay (t :: rest) taken => (.ok t, .replay rest (taken + 1))
  | .document [] line ending => (.error ending, .document [] line ending)
  | .document (t :: rest) _ ending => (.ok t, .document rest t.offset ending)
  | .limited limits frames inner =>
    match inner.next with
    | (.error f, inner) => (.error f, .limited limits frames inner)
    | (.ok t, inner) =>
      -- a token that is refused has been taken from the inner source all the same
      match Enforce.step limits frames t.token with
      | (frames, some f) => (.error f, .limited limits frames inner)
      | (frames, none) => (.ok t, .limited limits frames inner)
  | .adapted inner =>
    match inner.next with
    | (.ok t, inner) => (.ok ⟨adapt t.token, -1⟩, .adapted inner)
    | (.error f, inner) => (.error (adaptFailure f), .adapted inner)

/-- Where the source stands: an offset, a line or a count of tokens, or `-1` if nobody knows. -/
def location : Source → Int
  | .lenient _ | .adapted _ => -1
  | .strict s => s.last
  | .replay _ taken => taken
  | .document _ line _ => line
  | .limited _ _ inner => inner.location

/-- A bound on the number of tokens that are left. -/
def size : Source → Nat
  | .lenient s => s.rest.length
  | .strict s => s.rest.length
  | .replay rest _ => rest.length
  | .document rest _ _ => rest.length
  | .limited _ _ inner => inner.size
  | .adapted inner => inner.size

def withLimits (limits : Limits) (s : Source) : Source :=
  if limits.enabled then .limited limits [] s else s

/-! ## Reading on -/

/-- Takes tokens until `depth` open containers are closed. -/
def skipLoop : (fuel : Nat) → (depth : Nat) → Source → Option Failure × Source
  | _, 0, s => (none, s)
  | 0, _, s => (some (.exhausted .torn), s)
  | fuel + 1, depth + 1, s =>
    match s.next with
    | (.error (.exhausted .clean), s) => (some (.exhausted .torn), s)
    | (.error f, s) => (some f, s)
    | (.ok t, s) =>
      if t.token.opens then skipLoop fuel (depth + 2) s
      else if t.token.closes then skipLoop fuel depth s
      else skipLoop fuel (depth + 1) s

/-- Passes over the rest of the value that `first` begins. Only a container has a rest. -/
def skipValue (s : Source) (first : Token) : Option Failure × Source :=
  if first.opens then skipLoop (s.size + 1) 1 s else (none, s)

/-- Takes all tokens; `seen` holds those taken, last first. -/
def drainLoop : (fuel : Nat) → List Located → Source → List Located × Failure × Source
  | 0, seen, s => (seen.reverse, .exhausted .clean, s)
  | fuel + 1, seen, s =>
    match s.next with
    | (.error f, s) => (seen.reverse, f, s)
    | (.ok t, s) => drainLoop fuel (t :: seen) s

/-- All tokens that are left, what ended them, and the source then. -/
def drain (s : Source) : List Located × Failure × Source := drainLoop (s.size + 1) [] s

end Source

end WireSchema
