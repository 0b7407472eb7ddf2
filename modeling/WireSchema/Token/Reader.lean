import WireSchema.Token.Source

/-!
# Readers

A reader is a source together with its current token. Codecs read through it: they ask for the
kind and the text of the current token, move on, and skip what they do not know.
-/

namespace WireSchema

/-- A source and the token last taken from it. -/
structure Reader where
  source : Source
  current : Option Token := none
  /-- Is the source hidden, so that limits can only be put around the reader as a whole? -/
  isForeign : Bool := false
  deriving DecidableEq, Repr

namespace Reader

def kind (r : Reader) : TokenKind := (r.current.map Token.kind).getD .none

def text (r : Reader) : Text := (r.current.map Token.text).getD []

/-- A failure of the source as the reader reports it: the end of a source is the end of the
stream. -/
def report : Failure → Failure
  | .exhausted how => .endOfStream (some how)
  | f => f

/-- Moves to the next token; after a failure the current token stays. -/
def next (r : Reader) : Except Failure Token × Reader :=
  match r.source.next with
  | (.ok t, source) => (.ok t.token, { r with source, current := some t.token })
  | (.error f, source) => (.error (report f), { r with source })

/-- Passes over the container that the current token opens. -/
def skipContainer (r : Reader) (first : Token) (last : Token) : Option Failure × Reader :=
  match r.source.skipValue first with
  | (some f, source) => (some (report f), { r with source })
  | (none, source) => (none, { r with source, current := some last })

/-- Passes over the rest of the container that the current token opens, if it opens one. -/
def skipValue (r : Reader) : Option Failure × Reader :=
  match r.current with
  | some .beginObject => r.skipContainer .beginObject .endObject
  | some .beginArray => r.skipContainer .beginArray .endArray
  | _ => (none, r)

/-- Passes over the current value; on a key, over the value after it. -/
def skip (r : Reader) : Option Failure × Reader :=
  match r.current with
  | some (.key _) =>
    match r.next with
    | (.error f, r) => (some f, r)
    | (.ok _, r) => r.skipValue
  | _ => r.skipValue

/-- Puts the reader under limits. One that has not started yields its source; any other is wrapped as
it is. Without limits it stays the same. -/
def enforce (limits : Limits) (r : Reader) : Reader :=
  if !limits.enabled then r
  else if !r.isForeign && r.kind == .none then { source := r.source.withLimits limits }
  else { source := (Source.adapted r.source).withLimits limits }

/-- Takes all tokens that are left, and says what ended them. -/
def drain (r : Reader) : List Token × Failure × Reader :=
  let (tokens, f, source) := r.source.drain
  let tokens := tokens.map (·.token)
  (tokens, report f, { r with source, current := tokens.getLast?.or r.current })

end Reader

end WireSchema
