import WireSchema.Token.Basic

/-!
# Keys and strings

JSON writes keys and strings alike. Which of the two a string is depends on the containers that
are open and on whether the innermost one waits for a key.
-/

namespace WireSchema.Json

inductive Container where
  | array
  | object (expectsKey : Bool)
  deriving DecidableEq, Repr

/-- The open containers, innermost first. -/
abbrev Nesting := List Container

namespace Nesting

/-- A value is complete: an object around it expects a key again. -/
def valueDone : Nesting → Nesting
  | .object _ :: outer => .object true :: outer
  | n => n

/-- What a token of a document does to the open containers, and the token itself: a string where a
key is expected is a key. Brackets are not matched against each other. -/
def take (n : Nesting) : Token → Nesting × Token
  | .beginObject => (.object true :: n, .beginObject)
  | .beginArray => (.array :: n, .beginArray)
  | .string t =>
    match n with
    | .object true :: outer => (.object false :: outer, .key t)
    | _ => (valueDone n, .string t)
  | .endObject => (valueDone n.tail, .endObject)
  | .endArray => (valueDone n.tail, .endArray)
  | token => (valueDone n, token)

end Nesting

end WireSchema.Json
