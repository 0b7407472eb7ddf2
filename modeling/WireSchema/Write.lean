import WireSchema.Number.Binary
import WireSchema.Number.Decimal

/-!
# Write events

What a codec asks a writer to write, one event after another. Every output format takes the same
events.
-/

namespace WireSchema

/-- One thing to be written. -/
inductive Write where
  | startObject
  | endObject
  | startArray
  | endArray
  | fieldName (name : Text)
  | null
  | bool (b : Bool)
  | integer (n : Int)
  | float (f : BinaryFormat) (x : Binary)
  | decimal (d : Decimal)
  | string (t : Text)
  deriving DecidableEq, Repr

/-- A place for output. A chunk that would exceed the limit is not written at all. -/
structure Sink where
  /-- What was written, last chunk first. -/
  chunks : List Text := []
  size : Nat := 0
  limit : Option Nat := none
  deriving DecidableEq, Repr

namespace Sink

/-- All that was written. -/
def text (s : Sink) : Text := s.chunks.reverse.flatten

def fits (s : Sink) (t : Text) : Bool :=
  match s.limit with
  | some limit => s.size + t.length ≤ limit
  | none => true

def write (s : Sink) (t : Text) : Except Failure Sink :=
  if s.fits t then .ok { s with chunks := t :: s.chunks, size := s.size + t.length }
  else .error (.plain "sink full")

end Sink

end WireSchema
