import WireSchema.Codec.Decode
import WireSchema.Json.Writer

/-!
# Encoding

Writing the objects of a model as documents.
-/

namespace WireSchema.Codec

/-- The events that write an object; none is written as null. -/
def events (v : Option Target) : List Write := Value.optionEvents (v.map Target.value)

/-- The JSON text of an object, with an indentation or compact. -/
def marshal (indent : Text) (v : Option Target) : Except Failure Text :=
  match Json.Writer.writeAll { indent } (events v) with
  | (some f, _) => .error f
  | (none, w) => .ok w.sink.text

def encode (sink : Sink) (v : Option Target) : Option Failure × Sink :=
  let (f, w) := Json.Writer.writeAll { sink } (events v)
  (f, w.sink)

/-- Decodes a JSON text under limits. -/
def unmarshal (m : Model) (o : Object) (limits : Limits) (t : Text) (target : Option Target) :
    Outcome :=
  decode m o target (Reader.enforce limits { source := .lenient { rest := t } })

end WireSchema.Codec
