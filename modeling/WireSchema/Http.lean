import WireSchema.Codec.Encode
import WireSchema.Json.Writer

/-!
# HTTP answers

The answers of a service that speaks JSON: values as documents, and failures as an object with the
message and, where one is known, the field. A request's body is decoded before the handler sees it.
-/

namespace WireSchema.Http

/-- An answer; an untouched one has no content type. -/
structure Response where
  status : Int := 200
  contentType : Text := []
  body : Text := []
  deriving DecidableEq, Repr

def jsonType : Text := "application/json"

def errorEvents (f : Failure) : List Write :=
  [.startObject, .fieldName "error", .string f.message]
    ++ (if f.field.isEmpty then [] else [.fieldName "field", .string f.field])
    ++ [.endObject]

def writeError (sink : Sink) (f : Failure) : Option Failure × Sink :=
  let (failed, w) := Json.Writer.writeAll { sink } (errorEvents f)
  (failed, w.sink)

def Response.ofFailure (status : Int) (f : Failure) : Response :=
  { status, contentType := jsonType, body := (writeError {} f).2.text }

def Response.ofObject (status : Int) (v : Option Codec.Target) : Except Failure Response := do
  return { status, contentType := jsonType, body := ← Codec.marshal [] v }

/-- The limits for the bodies of requests: 64 open containers, and no key twice. -/
def defaultLimits : Limits := { maxDepth := 64, rejectDuplicates := true }

/-- What travels with a request. -/
structure Context where
  /-- The object in the body, once it was decoded. -/
  decoded : Option Codec.Target := none
  deriving Repr

/-- Decodes the body of a request and lets the object travel with it, or gives the answer if that
fails. -/
def receive (m : Model) (o : Object) (limits : Limits) (body : Text) (c : Context) :
    Except Response Context :=
  match Codec.unmarshal m o limits body (some (.empty o)) with
  | ⟨none, v, _⟩ => .ok { c with decoded := some (v.getD (.empty o)) }
  | ⟨some f, _, _⟩ => .error (.ofFailure 400 f)

/-- A handler that decodes the body of a request first. The handler behind it is called only if the
body could be decoded. -/
def decoding [Monad μ] (m : Model) (o : Object) (limits : Limits) (body : Text)
    (next : Context → μ Response) (c : Context) : μ Response :=
  match receive m o limits body c with
  | .ok c => next c
  | .error r => pure r

/-- Answers a request with a handler behind the decoding of its body. -/
def serve (m : Model) (o : Object) (limits : Limits) (body : Text)
    (handler : Context → Response) : Response :=
  Id.run (decoding m o limits body (fun c => pure (handler c)) {})

end WireSchema.Http
