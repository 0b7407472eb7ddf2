import WireSchema.Failure
import WireSchema.Token.Pointer

/-!
# Limits on documents

Documents may be refused for being nested too deeply or for repeating a key within an object. The
check sees the tokens one by one and keeps, for every open container, where it stands and which
keys it has had.
-/

namespace WireSchema

/-- What is refused. A depth of zero or less means any depth. -/
structure Limits where
  maxDepth : Int := 0
  rejectDuplicates : Bool := false
  deriving DecidableEq, Repr

namespace Limits

/-- Is anything refused at all? -/
def enabled (l : Limits) : Bool := 0 < l.maxDepth || l.rejectDuplicates

end Limits

/-- An open container of a document that is being checked. -/
inductive Frame where
  /-- An array at a place, and the index of its next element. -/
  | array (place : Pointer) (next : Nat)
  /-- An object at a place, the keys it has had, and the key whose value comes next; without one it
  waits for a key. -/
  | object (place : Pointer) (seen : List Text) (pending : Option Text)
  deriving DecidableEq, Repr

namespace Frame

/-- Where a value inside the container stands. -/
def valuePlace : Frame → Pointer
  | .array place next => Text.ofNat next :: place
  | .object place _ (some key) => key :: place
  | .object place _ none => place

/-- The container once a value has begun: an array counts it. -/
def valueBegun : Frame → Frame
  | .array place next => .array place (next + 1)
  | f => f

/-- The container once a value is complete: an object waits for a key again. -/
def valueDone : Frame → Frame
  | .object place seen _ => .object place seen none
  | f => f

end Frame

namespace Enforce

/-- The value done in the innermost of the open containers. -/
def valueDone : List Frame → List Frame
  | f :: outer => f.valueDone :: outer
  | [] => []

/-- The value begun in the innermost of the open containers. -/
def valueBegun : List Frame → List Frame
  | f :: outer => f.valueBegun :: outer
  | [] => []

/-- Where the next value stands. -/
def valuePlace : List Frame → Pointer
  | f :: _ => f.valuePlace
  | [] => []

def openFrame (l : Limits) (frames : List Frame) (make : Pointer → Frame) :
    List Frame × Option Failure :=
  let place := valuePlace frames
  let frames := make place :: valueBegun frames
  if 0 < l.maxDepth && l.maxDepth < frames.length then
    (frames, some (.maxDepth (some place.text)))
  else (frames, none)

/-- Takes in a token: the open containers after it, and why it is refused if it is. -/
def step (l : Limits) (frames : List Frame) : Token → List Frame × Option Failure
  | .beginObject => openFrame l frames fun place => .object place [] none
  | .beginArray => openFrame l frames fun place => .array place 0
  | .endObject | .endArray => (valueDone frames.tail, none)
  | .key name =>
    match frames with
    | .object place seen none :: outer =>
      if l.rejectDuplicates && seen.contains name then
        (frames, some (.duplicateKey name (Pointer.text (name :: place))))
      else (.object place (name :: seen) (some name) :: outer, none)
    | _ => (frames, none)
  | _ => (valueDone (valueBegun frames), none)

end Enforce

end WireSchema
