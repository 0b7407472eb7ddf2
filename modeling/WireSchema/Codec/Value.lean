import WireSchema.Dict
import WireSchema.Write

/-!
# Values

What codecs read and write: the objects of a model with their fields, and the events that write
them.
-/

namespace WireSchema

/-- A value. Fields, elements and entries of a dictionary may be absent; those of scalar type never
are in arrays and dictionaries. -/
inductive Value where
  | bool (b : Bool)
  | integer (n : Int)
  | float (f : BinaryFormat) (x : Binary)
  | decimal (d : Decimal)
  | text (t : Text)
  | array (items : List (Option Value))
  /-- The fields by key, in the order of the object, and the dictionary. -/
  | object (fields : List (Text × Option Value)) (extra : List (Text × Option Value))
  deriving Repr

namespace Value

mutual

/-- Values are compared part by part, once they are of one sort. -/
def decEq (a b : Value) : Decidable (a = b) :=
  if h : a.ctorIdx = b.ctorIdx then
    match a, b, h with
    | .bool x, .bool y, _ => decidable_of_iff (x = y) (by simp)
    | .integer x, .integer y, _ => decidable_of_iff (x = y) (by simp)
    | .float f x, .float g y, _ => decidable_of_iff (f = g ∧ x = y) (by simp)
    | .decimal x, .decimal y, _ => decidable_of_iff (x = y) (by simp)
    | .text x, .text y, _ => decidable_of_iff (x = y) (by simp)
    | .array x, .array y, _ =>
      have := decEqItems x y
      decidable_of_iff (x = y) (by simp)
    | .object x x', .object y y', _ =>
      have := decEqEntries x y
      have := decEqEntries x' y'
      decidable_of_iff (x = y ∧ x' = y') (by simp)
  else isFalse fun hab => h (congrArg Value.ctorIdx hab)
termination_by structural a

def decEqOption : (a b : Option Value) → Decidable (a = b)
  | none, none => isTrue rfl
  | some a, some b =>
    have := decEq a b
    decidable_of_iff (a = b) (by simp)
  | none, some _ | some _, none => isFalse (by simp)
termination_by structural a => a

def decEqItems : (as bs : List (Option Value)) → Decidable (as = bs)
  | [], [] => isTrue rfl
  | a :: as, b :: bs =>
    have := decEqOption a b
    have := decEqItems as bs
    decidable_of_iff (a = b ∧ as = bs) (by simp)
  | [], _ :: _ | _ :: _, [] => isFalse (by simp)
termination_by structural as => as

def decEqEntries : (as bs : List (Text × Option Value)) → Decidable (as = bs)
  | [], [] => isTrue rfl
  | (k, a) :: as, (l, b) :: bs =>
    have := decEqOption a b
    have := decEqEntries as bs
    decidable_of_iff (k = l ∧ a = b ∧ as = bs) (by simp [and_assoc])
  | [], _ :: _ | _ :: _, [] => isFalse (by simp)
termination_by structural as => as

end

instance : DecidableEq Value := decEq

mutual

/-- The events that write a value. A field that is absent is left out. -/
def events : Value → List Write
  | .bool b => [.bool b]
  | .integer n => [.integer n]
  | .float f x => [.float f x]
  | .decimal d => [.decimal d]
  | .text t => [.string t]
  | .array items => .startArray :: itemEvents items ++ [.endArray]
  | .object fields extra =>
    .startObject :: fieldEvents fields ++ entryEvents extra ++ [.endObject]

/-- The events of a value that may be absent, which is written as null. -/
def optionEvents : Option Value → List Write
  | none => [.null]
  | some v => events v

def itemEvents : List (Option Value) → List Write
  | [] => []
  | v :: rest => optionEvents v ++ itemEvents rest

def fieldEvents : List (Text × Option Value) → List Write
  | [] => []
  | (key, v) :: rest =>
    (match v with
      | none => []
      | some v => .fieldName key :: events v)
    ++ fieldEvents rest

def entryEvents : List (Text × Option Value) → List Write
  | [] => []
  | (key, v) :: rest => .fieldName key :: optionEvents v ++ entryEvents rest

end

end Value

end WireSchema
