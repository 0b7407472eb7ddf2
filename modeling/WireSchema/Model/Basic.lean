import WireSchema.Model.Names

/-!
# Models

A model is a schema with every name resolved: objects are known by their position, inherited
fields stand beside the object's own, and each array has the identifier of its codec.
-/

namespace WireSchema

inductive Scalar where
  | bool
  | int32
  | int64
  | decimal
  | float
  | double
  | string
  deriving DecidableEq, Repr

namespace Scalar

/-- The scalars in the order of their codes. -/
def all : List Scalar := [.bool, .int32, .int64, .decimal, .float, .double, .string]

def name : Scalar → Text
  | .bool => "bool"
  | .int32 => "int32"
  | .int64 => "int64"
  | .decimal => "decimal"
  | .float => "float"
  | .double => "double"
  | .string => "string"

def spellings : List (String × Scalar) :=
  [("bool", .bool), ("Boolean", .bool), ("int", .int32), ("int32", .int32), ("Int32", .int32),
    ("long", .int64), ("int64", .int64), ("Int64", .int64), ("decimal", .decimal),
    ("Decimal", .decimal), ("float", .float), ("float32", .float), ("Single", .float),
    ("double", .double), ("float64", .double), ("Double", .double), ("string", .string),
    ("String", .string)]

def ofName? (t : Text) : Option Scalar :=
  (spellings.find? fun s => Text.ofString s.1 == t).map (·.2)

end Scalar

inductive TypeKind where
  | scalar
  | object
  | array
  | dictionary
  deriving DecidableEq, Repr

namespace TypeKind

/-- The kinds in the order of their codes. -/
def all : List TypeKind := [.scalar, .object, .array, .dictionary]

def name : TypeKind → Text
  | .scalar => "scalar"
  | .object => "object"
  | .array => "array"
  | .dictionary => "dictionary"

end TypeKind

/-- A type without a container around it: a scalar, or an object by its position. -/
inductive ElemType where
  | scalar (s : Scalar)
  | object (id : Nat)
  deriving DecidableEq, Repr

/-- The type of a field. An array names the codec of its elements; on an interface, which has no
codecs, that name is empty. -/
inductive FieldType where
  | single (type : ElemType)
  | array (elem : ElemType) (codec : Text)
  deriving DecidableEq, Repr

/-- A field of an object. `origin` is the object that declares it. -/
structure Field where
  key : Text
  name : Text
  type : FieldType
  origin : Nat
  deriving DecidableEq, Repr

/-- The dictionary of an object: it takes every key that no field has. -/
structure Wildcard where
  name : Text
  elem : ElemType
  origin : Nat
  deriving DecidableEq, Repr

structure Object where
  id : Nat
  name : Text
  isInterface : Bool
  fields : List Field := []
  wildcard : Option Wildcard := none
  bases : List Nat := []
  deriving DecidableEq, Repr

namespace Object

/-- The name of the object's type: the last part of its name. -/
def typeName (o : Object) : Text := Names.lastSegment o.name

/-- The part of the object's name before its type name. -/
def qualifier (o : Object) : Text := Names.qualifier o.name

end Object

/-- The codec of one array field. -/
structure ArrayCodec where
  id : Text
  owner : Nat
  field : Text
  elem : ElemType
  deriving DecidableEq, Repr

/-- Who may use the generated names. -/
inductive Access where
  | anyone
  | packageOnly
  deriving DecidableEq, Repr

/-- A resolved schema, and how it is to be emitted. -/
structure Model where
  package : Text
  serializer : Text
  access : Access
  objects : List Object
  arrays : List ArrayCodec
  /-- The objects whose data types are emitted too. -/
  aggregates : List Nat
  deriving DecidableEq, Repr

namespace Model

def object? (m : Model) (id : Nat) : Option Object := m.objects[id]?

def codec? (m : Model) (id : Text) : Option ArrayCodec := m.arrays.find? (·.id == id)

end Model

end WireSchema
