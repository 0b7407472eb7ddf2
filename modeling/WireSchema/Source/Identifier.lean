import WireSchema.Model.Basic

/-!
# Identifiers of a generated file

The names that a file generated from a model declares. With package-only access they start with a
small letter, otherwise with a capital.
-/

namespace WireSchema.Model

/-- A name as the access of the model shows it. -/
def visible (m : Model) (t : Text) : Text :=
  match m.access with
  | .packageOnly => Names.unexported t
  | .anyone =>
    match Text.chars t with
    | [] => []
    | c :: rest => Text.ofChars (upperChar c :: rest)

/-- The last part of the name of the object at a position. -/
def baseName (m : Model) (id : Nat) : Text := ((m.object? id).map Object.typeName).getD []

def serializerName (m : Model) : Text := m.visible m.serializer

def typeName (m : Model) (id : Nat) : Text := m.visible (m.baseName id)

def codecVar (m : Model) (id : Nat) : Text := m.typeName id ++ "Codec"

/-- The name of the method that writes an object. -/
def encodeName (m : Model) (id : Nat) : Text := m.visible ("Encode" ++ m.baseName id)

/-- The name of the method that reads the members of an object. -/
def decodeName (m : Model) (id : Nat) : Text := m.visible ("Decode" ++ m.baseName id)

/-- The name of the method that reads a whole object. -/
def readName (m : Model) (id : Nat) : Text := m.visible ("Read" ++ m.baseName id)

/-- The name of the method that reads one member of an object. -/
def decodeFieldName (m : Model) (id : Nat) : Text := "decode" ++ m.baseName id ++ "Field"

def encodeArrayName (codec : Text) : Text := "encode_" ++ codec

def decodeArrayName (codec : Text) : Text := "decode_" ++ codec

/-- The name of the struct field for a field. -/
def memberName (name : Text) : Text := Names.exported name

def getterName (name : Text) : Text := "Get" ++ Names.exported name

/-! ## Reserved names

Every name that the file declares, with the object it is declared for. Methods of the serializer
have a dot in front, which keeps them apart from the names of the package. -/

def objectNames (m : Model) (o : Object) : List (Text × Text) :=
  (if m.aggregates.isEmpty then [] else [(m.typeName o.id, o.name)]) ++
    if o.isInterface then []
    else [(m.codecVar o.id, o.name), ("." ++ m.encodeName o.id, o.name),
      ("." ++ m.decodeName o.id, o.name), ("." ++ m.readName o.id, o.name),
      ("." ++ m.decodeFieldName o.id, o.name)]

def arrayNames (m : Model) (a : ArrayCodec) : List (Text × Text) :=
  let what := ((m.object? a.owner).map Object.name).getD [] ++ "." ++ a.field
  [("." ++ encodeArrayName a.id, what), ("." ++ decodeArrayName a.id, what)]

/-- All names in the order in which they are reserved. -/
def reservedNames (m : Model) : List (Text × Text) :=
  (m.serializerName, ("the serializer" : Text)) ::
    (m.objects.flatMap m.objectNames ++ m.arrays.flatMap m.arrayNames)

/-- Two reservations of one name: the name, and who has it second and first. -/
def clash? : (taken : List (Text × Text)) → List (Text × Text) → Option (Text × Text × Text)
  | _, [] => none
  | taken, (ident, what) :: rest =>
    match taken.find? (·.1 == ident) with
    | some (_, previous) => some (ident, what, previous)
    | none => clash? ((ident, what) :: taken) rest

end WireSchema.Model
