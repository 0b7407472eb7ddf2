import WireSchema.Failure
import WireSchema.Model.Basic
import WireSchema.Schema.Basic

/-!
# Resolution

From declarations to a model: names become positions, the fields of the bases are copied into each
object, and every array field of a concrete object gets a codec of its own.
-/

namespace WireSchema

inductive ResolveError where
  | declaredTwice (object : Text)
  | typeName (object type : Text)
  | typeCollision (object type previous : Text)
  | unknownBase (object base : Text)
  | laterBase (object base : Text)
  | nestedContainer (object field : Text)
  | dictionaryKey (object field : Text)
  | starKey (object field : Text)
  | interfaceType (object field type : Text)
  | unknownType (object field type : Text)
  | conflict (object key first second : Text)
  deriving DecidableEq, Repr

namespace ResolveError

def toFailure : ResolveError → Failure
  | .declaredTwice object => .unsupportedFeature object "object declared more than once"
  | .typeName object type =>
    .unsupportedFeature object (Text.quoted type ++ " is not a valid Go type name")
  | .typeCollision object type previous =>
    .unsupportedFeature object ("type name " ++ type ++ " collides with " ++ previous)
  | .unknownBase object base => .unresolvedType object [] base
  | .laterBase object base =>
    .unsupportedFeature object
      ("base " ++ base ++ " must be declared before the objects inheriting from it")
  | .nestedContainer object field =>
    .unsupportedFeature object ("nested container type for " ++ field)
  | .dictionaryKey object field =>
    .unsupportedFeature object ("dictionary field " ++ field ++ " must use the * key")
  | .starKey object field =>
    .unsupportedFeature object
      ("the * key on " ++ field ++ " requires a \x7btype\x7d dictionary")
  | .interfaceType object field type =>
    .unsupportedFeature object
      ("field " ++ field ++ " refers to interface-only object " ++ type ++ ", which has no codec")
  | .unknownType object field type => .unresolvedType object field type
  | .conflict object key first second => .duplicateField object key first second

end ResolveError

namespace Resolve

/-! ## Declared names -/

/-- Checks the names of the declarations in order: no name twice, every type name an identifier,
and no type name twice. -/
def checkNames : (seen : List Text) → List Schema.Declaration → Except ResolveError Unit
  | _, [] => .ok ()
  | seen, d :: rest =>
    let type := Names.lastSegment d.name
    if seen.contains d.name then .error (.declaredTwice d.name)
    else if !Names.isIdentifier type then .error (.typeName d.name type)
    else
      match seen.find? fun name => Names.lastSegment name == type with
      | some previous => .error (.typeCollision d.name type previous)
      | none => checkNames (seen ++ [d.name]) rest

def position? (ds : List Schema.Declaration) (name : Text) : Option Nat :=
  ds.findIdx? (·.name == name)

def nameAt (ds : List Schema.Declaration) (id : Nat) : Text :=
  (ds[id]?.map (·.name)).getD []

/-! ## Codec identifiers -/

/-- The `n`-th identifier to try for an array codec: the base itself, then with 2, 3, … after
it. -/
def codecCandidate (base : Text) : Nat → Text
  | 0 => base
  | n + 1 => base ++ Text.ofNat (n + 2)

/-- The first candidate that is not taken. One of the first `taken.length + 1` is free. -/
def freshCodec (taken : List Text) (base : Text) : Text :=
  let free (n : Nat) : Bool := !taken.contains (codecCandidate base n)
  codecCandidate base (((List.range (taken.length + 1)).find? free).getD 0)

/-! ## One object -/

/-- An object under way: its fields so far, and the array codecs of the whole model so far. -/
structure Draft where
  object : Object
  arrays : List ArrayCodec
  deriving Repr

namespace Draft

/-- The conflict of a field from `second` with one from `first`. -/
def conflict (ds : List Schema.Declaration) (d : Draft) (key : Text) (first second : Nat) :
    ResolveError :=
  .conflict d.object.name key (nameAt ds first) (nameAt ds second)

/-- Is the field already there, from the same declaration? -/
def has (d : Draft) (f : Field) : Bool :=
  match d.object.fields.find? (·.key == f.key) with
  | some g => g.origin == f.origin && g.name == f.name
  | none => false

/-- Adds a field. Neither its key nor its exported name may be taken. -/
def addField (ds : List Schema.Declaration) (d : Draft) (f : Field) : Except ResolveError Draft :=
  match d.object.fields.find? (·.key == f.key) with
  | some g => .error (d.conflict ds f.key g.origin f.origin)
  | none =>
    match d.object.fields.find? fun g => Names.exported g.name == Names.exported f.name with
    | some g => .error (d.conflict ds f.name g.origin f.origin)
    | none =>
      match d.object.wildcard.filter fun w => Names.exported w.name == Names.exported f.name with
      | some w => .error (d.conflict ds f.name w.origin f.origin)
      | none => .ok { d with object := { d.object with fields := d.object.fields ++ [f] } }

/-- Sets the dictionary. A second one conflicts, unless it is inherited and comes from the same
declaration. -/
def setWildcard (ds : List Schema.Declaration) (inherited : Bool) (d : Draft) (w : Wildcard) :
    Except ResolveError Draft :=
  match d.object.wildcard with
  | some v =>
    if inherited && v.origin == w.origin then .ok d
    else .error (d.conflict ds "*" v.origin w.origin)
  | none =>
    match d.object.fields.find? fun g => Names.exported g.name == Names.exported w.name with
    | some g => .error (d.conflict ds w.name g.origin w.origin)
    | none => .ok { d with object := { d.object with wildcard := some w } }

/-- A codec for an array field of the object; an interface has none. -/
def arrayCodec (d : Draft) (field : Text) (elem : ElemType) : Text × Draft :=
  if d.object.isInterface then ([], d)
  else
    let id := freshCodec (d.arrays.map (·.id)) (d.object.typeName ++ Names.exported field)
    (id, { d with arrays := d.arrays ++ [⟨id, d.object.id, field, elem⟩] })

/-- Adds a field of a base, unless it has come in by another way already. -/
def inheritField (ds : List Schema.Declaration) (d : Draft) (f : Field) :
    Except ResolveError Draft :=
  if d.has f then .ok d
  else
    match f.type with
    | .single _ => d.addField ds f
    | .array elem _ =>
      let (id, d) := d.arrayCodec f.name elem
      d.addField ds { f with type := .array elem id }

def inheritFrom (ds : List Schema.Declaration) (d : Draft) (base : Object) :
    Except ResolveError Draft := do
  let d := { d with object := { d.object with bases := d.object.bases ++ [base.id] } }
  let d ← base.fields.foldlM (inheritField ds) d
  match base.wildcard with
  | some w => d.setWildcard ds true w
  | none => pure d

/-- Adds the base with a name, which must be among the objects resolved already. -/
def addBase (ds : List Schema.Declaration) (resolved : List Object) (d : Draft) (base : Text) :
    Except ResolveError Draft :=
  match position? ds base with
  | none => .error (.unknownBase d.object.name base)
  | some id =>
    match resolved[id]? with
    | none => .error (.laterBase d.object.name base)
    | some b => d.inheritFrom ds b

def elemType (ds : List Schema.Declaration) (d : Draft) (p : Schema.Property) :
    Except ResolveError ElemType :=
  match Scalar.ofName? p.type with
  | some s => .ok (.scalar s)
  | none =>
    match position? ds p.type with
    | none => .error (.unknownType d.object.name p.name p.type)
    | some id =>
      if (ds[id]?.map (·.isInterface)).getD false then
        .error (.interfaceType d.object.name p.name p.type)
      else .ok (.object id)

def addProperty (ds : List Schema.Declaration) (d : Draft) (p : Schema.Property) :
    Except ResolveError Draft := do
  let bracket (b : UInt8) : Bool := b == 0x5B || b == 0x5D || b == 0x7B || b == 0x7D
  if p.type.any bracket || (p.isArray && p.isDictionary) then
    .error (.nestedContainer d.object.name p.name)
  else if p.isDictionary && p.key != "*" then .error (.dictionaryKey d.object.name p.name)
  else if !p.isDictionary && p.key == "*" then .error (.starKey d.object.name p.name)
  else
    let elem ← d.elemType ds p
    if p.isDictionary then d.setWildcard ds false ⟨p.name, elem, d.object.id⟩
    else if p.isArray then
      let (codec, d) := d.arrayCodec p.name elem
      d.addField ds ⟨p.key, p.name, .array elem codec, d.object.id⟩
    else d.addField ds ⟨p.key, p.name, .single elem, d.object.id⟩

end Draft

/-- Resolves one declaration after those before it. -/
def object (ds : List Schema.Declaration) (resolved : List Object) (arrays : List ArrayCodec)
    (decl : Schema.Declaration) : Except ResolveError Draft := do
  let empty : Object :=
    { id := resolved.length, name := decl.name, isInterface := decl.isInterface }
  let d ← decl.bases.foldlM (Draft.addBase ds resolved) ⟨empty, arrays⟩
  decl.properties.foldlM (Draft.addProperty ds) d

/-- Resolves the declarations in order. -/
def objects (ds : List Schema.Declaration) :
    List Object → List ArrayCodec → List Schema.Declaration →
    Except ResolveError (List Object × List ArrayCodec)
  | resolved, arrays, [] => .ok (resolved, arrays)
  | resolved, arrays, decl :: rest => do
    let d ← object ds resolved arrays decl
    objects ds (resolved ++ [d.object]) d.arrays rest

end Resolve

structure ModelOptions where
  package : Text := []
  serializer : Text := []
  access : Access := .anyone
  /-- Also emit the types that hold the data? -/
  makeTypes : Bool := false
  deriving DecidableEq, Repr

namespace Model

/-- The model of a list of declarations. -/
def resolve (ds : List Schema.Declaration) (opt : ModelOptions) : Except ResolveError Model := do
  Resolve.checkNames [] ds
  let (objects, arrays) ← Resolve.objects ds [] [] ds
  pure {
    package := opt.package
    serializer := opt.serializer
    access := opt.access
    objects
    arrays
    aggregates := if opt.makeTypes then objects.map (·.id) else [] }

end Model

end WireSchema
