import WireSchema.Source.Emit
import WireSchema.Source.Layout

/-!
# The calls of the code writer

What the code writer is asked to write for a model: one function for each part of a file, with its
calls in the order in which they are made. Names are looked up on the way, and where they come from is
left open: the functions are generic in a monad `F`. In `Id` every name is there; in a monad with
failure a look-up may fail, and then nothing is written.
-/

namespace WireSchema.Source

open Layout (Step)

/-- Where the names in a file come from. -/
structure Naming (F : Type → Type) where
  serializer : F Text
  typeName : Nat → F Text
  codecVar : Nat → F Text
  encode : Nat → F Text
  decode : Nat → F Text
  read : Nat → F Text
  decodeField : Nat → F Text
  /-- The name of a field as a member of a struct. -/
  member : Text → F Text
  isInterface : Nat → F Bool
  /-- The objects that get a data type. -/
  aggregated : F (List Object)

/-- The names of a model, all of which are there. -/
def Naming.ofModel (m : Model) : Naming Id where
  serializer := pure m.serializerName
  typeName id := pure (m.typeName id)
  codecVar id := pure (m.codecVar id)
  encode id := pure (m.encodeName id)
  decode id := pure (m.decodeName id)
  read id := pure (m.readName id)
  decodeField id := pure (m.decodeFieldName id)
  member name := pure (Model.memberName name)
  isInterface id := pure (fromInterface m id)
  aggregated := pure (m.aggregates.filterMap m.object?)

namespace Calls

/-! ## Parts of methods -/

def runtime (name : String) : Text := "codecgen." ++ name

/-- A call whose error ends the surrounding method with the given results. -/
def checkReturning (call results : Text) : List Step :=
  [.open ("if err := " ++ call ++ "; err != nil"), .line ("return " ++ results), .close []]

def check (call : Text) : List Step := checkReturning call "err"

def returnOnError (results : Text) : List Step :=
  [.open "if err != nil", .line ("return " ++ results), .close []]

def nextToken (results : Text) : List Step :=
  .line "kind, err := r.Next()" :: returnOnError results

variable {F : Type → Type} [Monad F] (n : Naming F)

def elemType : ElemType → F Text
  | .scalar s => pure (scalarType s).text
  | .object id => return "*" ++ (← n.typeName id)

/-- The type of a field: a scalar is held by a pointer. -/
def fieldType : FieldType → F Text
  | .single (.scalar s) => return "*" ++ (← elemType n (.scalar s))
  | .single (.object id) => elemType n (.object id)
  | .array elem _ => return "[]" ++ (← elemType n elem)

def dictType (elem : ElemType) : F Text :=
  return "*" ++ runtime "Dict" ++ "[" ++ (← elemType n elem) ++ "]"

def writeElem (elem : ElemType) (expr : Text) : F (List Step) :=
  match elem with
  | .scalar s => pure (check ("w." ++ (writeMethod s).text ++ "(" ++ expr ++ ")"))
  | .object id => return check ("s." ++ (← n.encode id) ++ "(w, " ++ expr ++ ")")

def writeField (type : FieldType) (expr : Text) : F (List Step) :=
  match type with
  | .single (.scalar s) => writeElem n (.scalar s) ("*" ++ expr)
  | .single (.object id) => writeElem n (.object id) expr
  | .array _ codec => pure (check ("s." ++ Model.encodeArrayName codec ++ "(w, " ++ expr ++ ")"))

/-- The clause that reads an element. `failed` gives the results of the method for an error, `label`
is the name under which a bad number is reported, and `store` takes the expression that was read; its
flag tells whether that is a variable. -/
def readElem (elem : ElemType) (label : Text) (failed : Text → Text)
    (store : Text → Bool → F (List Step)) : F (List Step) :=
  match elem with
  | .scalar .bool =>
    return .case (scalarTokens .bool).text :: (← store ("kind == " ++ runtime "TokenTrue") false)
  | .scalar .string => return .case (scalarTokens .string).text :: (← store "r.Text()" false)
  | .scalar s =>
    return .case (scalarTokens s).text :: .line ("x, err := " ++ (readFunction s).text ++ "(r)")
      :: (returnOnError (failed (runtime "WrapField" ++ "(" ++ Text.quoted label ++ ", err)"))
        ++ (← store "x" true))
  | .object id => do
    let type ← n.typeName id
    let decode ← n.decode id
    return .case (runtime "TokenStartObject") :: .line ("x := new(" ++ type ++ ")")
      :: (checkReturning ("s." ++ decode ++ "(r, x)") (failed "err") ++ (← store "x" true))

/-- The clause that reads the value of the field that stands in `target`. -/
def readField (type : FieldType) (label target : Text) (store : Text → Bool → F (List Step)) :
    F (List Step) :=
  match type with
  | .single elem => readElem n elem label id store
  | .array _ codec =>
    return .case (runtime "TokenStartArray")
      :: .line ("x, err := s." ++ Model.decodeArrayName codec ++ "(r, " ++ target ++ "[:0])")
      :: (returnOnError "err" ++ (← store "x" true))

/-! ## Objects -/

def encodeMember (f : Field) : F (List Step) := do
  let expr := "v." ++ (← n.member f.name)
  return .open ("if " ++ expr ++ " != nil")
    :: (check ("w.WriteFieldName(" ++ Text.quoted f.key ++ ")")
      ++ (← writeField n f.type expr) ++ [.close []])

def encodeWildcard (w : Wildcard) : F (List Step) := do
  let name ← n.member w.name
  return .open ("for key, value := range v." ++ name ++ ".All()")
    :: (check "w.WriteFieldName(key)" ++ (← writeElem n w.elem "value") ++ [.close []])

def encodeObject (o : Object) : F (List Step) := do
  let serializer ← n.serializer
  let encode ← n.encode o.id
  let type ← n.typeName o.id
  let fields ← o.fields.mapM (encodeMember n)
  let dictionary ← o.wildcard.toList.mapM (encodeWildcard n)
  return [.blank,
      .comment (encode ++ " writes v as an object, or null when v is nil. Nil fields are omitted."),
      .open ("func (s " ++ serializer ++ ") " ++ encode ++ "(w " ++ runtime "Writer"
        ++ ", v *" ++ type ++ ") error"),
      .open "if v == nil", .line "return w.WriteNull()", .close []]
    ++ check "w.WriteStartObject()" ++ fields.flatten ++ dictionary.flatten
    ++ [.line "return w.WriteEndObject()", .close []]

def decodeObject (o : Object) : F (List Step) := do
  let serializer ← n.serializer
  let decode ← n.decode o.id
  let type ← n.typeName o.id
  let decodeField ← n.decodeField o.id
  return [.blank,
      .comment (decode ++ " reads the members of an object into v. r must be positioned on"),
      .comment "the object's start token; unknown members are skipped.",
      .open ("func (s " ++ serializer ++ ") " ++ decode ++ "(r " ++ runtime "Reader"
        ++ ", v *" ++ type ++ ") error"),
      .open "for"]
    ++ nextToken "err"
    ++ [.open "switch kind", .case (runtime "TokenFieldName")]
    ++ check ("s." ++ decodeField ++ "(r, v)")
    ++ [.case (runtime "TokenEndObject"), .line "return nil", .default]
    ++ check "r.Skip()"
    ++ [.close [], .close [], .close []]

def storeField (type : FieldType) (target expr : Text) (isVariable : Bool) : List Step :=
  match type with
  | .single (.scalar _) =>
    if isVariable then [.line (target ++ " = &" ++ expr)]
    else [.line (target ++ " = " ++ runtime "Ptr" ++ "(" ++ expr ++ ")")]
  | _ => [.line (target ++ " = " ++ expr)]

def refuseMember (name : Text) : List Step :=
  [.default,
    .line ("return " ++ runtime "UnexpectedToken" ++ "(" ++ Text.quoted name ++ ", kind)")]

def dispatchField (f : Field) : F (List Step) := do
  let name ← n.member f.name
  let target := "v." ++ name
  let read ← readField n f.type name target fun expr isVariable =>
    pure (storeField f.type target expr isVariable)
  return .case (Text.quoted f.key) :: nextToken "err"
    ++ [.open "switch kind", .case (runtime "TokenNull"), .line (target ++ " = nil")]
    ++ read ++ refuseMember name ++ [.close []]

/-- How a dictionary takes an expression. -/
def storeEntry (elem : ElemType) (target expr : Text) : F (List Step) := do
  return [.open ("if " ++ target ++ " == nil"),
    .line (target ++ " = " ++ runtime "NewDict" ++ "[" ++ (← elemType n elem) ++ "]()"), .close [],
    .line (target ++ ".Set(name, " ++ expr ++ ")")]

/-- What becomes of a key that is none of the fields'. -/
def dispatchOther : Option Wildcard → F (List Step)
  | none => pure [.default, .line "return r.Skip()"]
  | some w => do
    let name ← n.member w.name
    let read ← readElem n w.elem name id fun expr _ => storeEntry n w.elem ("v." ++ name) expr
    return .default :: nextToken "err" ++ [.open "switch kind", .case (runtime "TokenNull")]
      ++ read ++ refuseMember name ++ [.close []]

def decodeObjectField (o : Object) : F (List Step) := do
  let serializer ← n.serializer
  let decodeField ← n.decodeField o.id
  let type ← n.typeName o.id
  let head : List Step := [.blank,
    .open ("func (s " ++ serializer ++ ") " ++ decodeField ++ "(r " ++ runtime "Reader" ++ ", v *"
      ++ type ++ ") error")]
  if o.fields.isEmpty && o.wildcard.isNone then
    return head ++ [.line "return r.Skip()", .close []]
  else
    let fields ← o.fields.mapM (dispatchField n)
    let other ← dispatchOther n o.wildcard
    return head
      ++ [.open (if o.wildcard.isSome then "switch name := r.Text(); name" else "switch r.Text()")]
      ++ fields.flatten ++ other ++ [.close [], .line "return nil", .close []]

def readObject (o : Object) : F (List Step) := do
  let serializer ← n.serializer
  let read ← n.read o.id
  let decode ← n.decode o.id
  let type ← n.typeName o.id
  return [.blank,
      .comment (read ++ " decodes the value at the current token into a new " ++ type ++ "."),
      .comment "A null token yields nil.",
      .open ("func (s " ++ serializer ++ ") " ++ read ++ "(r " ++ runtime "Reader" ++ ") (*" ++ type
        ++ ", error)"),
      .open "switch kind := r.Kind(); kind",
      .case (runtime "TokenNull"), .line "return nil, nil",
      .case (runtime "TokenStartObject"), .line ("v := new(" ++ type ++ ")")]
    ++ checkReturning ("s." ++ decode ++ "(r, v)") "nil, err"
    ++ [.line "return v, nil", .default,
      .line ("return nil, " ++ runtime "UnexpectedToken" ++ "(" ++ Text.quoted type ++ ", kind)"),
      .close [], .close []]

def objectCodec (o : Object) : F (List Step) := do
  let type ← n.typeName o.id
  let codec ← n.codecVar o.id
  let serializer ← n.serializer
  let encode ← n.encode o.id
  let decode ← n.decode o.id
  return [.blank, .comment (codec ++ " encodes and decodes " ++ type ++ "."),
      .open ("var " ++ codec ++ " " ++ runtime "Codec" ++ "[" ++ type ++ "] = "
        ++ runtime "CodecFuncs" ++ "[" ++ type ++ "]"),
      .line ("EncodeFunc: " ++ serializer ++ "\x7b\x7d." ++ encode ++ ","),
      .line ("DecodeFunc: " ++ serializer ++ "\x7b\x7d." ++ decode ++ ","),
      .close []]
    ++ (← encodeObject n o) ++ (← decodeObject n o) ++ (← decodeObjectField n o)
    ++ (← readObject n o)

/-! ## Arrays -/

def encodeArray (a : ArrayCodec) : F (List Step) := do
  let serializer ← n.serializer
  let elem ← elemType n a.elem
  return [.blank,
      .open ("func (s " ++ serializer ++ ") " ++ Model.encodeArrayName a.id
        ++ "(w " ++ runtime "Writer" ++ ", items []" ++ elem ++ ") error"),
      .open "if items == nil", .line "return w.WriteNull()", .close []]
    ++ check "w.WriteStartArray()"
    ++ [.open "for _, item := range items"] ++ (← writeElem n a.elem "item")
    ++ [.close [], .line "return w.WriteEndArray()", .close []]

/-- What becomes of a null among the elements. -/
def nullItem (elem : ElemType) (label : Text) : Text :=
  match elem with
  | .object _ => "dst = append(dst, nil)"
  | .scalar _ =>
    "return nil, &" ++ runtime "NullElementError" ++ "\x7bField: " ++ Text.quoted label ++ "\x7d"

def decodeArray (a : ArrayCodec) : F (List Step) := do
  let serializer ← n.serializer
  let elem ← elemType n a.elem
  let label ← n.member a.field
  let read ← readElem n a.elem label (fun e => "nil, " ++ e) fun expr _ =>
    pure [.line ("dst = append(dst, " ++ expr ++ ")")]
  return [.blank,
      .open ("func (s " ++ serializer ++ ") " ++ Model.decodeArrayName a.id
        ++ "(r " ++ runtime "Reader" ++ ", dst []" ++ elem ++ ") ([]" ++ elem ++ ", error)"),
      .open "if dst == nil", .line ("dst = []" ++ elem ++ "\x7b\x7d"), .close [],
      .open "for"]
    ++ nextToken "nil, err"
    ++ [.open "switch kind",
      .case (runtime "TokenEndArray"), .line "return dst, nil",
      .case (runtime "TokenNull"), .line (nullItem a.elem label)]
    ++ read ++ .default :: checkReturning "r.Skip()" "nil, err"
    ++ [.close [], .close [], .close []]

def arrayCodec (a : ArrayCodec) : F (List Step) := do
  return (← encodeArray n a) ++ (← decodeArray n a)

/-! ## Data types -/

/-- The members of an object: name, type and declaring object of each, the dictionary last. -/
def members (o : Object) : F (List (Text × Text × Nat)) := do
  let fields ← o.fields.mapM fun f => return (← n.member f.name, ← fieldType n f.type, f.origin)
  let dictionary ← o.wildcard.toList.mapM fun w =>
    return (← n.member w.name, ← dictType n w.elem, w.origin)
  return fields ++ dictionary

/-- The getter of a member, if an interface declares it. -/
def getter (type : Text) (x : Text × Text × Nat) : F (List Step) := do
  if ← n.isInterface x.2.2 then
    return [.blank, .line ("func (v *" ++ type ++ ") " ++ "Get" ++ x.1 ++ "() " ++ x.2.1
      ++ " \x7b return v." ++ x.1 ++ " \x7d")]
  else return []

def aggregate (o : Object) : F (List Step) := do
  let type ← n.typeName o.id
  let all ← members n o
  if o.isInterface then
    return [.blank,
        .comment (type ++ " is implemented by every type declaring " ++ o.name ++ " as a base."),
        .open ("type " ++ type ++ " interface")]
      ++ (all.map fun x => .line ("Get" ++ x.1 ++ "() " ++ x.2.1)) ++ [.close []]
  else
    let getters ← all.mapM (getter n type)
    return [.blank, .line ("// " ++ type ++ " is the data holder for " ++ o.name ++ "."),
        .open ("type " ++ type ++ " struct")]
      ++ (all.map fun x => .line (x.1 ++ " " ++ x.2.1)) ++ [.close []] ++ getters.flatten

/-! ## The file -/

/-- All that stands below the head of the file. -/
def body (m : Model) : F (List Step) := do
  let serializer ← n.serializer
  let aggregates ← (← n.aggregated).mapM (aggregate n)
  let objects ← (m.objects.filter fun o => !o.isInterface).mapM (objectCodec n)
  let arrays ← m.arrays.mapM (arrayCodec n)
  return [.blank,
      .comment (serializer
        ++ " encodes and decodes the declared types. The zero value is ready to use."),
      .line ("type " ++ serializer ++ " struct\x7b\x7d")]
    ++ aggregates.flatten ++ objects.flatten ++ arrays.flatten

def head (m : Model) (source : Text) : List Step :=
  [.comment (headComment source), .blank, .line ("package " ++ m.package), .blank]
    ++ (if (imports m).isEmpty then []
      else [.line "import ("] ++ ((imports m).map fun i => .line ("\t" ++ Text.quoted i))
        ++ [.line ")"])

end Calls

end WireSchema.Source
