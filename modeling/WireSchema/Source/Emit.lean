import WireSchema.Source.Code
import WireSchema.Source.Identifier

/-!
# From a model to a file

The declarations of a generated file: the serializer, the types that hold the data, and for every
concrete object and every array the methods that write and read it.
-/

namespace WireSchema.Source

/-! ## Scalars -/

def scalarType : Scalar → Code
  | .bool => "bool"
  | .int32 => "int32"
  | .int64 => "int64"
  | .decimal => [.decimalType]
  | .float => "float32"
  | .double => "float64"
  | .string => "string"

def writeMethod : Scalar → Code
  | .bool => "WriteBool"
  | .int32 => "WriteInt32"
  | .int64 => "WriteInt64"
  | .decimal => "WriteDecimal"
  | .float => "WriteFloat32"
  | .double => "WriteFloat64"
  | .string => "WriteString"

def scalarTokens : Scalar → Code
  | .bool => Code.runtime "TokenTrue" ++ ", " ++ Code.runtime "TokenFalse"
  | .string => Code.runtime "TokenString"
  | _ => Code.runtime "TokenNumber"

def readFunction : Scalar → Code
  | .int32 => Code.runtime "ReadInt32"
  | .int64 => Code.runtime "ReadInt64"
  | .decimal => Code.runtime "ReadDecimal"
  | .float => Code.runtime "ReadFloat32"
  | _ => Code.runtime "ReadFloat64"

/-! ## Types -/

def elemCode (m : Model) : ElemType → Code
  | .scalar s => scalarType s
  | .object id => "*" ++ Code.word (m.typeName id)

/-- The type of a field: a scalar is held by a pointer. -/
def fieldCode (m : Model) : FieldType → Code
  | .single (.scalar s) => "*" ++ scalarType s
  | .single (.object id) => elemCode m (.object id)
  | .array elem _ => "[]" ++ elemCode m elem

def dictCode (m : Model) (elem : ElemType) : Code :=
  "*" ++ Code.runtime "Dict" ++ "[" ++ elemCode m elem ++ "]"

/-! ## Data types -/

/-- The members of an object: name, type and declaring object of each field, the dictionary
last. -/
def members (m : Model) (o : Object) : List (Text × Code × Nat) :=
  (o.fields.map fun f => (f.name, fieldCode m f.type, f.origin)) ++
    match o.wildcard with
    | some w => [(w.name, dictCode m w.elem, w.origin)]
    | none => []

def fromInterface (m : Model) (origin : Nat) : Bool :=
  ((m.object? origin).map Object.isInterface).getD false

def dataDoc (m : Model) (o : Object) : Text :=
  if o.isInterface then
    m.typeName o.id ++ " is implemented by every type declaring " ++ o.name ++ " as a base."
  else m.typeName o.id ++ " is the data holder for " ++ o.name ++ "."

/-- The type of an object, and getters for the fields that come from interfaces. -/
def dataDecls (m : Model) (o : Object) : List Decl :=
  let type := m.typeName o.id
  let all := members m o
  if o.isInterface then
    [.interface [dataDoc m o] type
      (all.map fun (name, code, _) => ⟨Model.getterName name, code⟩)]
  else
    .struct [dataDoc m o] type (all.map fun (name, code, _) => ⟨Model.memberName name, code⟩)
      :: (all.filter fun (_, _, origin) => fromInterface m origin).map fun (name, code, _) =>
        .getter type (Model.getterName name) code (Model.memberName name)

/-! ## Statements -/

/-- A call whose error ends the surrounding method with the given results. -/
def checked (call : Code) (results : Code) : Stmt :=
  .block ("if err := " ++ call ++ "; err != nil") [.line ("return " ++ results)]

/-- Leaves the method with the given results if there was an error. -/
def returnOnError (results : Code) : Stmt := .block "if err != nil" [.line ("return " ++ results)]

def nextToken (results : Code) : List Stmt := [.line "kind, err := r.Next()", returnOnError results]

def writeElem (m : Model) (elem : ElemType) (expr : Code) : Stmt :=
  match elem with
  | .scalar s => checked ("w." ++ writeMethod s ++ "(" ++ expr ++ ")") "err"
  | .object id => checked ("s." ++ Code.method (m.encodeName id) ++ "(w, " ++ expr ++ ")") "err"

def writeField (m : Model) (type : FieldType) (expr : Code) : Stmt :=
  match type with
  | .single (.scalar s) => writeElem m (.scalar s) ("*" ++ expr)
  | .single (.object id) => writeElem m (.object id) expr
  | .array _ codec =>
    checked ("s." ++ Code.method (Model.encodeArrayName codec) ++ "(w, " ++ expr ++ ")") "err"

/-- The clause that reads an element and stores it. `failed` gives the results of the method for an
error, and `label` is the name under which a bad number is reported. -/
def readElem (m : Model) (elem : ElemType) (label : Text) (failed : Code → Code)
    (store : Code → List Stmt) : Clause :=
  match elem with
  | .scalar .bool =>
    .case (scalarTokens .bool) (store ("kind == " ++ Code.runtime "TokenTrue"))
  | .scalar .string => .case (scalarTokens .string) (store "r.Text()")
  | .scalar s =>
    .case (scalarTokens s) (
      [.line ("x, err := " ++ readFunction s ++ "(r)"),
        returnOnError (failed (Code.runtime "WrapField" ++ "(" ++ Code.literal label ++ ", err)"))]
      ++ store "x")
  | .object id =>
    .case (Code.runtime "TokenStartObject") (
      [.line ("x := new(" ++ Code.word (m.typeName id) ++ ")"),
        checked ("s." ++ Code.method (m.decodeName id) ++ "(r, x)") (failed "err")]
      ++ store "x")

/-! ## Objects -/

def codecDecl (m : Model) (o : Object) : Decl :=
  let type := m.typeName o.id
  let serializer := Code.word (m.serializerName ++ "\x7b\x7d.")
  .variable [m.codecVar o.id ++ " encodes and decodes " ++ type ++ "."] (m.codecVar o.id)
    (Code.runtime "Codec" ++ "[" ++ Code.word type ++ "] = " ++ Code.runtime "CodecFuncs" ++ "["
      ++ Code.word type ++ "]")
    ["EncodeFunc: " ++ serializer ++ Code.method (m.encodeName o.id) ++ ",",
      "DecodeFunc: " ++ serializer ++ Code.method (m.decodeName o.id) ++ ","]

/-- The statements that write a field under its key, unless it is nil. -/
def encodeMember (m : Model) (f : Field) : Stmt :=
  let expr : Code := Code.word ("v." ++ Model.memberName f.name)
  .block ("if " ++ expr ++ " != nil") [
    checked ("w.WriteFieldName(" ++ Code.literal f.key ++ ")") "err",
    writeField m f.type expr]

/-- The statements that write a dictionary. -/
def encodeWildcard (m : Model) (w : Wildcard) : Stmt :=
  .block (Code.word ("for key, value := range v." ++ Model.memberName w.name ++ ".All()")) [
    checked "w.WriteFieldName(key)" "err",
    writeElem m w.elem "value"]

def encodeDecl (m : Model) (o : Object) : Decl :=
  .method
    [m.encodeName o.id ++ " writes v as an object, or null when v is nil. Nil fields are omitted."]
    m.serializerName (m.encodeName o.id)
    ("(w " ++ Code.runtime "Writer" ++ ", v *" ++ Code.word (m.typeName o.id) ++ ") error")
    ([.block "if v == nil" [.line "return w.WriteNull()"], checked "w.WriteStartObject()" "err"]
      ++ o.fields.map (encodeMember m) ++ (o.wildcard.map (encodeWildcard m)).toList
      ++ [.line "return w.WriteEndObject()"])

/-- The method that reads the members of an object. -/
def decodeDecl (m : Model) (o : Object) : Decl :=
  .method
    [m.decodeName o.id ++ " reads the members of an object into v. r must be positioned on",
      "the object's start token; unknown members are skipped."]
    m.serializerName (m.decodeName o.id)
    ("(r " ++ Code.runtime "Reader" ++ ", v *" ++ Code.word (m.typeName o.id) ++ ") error")
    [.block "for" (nextToken "err" ++ [.switch "switch kind" [
      .case (Code.runtime "TokenFieldName")
        [checked ("s." ++ Code.method (m.decodeFieldName o.id) ++ "(r, v)") "err"],
      .case (Code.runtime "TokenEndObject") [.line "return nil"],
      .default [checked "r.Skip()" "err"]]])]

/-- How a field of the given type takes the value `expr`. -/
def storeField (type : FieldType) (target expr : Code) : List Stmt :=
  match type with
  | .single (.scalar .bool) | .single (.scalar .string) =>
    [.line (target ++ " = " ++ Code.runtime "Ptr" ++ "(" ++ expr ++ ")")]
  | .single (.scalar _) => [.line (target ++ " = &" ++ expr)]
  | _ => [.line (target ++ " = " ++ expr)]

def refuseMember (name : Text) : Clause :=
  .default [.line ("return " ++ Code.runtime "UnexpectedToken" ++ "(" ++ Code.literal name
    ++ ", kind)")]

def readField (m : Model) (f : Field) : Clause :=
  let name := Model.memberName f.name
  let target : Code := Code.word ("v." ++ name)
  match f.type with
  | .single elem => readElem m elem name id (storeField f.type target)
  | .array _ codec =>
    .case (Code.runtime "TokenStartArray") (
      [.line ("x, err := s." ++ Code.method (Model.decodeArrayName codec) ++ "(r, " ++ target
          ++ "[:0])"),
        returnOnError "err"]
      ++ storeField f.type target "x")

def dispatchField (m : Model) (f : Field) : Clause :=
  let name := Model.memberName f.name
  .case (Code.literal f.key) (nextToken "err" ++ [.switch "switch kind" [
    .case (Code.runtime "TokenNull") [.line (Code.word ("v." ++ name) ++ " = nil")],
    readField m f,
    refuseMember name]])

def dispatchOther (m : Model) : Option Wildcard → Clause
  | none => .default [.line "return r.Skip()"]
  | some w =>
    let name := Model.memberName w.name
    let target : Code := Code.word ("v." ++ name)
    .default (nextToken "err" ++ [.switch "switch kind" [
      .case (Code.runtime "TokenNull") [],
      readElem m w.elem name id fun expr => [
        .block ("if " ++ target ++ " == nil")
          [.line (target ++ " = " ++ Code.runtime "NewDict" ++ "[" ++ elemCode m w.elem ++ "]()")],
        .line (target ++ ".Set(name, " ++ expr ++ ")")],
      refuseMember name]])

def decodeFieldDecl (m : Model) (o : Object) : Decl :=
  let head : Code := if o.wildcard.isSome then "switch name := r.Text(); name" else "switch r.Text()"
  let body : List Stmt :=
    if o.fields.isEmpty && o.wildcard.isNone then [.line "return r.Skip()"]
    else [.switch head (o.fields.map (dispatchField m) ++ [dispatchOther m o.wildcard]),
      .line "return nil"]
  .method [] m.serializerName (m.decodeFieldName o.id)
    ("(r " ++ Code.runtime "Reader" ++ ", v *" ++ Code.word (m.typeName o.id) ++ ") error") body

def readDecl (m : Model) (o : Object) : Decl :=
  let type := m.typeName o.id
  .method
    [m.readName o.id ++ " decodes the value at the current token into a new " ++ type ++ ".",
      "A null token yields nil."]
    m.serializerName (m.readName o.id)
    ("(r " ++ Code.runtime "Reader" ++ ") (*" ++ Code.word type ++ ", error)")
    [.switch "switch kind := r.Kind(); kind" [
      .case (Code.runtime "TokenNull") [.line "return nil, nil"],
      .case (Code.runtime "TokenStartObject") [
        .line ("v := new(" ++ Code.word type ++ ")"),
        checked ("s." ++ Code.method (m.decodeName o.id) ++ "(r, v)") "nil, err",
        .line "return v, nil"],
      .default [.line ("return nil, " ++ Code.runtime "UnexpectedToken" ++ "(" ++ Code.literal type
        ++ ", kind)")]]]

/-- The codec and the methods of a concrete object. -/
def objectDecls (m : Model) (o : Object) : List Decl :=
  [codecDecl m o, encodeDecl m o, decodeDecl m o, decodeFieldDecl m o, readDecl m o]

/-! ## Arrays -/

def encodeArrayDecl (m : Model) (a : ArrayCodec) : Decl :=
  .method [] m.serializerName (Model.encodeArrayName a.id)
    ("(w " ++ Code.runtime "Writer" ++ ", items []" ++ elemCode m a.elem ++ ") error")
    [.block "if items == nil" [.line "return w.WriteNull()"],
      checked "w.WriteStartArray()" "err",
      .block "for _, item := range items" [writeElem m a.elem "item"],
      .line "return w.WriteEndArray()"]

/-- What becomes of a null among the elements. -/
def nullElement (a : ArrayCodec) : Code :=
  match a.elem with
  | .object _ => "dst = append(dst, nil)"
  | .scalar _ =>
    "return nil, &" ++ Code.runtime "NullElementError" ++ "\x7bField: "
      ++ Code.literal (Model.memberName a.field) ++ "\x7d"

def decodeArrayDecl (m : Model) (a : ArrayCodec) : Decl :=
  let elem := elemCode m a.elem
  .method [] m.serializerName (Model.decodeArrayName a.id)
    ("(r " ++ Code.runtime "Reader" ++ ", dst []" ++ elem ++ ") ([]" ++ elem ++ ", error)")
    [.block "if dst == nil" [.line ("dst = []" ++ elem ++ "\x7b\x7d")],
      .block "for" (nextToken "nil, err" ++ [.switch "switch kind" [
        .case (Code.runtime "TokenEndArray") [.line "return dst, nil"],
        .case (Code.runtime "TokenNull") [.line (nullElement a)],
        readElem m a.elem (Model.memberName a.field) (fun e => "nil, " ++ e)
          fun expr => [.line ("dst = append(dst, " ++ expr ++ ")")],
        .default [checked "r.Skip()" "nil, err"]]])]

/-! ## The file -/

/-- Does the model's file refer to the runtime package? Codecs do, and dictionaries in data
types. -/
def needsRuntime (m : Model) : Bool :=
  m.objects.any (fun o => !o.isInterface) || !m.arrays.isEmpty ||
    m.aggregates.any fun id => ((m.object? id).map fun o => o.wildcard.isSome).getD false

def isDecimal : ElemType → Bool
  | .scalar .decimal => true
  | _ => false

/-- Is the field a decimal or an array of decimals? -/
def holdsDecimal : FieldType → Bool
  | .single elem | .array elem _ => isDecimal elem

/-- Does the model's file name the decimal type? It does in data types, in the methods of arrays and
where dictionaries are made; plain fields read and write decimals without naming it. -/
def needsDecimal (m : Model) : Bool :=
  let aggregated := m.aggregates.filterMap m.object?
  aggregated.any (fun o => o.fields.any (holdsDecimal ·.type) ||
      (o.wildcard.map (isDecimal ·.elem)).getD false)
    || m.arrays.any (isDecimal ·.elem)
    || m.objects.any fun o => !o.isInterface && (o.wildcard.map (isDecimal ·.elem)).getD false

def serializerDecl (m : Model) : Decl :=
  .marker [m.serializerName
    ++ " encodes and decodes the declared types. The zero value is ready to use."] m.serializerName

def decls (m : Model) : List Decl :=
  serializerDecl m :: ((m.aggregates.filterMap m.object?).flatMap (dataDecls m)
    ++ (m.objects.filter fun o => !o.isInterface).flatMap (objectDecls m)
    ++ m.arrays.flatMap fun a => [encodeArrayDecl m a, decodeArrayDecl m a])

/-- The comment at the head of a file, which names the schema if it is known. -/
def headComment (source : Text) : Text :=
  if source.isEmpty then "Code generated by codecgen. DO NOT EDIT."
  else "Code generated by codecgen from " ++ source ++ ". DO NOT EDIT."

/-- The packages that a model's file imports. -/
def imports (m : Model) : List Text :=
  (if needsRuntime m then [Text.ofString "github.com/reoring/codecgen"] else [])
    ++ (if needsDecimal m then [Text.ofString "github.com/shopspring/decimal"] else [])

def file (m : Model) (source : Text) : File where
  head := "// " ++ headComment source
  package := m.package
  imports := imports m
  decls := decls m

end WireSchema.Source
