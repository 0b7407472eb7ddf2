import WireSchema.Failure
import WireSchema.Source.Calls
import WireSchema.Source.Format

/-!
# Generation

The source file of a model, or why there is none: two declarations want one name, or a text of the
schema does not fit into Go.
-/

namespace WireSchema.Source

/-- A text without blanks and line breaks at its ends. -/
def trimmed (t : Text) : Text :=
  let isGap (b : UInt8) : Bool := b == 0x20 || b == 0x09 || b == 0x0D || b == 0x0A
  ((t.dropWhile isGap).reverse.dropWhile isGap).reverse

/-- The package name that a text spells; a semicolon on the same line may end it. -/
def packageName? (t : Text) : Option Text :=
  let name := match Text.dropEnd? (trimmed t) ";" with
    | some before => DocComment.trimRight before
    | none => trimmed t
  if Names.isIdentifier name then some name else none

/-- Are the names of a concrete object identifiers? -/
def objectFits (m : Model) (o : Object) : Bool :=
  Names.isIdentifier (m.typeName o.id) &&
    o.fields.all (fun f => Names.isIdentifier (Model.memberName f.name)) &&
    o.wildcard.all fun w => Names.isIdentifier (Model.memberName w.name)

/-- Can the data type of an object be declared? -/
def dataFits (m : Model) (o : Object) : Bool :=
  Names.isIdentifier (m.typeName o.id) && DocComment.fits ("// " ++ dataDoc m o)

/-- Is the file of a model well-formed? -/
def fits (m : Model) (source : Text) : Bool :=
  Names.isIdentifier m.serializerName && DocComment.fits ("// " ++ headComment source) &&
    (m.objects.filter fun o => !o.isInterface).all (objectFits m) &&
    (m.aggregates.filterMap m.object?).all (dataFits m)

/-- The text that the code writer makes of calls. It cannot go on where a line is due at a negative
depth. -/
def written (calls : List Layout.Step) : Except Failure Text :=
  match Layout.run {} calls with
  | .ok l => .ok l.text
  | .error _ => .error .negativeDepth

/-- What the formatter makes of the source that was written for a model. The source reads as
`file m source`, if it is well-formed. -/
def formatted (m : Model) (source : Text) : Except Failure Text :=
  match packageName? m.package with
  | none => .error (.generate (.malformedSource "malformed package clause"))
  | some package =>
    if fits m source then .ok { file m source with package }.render
    else .error (.generate (.malformedSource "malformed declaration or comment"))

def clashMessage (ident what previous : Text) : Text :=
  "identifier " ++ ident ++ " generated for " ++ what ++ " is already used by " ++ previous

/-- The source file of a model, with the name of its schema in the head if there is one. All of it is
written before its form is judged. -/
def generate (m : Model) (source : Text) : Except Failure Text :=
  if m.access == .anyone && m.serializer.isEmpty then .error .emptyName
  else
    match Model.clash? [] m.reservedNames with
    | some (ident, what, previous) =>
      .error (.generate (.plain (clashMessage ident what previous)))
    | none => do
      let _ ← written (Calls.body (Naming.ofModel m) m).run
      let _ ← written (Calls.head m source)
      formatted m source

end WireSchema.Source
