import WireSchema.Number.Shortest
import WireSchema.Write

/-!
# Documents to be written

A YAML document as codecs build it up, event by event. A container hangs in the document from the
moment it is opened and is filled where it hangs. The innermost open container is therefore the last
part of the one around it, and one flag tells whether a name in it waits for its value.
-/

namespace WireSchema.Yaml

/-- A document to be written. A `text` stays a text whatever it looks like; a `plain` scalar is
written as it is. -/
inductive Tree where
  | plain (value : Text)
  | text (value : Text)
  | sequence (items : List Tree)
  | mapping (entries : List (Text × Tree))
  deriving Repr

namespace Tree

def value : Tree → Text
  | .plain value | .text value => value
  | .sequence _ | .mapping _ => []

/-- Names and values that come in turn. -/
def pairs : List Tree → List (Text × Tree)
  | name :: t :: rest => (name.value, t) :: pairs rest
  | _ => []

end Tree

/-! ## Parts -/

/-- A part of a document that is being built. The contents of a container stand last first; those of a
mapping are names and values in turn. -/
inductive Part where
  | scalar (tag value : Text)
  | container (isMapping : Bool) (contents : List Part)
  deriving Repr

namespace Part

/-- Puts a part at the end of the container that is reached in `depth` steps, each to the last part. -/
def append (added : Part) : (depth : Nat) → Part → Part
  | 0, .container isMapping contents => .container isMapping (added :: contents)
  | depth + 1, .container isMapping (last :: before) =>
    .container isMapping (append added depth last :: before)
  | _, p => p

mutual

def tree : Part → Tree
  | .scalar tag value => if tag.isEmpty then .plain value else .text value
  | .container false contents => .sequence (trees contents).reverse
  | .container true contents => .mapping (Tree.pairs (trees contents).reverse)

def trees : List Part → List Tree
  | [] => []
  | p :: rest => p.tree :: trees rest

end

end Part

/-! ## The builder -/

/-- A document that is being built. -/
structure Builder where
  root : Option Part := none
  /-- For each open container, innermost first: is it a mapping? -/
  stack : List Bool := []
  /-- Does a name wait for its value? -/
  named : Bool := false
  deriving Repr

namespace Builder

/-- An action of the builder; what was changed before a failure stays changed. -/
abbrev Action := EStateM Failure Builder Unit

/-- Puts a part at the end of the innermost open container. -/
def append (added : Part) (b : Builder) : Builder :=
  { b with root := b.root.map (Part.append added (b.stack.length - 1)) }

/-- Adds a part where it belongs. -/
def add (added : Part) : Action := do
  let b ← get
  match b.stack with
  | [] =>
    if b.root.isSome then throw (.plain "yaml: more than one top-level value")
    set { b with root := some added }
  | isMapping :: _ =>
    if isMapping then
      if !b.named then throw (.plain "yaml: value written without a field name")
      modify fun b => { b with named := false }
    modify (append added)

def openContainer (isMapping : Bool) : Action := do
  add (.container isMapping [])
  modify fun b => { b with stack := isMapping :: b.stack }

/-- Closes the innermost container, which must be of the same sort and not wait for a value. -/
def closeContainer (isMapping : Bool) : Action := do
  let b ← get
  match b.stack with
  | top :: outer =>
    if top != isMapping || b.named then throw (.plain "yaml: unbalanced end token")
    set { b with stack := outer }
  | [] => throw (.plain "yaml: unbalanced end token")

/-- The tag of a text, which keeps it one whatever it looks like. -/
def textTag : Text := "!!str"

def plain (value : Text) : Action := add (.scalar [] value)

/-- Adds a name, for which a mapping must be open and not wait for a value already. -/
def fieldName (name : Text) : Action := do
  let b ← get
  if b.stack.head? != some true || b.named then
    throw (.plain "yaml: field name outside of an object")
  set { b.append (.scalar textTag name) with named := true }

def float (f : BinaryFormat) (x : Binary) : Action :=
  plain (match x with
    | .nan => ".nan"
    | .infinite false => ".inf"
    | .infinite true => "-.inf"
    | x => x.toText f)

def event : Write → Action
  | .startObject => openContainer true
  | .endObject => closeContainer true
  | .startArray => openContainer false
  | .endArray => closeContainer false
  | .fieldName name => fieldName name
  | .null => plain "null"
  | .bool v => plain (Text.ofBool v)
  | .integer n => plain (Text.ofInt n)
  | .float f x => float f x
  | .decimal d => plain d.toText
  | .string t => add (.scalar textTag t)

/-- Takes one event: why it was refused, if it was, and the builder after it. -/
def write (b : Builder) (e : Write) : Option Failure × Builder :=
  match (event e).run b with
  | .ok _ b => (none, b)
  | .error f b => (some f, b)

/-- Takes events up to the first that is refused. -/
def writeAll (b : Builder) : List Write → Option Failure × Builder
  | [] => (none, b)
  | e :: rest =>
    match b.write e with
    | (none, b) => writeAll b rest
    | (some f, b) => (some f, b)

/-- The document, if it is complete. -/
def document (b : Builder) : Except Failure Tree :=
  match b.root, b.stack with
  | some p, [] => .ok p.tree
  | _, _ => .error (.plain "yaml: document is incomplete")

end Builder

end WireSchema.Yaml
