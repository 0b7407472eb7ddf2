import WireSchema.Number.Shortest
import WireSchema.Write

/-!
# The JSON writer

Writes events as JSON text, compact or with an indentation. Every piece goes to the sink as soon as
it is known, so that a full sink stops the writing in the middle; the writer stays usable.
-/

namespace WireSchema.Json

/-! ## Strings -/

/-- How a piece of text stands in a JSON string. Besides what JSON itself demands, the characters
that could end a script or start a tag are escaped. -/
def escapePiece : Piece → Text
  | .stray _ => "\\ufffd"
  | .char c =>
    if c == '"' || c == '\\' then Text.ofChars ['\\', c]
    else if c == '\n' then "\\n"
    else if c == '\r' then "\\r"
    else if c == '\t' then "\\t"
    else if c.toNat < 0x20 || c == '<' || c == '>' || c == '&' then "\\u00" ++ Text.hex 2 c.toNat
    else if c.toNat == 0x2028 || c.toNat == 0x2029 then "\\u" ++ Text.hex 4 c.toNat
    else utf8c c
where
  /-- The bytes of a character that stands as it is. -/
  utf8c (c : Char) : Text := String.utf8EncodeChar c

def stringText (t : Text) : Text := "\"" ++ (Text.pieces t).flatMap escapePiece ++ "\""

/-! ## The writer -/

/-- An open container: is it an object, and how many entries does it have? -/
structure OpenContainer where
  isObject : Bool
  count : Nat := 0
  deriving DecidableEq, Repr

/-- The writer between two events. -/
structure Writer where
  sink : Sink := {}
  /-- The text for one level of indentation; without it the output is compact. -/
  indent : Text := []
  /-- The open containers, innermost first. -/
  stack : List OpenContainer := []
  /-- Does a name wait for its value? -/
  named : Bool := false
  deriving DecidableEq, Repr

namespace Writer

/-- An action of the writer; what was written before a failure stays written. -/
abbrev Action := EStateM Failure Writer Unit

def raw (t : Text) : Action := do
  let w ← get
  match w.sink.write t with
  | .ok sink => set { w with sink }
  | .error f => throw f

/-- Starts a line at a depth, if the output is indented. -/
def newline (depth : Nat) : Action := do
  let w ← get
  if w.indent.isEmpty then pure () else raw ("\n" ++ Text.repeated w.indent depth)

/-- Prepares for an entry: a separator after another one, and a new line. The value of a name needs
nothing. -/
def element : Action := do
  let w ← get
  if w.named then set { w with named := false }
  else
    match w.stack with
    | [] => pure ()
    | top :: outer =>
      if 0 < top.count then raw ","
      modify fun w => { w with stack := { top with count := top.count + 1 } :: outer }
      newline w.stack.length

def scalar (t : Text) : Action := do
  element
  raw t

def openContainer (isObject : Bool) (bracket : Text) : Action := do
  element
  modify fun w => { w with stack := { isObject } :: w.stack }
  raw bracket

/-- Closes the innermost container, which must be of the same sort and not wait for a value. -/
def closeContainer (isObject : Bool) (bracket : Text) : Action := do
  let w ← get
  match w.stack with
  | top :: outer =>
    if top.isObject != isObject || w.named then
      throw (.plain "codecgen: unbalanced end token")
    set { w with stack := outer }
    if 0 < top.count then newline outer.length
    raw bracket
  | [] => throw (.plain "codecgen: unbalanced end token")

def acceptsName (w : Writer) : Bool :=
  !w.named &&
    match w.stack with
    | top :: _ => top.isObject
    | [] => false

def fieldName (t : Text) : Action := do
  let w ← get
  if !w.acceptsName then
    throw (.plain "codecgen: field name outside an object or without a value")
  element
  raw (stringText t ++ (if w.indent.isEmpty then ":" else ": "))
  modify fun w => { w with named := true }

/-- Writes a floating-point number, which must be finite. -/
def float (f : BinaryFormat) (x : Binary) : Action :=
  if x.isFinite then scalar (x.toText f)
  else throw (.plain "codecgen: NaN and infinity are not valid JSON numbers")

def event : Write → Action
  | .startObject => openContainer true "\x7b"
  | .endObject => closeContainer true "\x7d"
  | .startArray => openContainer false "["
  | .endArray => closeContainer false "]"
  | .fieldName t => fieldName t
  | .null => scalar "null"
  | .bool b => scalar (Text.ofBool b)
  | .integer n => scalar (Text.ofInt n)
  | .float f x => float f x
  | .decimal d => scalar d.toText
  | .string t => scalar (stringText t)

/-- Writes one event: why it failed, if it did, and the writer after it. -/
def write (w : Writer) (e : Write) : Option Failure × Writer :=
  match (event e).run w with
  | .ok _ w => (none, w)
  | .error f w => (some f, w)

/-- Writes events up to the first failure. -/
def writeAll (w : Writer) : List Write → Option Failure × Writer
  | [] => (none, w)
  | e :: rest =>
    match w.write e with
    | (none, w) => writeAll w rest
    | (some f, w) => (some f, w)

end Writer

end WireSchema.Json
