import WireSchema.Text.Quoted
import WireSchema.Token.Basic

/-!
# Failures

Every way in which an operation of this library can fail, as a cause with the facts that matter,
and in one place the words for it. A failure may carry the failure behind it; `Failure.chain` lists
them from the outside in.
-/

namespace WireSchema

/-- How a token stream can end too early. -/
inductive StreamEnd where
  /-- Between two tokens. -/
  | clean
  /-- Inside a token or inside a value that is being skipped. -/
  | torn
  deriving DecidableEq, Repr

inductive NumberFault where
  | malformed
  | outOfRange
  deriving DecidableEq, Repr

inductive NumberForm where
  | integer
  | float
  deriving DecidableEq, Repr

/-- Why an operation failed. -/
inductive Failure where
  /-- A line of schema text is malformed. -/
  | schemaSyntax (line : Int) (text reason : Text)
  /-- A field type, or (with an empty field) a base, names no declared object. -/
  | unresolvedType (object field type : Text)
  /-- A schema asks for something that cannot be compiled. -/
  | unsupportedFeature (object feature : Text)
  /-- Two fields of an object share a key or a name, or there are two wildcards. -/
  | duplicateField (object key first second : Text)
  /-- Source could not be emitted. -/
  | generate (cause : Failure)
  /-- Emitted source is not well-formed, in the words of the formatter. -/
  | malformedSource (text : Text)
  /-- A name that must have a first letter is empty. -/
  | emptyName
  /-- A line is to be written at a negative depth. -/
  | negativeDepth
  /-- A value of the wrong shape; the field is empty at the top of a document. -/
  | unexpectedToken (field : Text) (kind : TokenKind)
  /-- A null among the elements of an array. -/
  | nullElement (field : Text)
  /-- A failure while a field was being read. -/
  | inField (field : Text) (cause : Failure)
  /-- A key for the second time in one object. -/
  | duplicateKey (key path : Text)
  /-- A document is nested too deeply; the place is left out where none is known. -/
  | maxDepth (path : Option Text)
  /-- An alias stands inside the node it refers to. -/
  | aliasCycle (line : Int)
  /-- A document has too many tokens after its aliases are replaced. -/
  | aliasExpansion (budget : Nat) (line : Int)
  /-- A mapping key is itself a mapping or a sequence. -/
  | compoundKey (line : Int)
  /-- A reader found no further token. -/
  | endOfStream (cause : Option StreamEnd)
  /-- A source found no further token. -/
  | exhausted (how : StreamEnd)
  /-- A JSON document is malformed, in the words of its reader. -/
  | malformedJson (text : Text)
  /-- A YAML document is malformed or cannot be written, in the words of its reader or writer. -/
  | malformedYaml (text : Text)
  /-- A settings file is malformed, in the words of its reader. -/
  | malformedSettings (text : Text)
  /-- A number does not have the form, or the size, that was asked for. -/
  | number (form : NumberForm) (text : Text) (fault : NumberFault)
  /-- A value to be changed is not there. -/
  | absentValue
  /-- A document is to be indented by less than nothing. -/
  | negativeIndent
  /-- Any other failure, by its message. -/
  | plain (message : Text)
  /-- A failure with a word on what was being done. -/
  | context (message : Text) (cause : Failure)
  deriving DecidableEq, Repr

namespace StreamEnd

def message : StreamEnd → Text
  | .clean => "EOF"
  | .torn => "unexpected EOF"

end StreamEnd

namespace NumberFault

def message : NumberFault → Text
  | .malformed => "invalid syntax"
  | .outOfRange => "value out of range"

end NumberFault

namespace NumberForm

/-- The name under which messages speak of a reading. -/
def name : NumberForm → Text
  | .integer => "strconv.ParseInt"
  | .float => "strconv.ParseFloat"

end NumberForm

namespace Failure

def message : Failure → Text
  | .schemaSyntax line text reason =>
    "schema syntax error at line " ++ Text.ofInt line ++ ": " ++ reason ++ ": " ++ Text.quoted text
  | .unresolvedType object field type =>
    if field.isEmpty then object ++ ": unable to find base type " ++ Text.quoted type
    else object ++ "." ++ field ++ ": unable to find requested type " ++ Text.quoted type
  | .unsupportedFeature object feature => object ++ ": not supported: " ++ feature
  | .duplicateField object key first second =>
    object ++ ": field " ++ Text.quoted key ++ " from " ++ second
      ++ " conflicts with the one from " ++ first
  | .generate cause => "generate: " ++ message cause
  | .malformedSource text => "format: " ++ text
  | .emptyName => "empty name"
  | .negativeDepth => "strings: negative Repeat count"
  | .unexpectedToken field kind =>
    if field.isEmpty then "unexpected token type: " ++ kind.name
    else "unexpected token type for " ++ field ++ ": " ++ kind.name
  | .nullElement field => "null element in " ++ field
  | .inField field cause => field ++ ": " ++ message cause
  | .duplicateKey key path => "key " ++ Text.quoted key ++ " duplicated at " ++ path
  | .maxDepth none => "max depth exceeded"
  | .maxDepth (some path) => "max depth exceeded at " ++ path
  | .aliasCycle line => "yaml: alias refers to an enclosing node at line " ++ Text.ofInt line
  | .aliasExpansion budget line =>
    "yaml: document is too large after expanding aliases: more than " ++ Text.ofNat budget
      ++ " tokens at line " ++ Text.ofInt line
  | .compoundKey line => "yaml: line " ++ Text.ofInt line ++ ": mapping key must be a scalar"
  | .endOfStream none => "unexpected end of token stream"
  | .endOfStream (some cause) => "unexpected end of token stream: " ++ cause.message
  | .exhausted how => how.message
  | .malformedJson text | .malformedYaml text => text
  | .malformedSettings text => "parse config: " ++ text
  | .number form text fault =>
    form.name ++ ": parsing " ++ Text.quoted text ++ ": " ++ fault.message
  | .absentValue => "absent value"
  | .negativeIndent => "yaml: cannot indent to a negative number of spaces"
  | .plain message => message
  | .context what cause => what ++ ": " ++ message cause

/-- The failure and those behind it, from the outside in. -/
def chain : Failure → List Failure
  | .generate cause => .generate cause :: chain cause
  | .inField field cause => .inField field cause :: chain cause
  | .context what cause => .context what cause :: chain cause
  | f => [f]

/-- The field a failure is about: the one of an unexpected token, else of a null element, else the
outermost field that was being read. -/
def field (f : Failure) : Text :=
  let unexpected := f.chain.findSome? fun
    | .unexpectedToken field _ => some field
    | _ => none
  let null := f.chain.findSome? fun
    | .nullElement field => some field
    | _ => none
  let within := f.chain.findSome? fun
    | .inField field _ => some field
    | _ => none
  ((unexpected.or null).or within).getD []

end Failure

end WireSchema
