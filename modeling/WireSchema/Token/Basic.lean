import WireSchema.Text.Basic

/-!
# Tokens

The alphabet between documents and codecs. A document of any format is read as a sequence of
tokens: brackets, keys and scalar values. `Token` is what a source produces; `TokenKind` is what a
codec asks about.
-/

namespace WireSchema

/-- One token of a document. A source may also hand on a token of a kind that nobody knows. -/
inductive Token where
  | beginObject
  | endObject
  | beginArray
  | endArray
  | key (name : Text)
  | string (value : Text)
  | number (literal : Text)
  | bool (value : Bool)
  | null
  | unknown (code : Int)
  deriving DecidableEq, Repr

/-- What a reader says of its current token. -/
inductive TokenKind where
  | none
  | startObject
  | endObject
  | startArray
  | endArray
  | fieldName
  | null
  | true
  | false
  | number
  | string
  | unknown (code : Int)
  deriving DecidableEq, Repr

namespace TokenKind

def name : TokenKind → Text
  | .none => "None"
  | .startObject => "StartObject"
  | .endObject => "EndObject"
  | .startArray => "StartArray"
  | .endArray => "EndArray"
  | .fieldName => "FieldName"
  | .null => "Null"
  | .true => "True"
  | .false => "False"
  | .number => "Number"
  | .string => "String"
  | .unknown code => "TokenKind(" ++ Text.ofInt code ++ ")"

/-- The kinds in the order of their codes. -/
def all : List TokenKind :=
  [.none, .startObject, .endObject, .startArray, .endArray, .fieldName, .null, .true, .false,
    .number, .string]

def ofCode : Int → TokenKind
  | .ofNat n => all.getD n (.unknown n)
  | .negSucc n => .unknown (.negSucc n)

end TokenKind

namespace Token

def name : Token → Text
  | .beginObject => "begin-object"
  | .endObject => "end-object"
  | .beginArray => "begin-array"
  | .endArray => "end-array"
  | .key _ => "key"
  | .string _ => "string"
  | .number _ => "number"
  | .bool _ => "bool"
  | .null => "null"
  | .unknown _ => "unknown"

def ofCode : Int → Token
  | 0 => .beginObject
  | 1 => .endObject
  | 2 => .beginArray
  | 3 => .endArray
  | 4 => .key []
  | 5 => .string []
  | 6 => .number []
  | 7 => .bool false
  | 8 => .null
  | code => .unknown code

/-- The kind a reader shows for a token; a token of an unknown sort has none. -/
def kind : Token → TokenKind
  | .beginObject => .startObject
  | .endObject => .endObject
  | .beginArray => .startArray
  | .endArray => .endArray
  | .key _ => .fieldName
  | .string _ => .string
  | .number _ => .number
  | .bool true => .true
  | .bool false => .false
  | .null => .null
  | .unknown _ => .none

/-- The text of a token: its name, value or literal, and nothing for a bracket or a null. -/
def text : Token → Text
  | .key t | .string t | .number t => t
  | .bool b => Text.ofBool b
  | _ => []

def opens : Token → Bool
  | .beginObject | .beginArray => true
  | _ => false

def closes : Token → Bool
  | .endObject | .endArray => true
  | _ => false

end Token

/-- A token and where it was found: an offset or a line, or `-1` where nobody knows. -/
structure Located where
  token : Token
  offset : Int
  deriving DecidableEq, Repr

end WireSchema
