import WireSchema.Token.Basic

/-!
# JSON documents as trees

The shape that a well-formed token stream has: `Tree` is one complete value, with the members of an
object in their order and repeated keys kept, and `Tree.tokens` is the stream that spells it. Numbers
keep their literals, so that a tree says nothing about which number a literal stands for.
-/

namespace WireSchema.Json

inductive Tree where
  | null
  | bool (value : Bool)
  | number (literal : Text)
  | string (value : Text)
  | array (items : List Tree)
  | object (members : List (Text × Tree))
  deriving Repr

namespace Tree

def head : Tree → Token
  | .null => .null
  | .bool b => .bool b
  | .number t => .number t
  | .string t => .string t
  | .array _ => .beginArray
  | .object _ => .beginObject

def last : Tree → Token
  | .array _ => .endArray
  | .object _ => .endObject
  | t => t.head

mutual

/-- The tokens that follow the first one of a value. -/
def tail : Tree → List Token
  | .array items => itemTokens items ++ [.endArray]
  | .object members => memberTokens members ++ [.endObject]
  | _ => []

/-- The tokens of values, one after another. -/
def itemTokens : List Tree → List Token
  | [] => []
  | t :: rest => t.head :: t.tail ++ itemTokens rest

/-- The tokens of the members of an object: every value after its key. -/
def memberTokens : List (Text × Tree) → List Token
  | [] => []
  | (key, t) :: rest => .key key :: t.head :: t.tail ++ memberTokens rest

end

def tokens (t : Tree) : List Token := t.head :: t.tail

end Tree

end WireSchema.Json
