import WireSchema.Text.Quoted

/-!
# Go source

The part of Go that generated files are written in: declarations of types, variables and methods,
statements with blocks and switches, and code as a sequence of atoms that tell references to
imported packages and to methods, and string literals, from the words around them.
-/

namespace WireSchema.Source

inductive Atom where
  /-- Keywords, punctuation, local and declared names. -/
  | raw (t : Text)
  /-- A name of the runtime package. -/
  | runtime (name : Text)
  /-- The decimal type. -/
  | decimalType
  /-- A string literal. -/
  | literal (value : Text)
  /-- A method of the serializer, by name. -/
  | method (name : Text)
  deriving DecidableEq, Repr

namespace Atom

/-- The piece as it is written. -/
def text : Atom → Text
  | .raw t => t
  | .runtime name => "codecgen." ++ name
  | .decimalType => "decimal.Decimal"
  | .literal value => Text.quoted value
  | .method name => name

end Atom

/-- A sequence of pieces. -/
abbrev Code := List Atom

namespace Code

instance : Coe String Code := ⟨fun s => [.raw s]⟩

def word (t : Text) : Code := [.raw t]

/-- A reference to the runtime package. -/
def runtime (name : String) : Code := [.runtime name]

def literal (value : Text) : Code := [.literal value]

/-- A reference to a method of the serializer. -/
def method (name : Text) : Code := [.method name]

def text (c : Code) : Text := c.flatMap Atom.text

end Code

mutual
/-- A statement. -/
inductive Stmt where
  | line (code : Code)
  | block (head : Code) (body : List Stmt)
  | switch (head : Code) (clauses : List Clause)
/-- A clause of a switch. -/
inductive Clause where
  | case (label : Code) (body : List Stmt)
  | default (body : List Stmt)
end

/-- A field of a struct or a method of an interface. -/
structure Member where
  name : Text
  type : Code
  deriving DecidableEq, Repr

/-- A declaration at the top of a file, with the lines of its doc comment. -/
inductive Decl where
  /-- A type without fields. -/
  | marker (doc : List Text) (name : Text)
  /-- An interface with methods that take nothing. -/
  | interface (doc : List Text) (name : Text) (methods : List Member)
  /-- A struct. -/
  | struct (doc : List Text) (name : Text) (fields : List Member)
  /-- A method of a struct that returns one of its fields. -/
  | getter (receiver name : Text) (result : Code) (field : Text)
  /-- A variable of a composite value: its type, and one line for each member of the value. -/
  | variable (doc : List Text) (name : Text) (value : Code) (members : List Code)
  /-- A method of the serializer: its signature after the name, and its body. -/
  | method (doc : List Text) (receiver name : Text) (signature : Code) (body : List Stmt)

/-- A file: the comment at its head, its package, the packages it imports and its declarations. -/
structure File where
  head : Text
  package : Text
  imports : List Text
  decls : List Decl

end WireSchema.Source
