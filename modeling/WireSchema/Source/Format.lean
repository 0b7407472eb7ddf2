import WireSchema.Source.Code
import WireSchema.Source.DocComment
import WireSchema.Source.Layout

/-!
# The canonical format

The lines of a file as the formatter leaves them, whatever its source looked like: fields of a struct
aligned, short getters on one line, quotes of doc comments made typographic.
-/

namespace WireSchema.Source

/-- A line of a formatted file, at a depth of indentation. -/
inductive Line where
  | blank
  | code (depth : Nat) (t : Text)
  /-- The head of a block. -/
  | head (depth : Nat) (t : Text)
  /-- The brace that ends a block. -/
  | brace (depth : Nat)
  | case (depth : Nat) (label : Text)
  | default (depth : Nat)
  deriving DecidableEq, Repr

def Line.text : Line → Text
  | .blank => "\n"
  | .code depth t => Layout.tabs depth ++ t ++ "\n"
  | .head depth t => Layout.tabs depth ++ t ++ " \x7b\n"
  | .brace depth => Layout.tabs depth ++ "\x7d\n"
  | .case depth label => Layout.tabs depth ++ "case " ++ label ++ ":\n"
  | .default depth => Layout.tabs depth ++ "default:\n"

mutual
def Stmt.format (depth : Nat) : Stmt → List Line
  | .line code => [.code depth code.text]
  | .block head body => .head depth head.text :: (stmtsFormat (depth + 1) body ++ [.brace depth])
  | .switch head clauses =>
    .head depth head.text :: (clausesFormat depth clauses ++ [.brace depth])
def stmtsFormat (depth : Nat) : List Stmt → List Line
  | [] => []
  | s :: rest => s.format depth ++ stmtsFormat depth rest
/-- The lines of a clause. Its label stands as far out as the switch. -/
def Clause.format (depth : Nat) : Clause → List Line
  | .case label body => .case depth label.text :: stmtsFormat (depth + 1) body
  | .default body => .default depth :: stmtsFormat (depth + 1) body
def clausesFormat (depth : Nat) : List Clause → List Line
  | [] => []
  | c :: rest => c.format depth ++ clausesFormat depth rest
end

namespace Decl

/-- Spaces that fill a name up to a column, and one more. -/
def padding (width : Nat) (name : Text) : Text :=
  List.replicate (width + 1 - Text.charCount name) 0x20

/-- The lines of a struct's fields, with the types in one column. -/
def fieldLines (fields : List Member) : List Line :=
  let width := fields.foldl (fun w f => max w (Text.charCount f.name)) 0
  fields.map fun f => .code 1 (f.name ++ padding width f.name ++ f.type.text)

/-- The size up to which a getter stands on one line: header and body, in bytes. -/
def getterLimit : Nat := 100

def getterFormat (receiver name : Text) (result : Code) (field : Text) : List Line :=
  let head := "func (v *" ++ receiver ++ ") " ++ name ++ "() " ++ result.text
  let body := "return v." ++ field
  if head.length + body.length ≤ getterLimit then [.code 0 (head ++ " \x7b " ++ body ++ " \x7d")]
  else [.head 0 head, .code 1 body, .brace 0]

def docFormat (doc : List Text) : List Line := (DocComment.canonical doc).map (.code 0)

/-- The lines of a declaration, after a blank one. -/
def format : Decl → List Line
  | .marker doc name => .blank :: (docFormat doc ++ [.code 0 ("type " ++ name ++ " struct\x7b\x7d")])
  | .interface doc name methods =>
    .blank :: (docFormat doc ++ [.head 0 ("type " ++ name ++ " interface")]
      ++ (methods.map fun m => .code 1 (m.name ++ "() " ++ m.type.text)) ++ [.brace 0])
  | .struct doc name fields =>
    .blank :: (docFormat doc ++ [.head 0 ("type " ++ name ++ " struct")] ++ fieldLines fields
      ++ [.brace 0])
  | .getter receiver name result field => .blank :: getterFormat receiver name result field
  | .variable doc name value members =>
    -- no blank before the brace of a composite value
    .blank :: (docFormat doc ++ [.code 0 ("var " ++ name ++ " " ++ value.text ++ "\x7b")]
      ++ (members.map fun m => .code 1 m.text) ++ [.brace 0])
  | .method doc receiver name signature body =>
    .blank :: (docFormat doc
      ++ [.head 0 ("func (s " ++ receiver ++ ") " ++ name ++ signature.text)]
      ++ stmtsFormat 1 body ++ [.brace 0])

end Decl

namespace File

/-- The lines above the declarations. -/
def headFormat (f : File) : List Line :=
  ((DocComment.plainLines f.head).map (.code 0)) ++ [.blank, .code 0 ("package " ++ f.package)]
    ++ (if f.imports.isEmpty then []
      else [.blank, .code 0 "import ("] ++ (f.imports.map fun i => .code 1 (Text.quoted i))
        ++ [.code 0 ")"])

def format (f : File) : List Line := f.headFormat ++ f.decls.flatMap Decl.format

/-- The text of a file in the canonical format. -/
def render (f : File) : Text := f.format.flatMap Line.text

end File

end WireSchema.Source
