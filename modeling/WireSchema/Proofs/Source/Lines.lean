import WireSchema.Source.Format

/-!
# Lines of code

The lines of code of a declaration, as pieces that still tell what each word of them is. Formatting
adds the doc comment, the braces that end blocks and the label of defaults, and nothing else.
-/

namespace WireSchema.Source

mutual

def Stmt.lines : Stmt → List Code
  | .line code => [code]
  | .block head body => head :: stmtsLines body
  | .switch head clauses => head :: clausesLines clauses

def stmtsLines : List Stmt → List Code
  | [] => []
  | s :: rest => s.lines ++ stmtsLines rest

def Clause.lines : Clause → List Code
  | .case label body => label :: stmtsLines body
  | .default body => stmtsLines body

def clausesLines : List Clause → List Code
  | [] => []
  | c :: rest => c.lines ++ clausesLines rest

end

namespace Decl

def getterHead (receiver name : Text) (result : Code) : Code :=
  "func (v *" ++ Code.word receiver ++ ") " ++ Code.word name ++ "() " ++ result

def getterBody (field : Text) : Code := "return v." ++ Code.word field

/-- A short getter is one line. -/
def getterLines (receiver name : Text) (result : Code) (field : Text) : List Code :=
  let head := getterHead receiver name result
  let body := getterBody field
  if head.text.length + body.text.length ≤ getterLimit then [head ++ " \x7b " ++ body ++ " \x7d"]
  else [head, body]

def fieldLine (width : Nat) (f : Member) : Code :=
  Code.word f.name ++ Code.word (padding width f.name) ++ f.type

def lines : Decl → List Code
  | .marker _ name => ["type " ++ Code.word name ++ " struct\x7b\x7d"]
  | .interface _ name methods =>
    ("type " ++ Code.word name ++ " interface") ::
      methods.map fun f => Code.word f.name ++ "() " ++ f.type
  | .struct _ name fields =>
    ("type " ++ Code.word name ++ " struct") ::
      fields.map (fieldLine (fields.foldl (fun w f => max w (Text.charCount f.name)) 0))
  | .getter receiver name result field => getterLines receiver name result field
  | .variable _ name value members =>
    ("var " ++ Code.word name ++ " " ++ value ++ "\x7b") :: members
  | .method _ receiver name signature body =>
    ("func (s " ++ Code.word receiver ++ ") " ++ Code.word name ++ signature) :: stmtsLines body

/-- The lines of a doc comment before a declaration. -/
def doc : Decl → List Text
  | .marker doc _ | .interface doc _ _ | .struct doc _ _ | .variable doc _ _ _
  | .method doc _ _ _ _ => doc
  | .getter .. => []

end Decl

/-! ## The lines of the format -/

/-- The code or the comment that stands on a line. -/
def written? : Line → Option Text
  | .code _ t | .head _ t | .case _ t => some t
  | _ => none

namespace Code

@[simp]
theorem text_append (c c' : Code) : text (c ++ c') = text c ++ text c' := List.flatMap_append

@[simp]
theorem text_word (t : Text) : text (word t) = t := List.append_nil t

@[simp]
theorem text_nil : text [] = [] := rfl

@[simp]
theorem text_cons_raw (t : Text) (c : Code) : text (.raw t :: c) = t ++ text c := rfl

end Code

mutual

theorem Stmt.written_format : ∀ (s : Stmt) (d : Nat),
    (s.format d).filterMap written? = s.lines.map Code.text
  | .line code, _ => rfl
  | .block head body, d => by
    simp [Stmt.format, Stmt.lines, written?, stmtsWritten_format body]
  | .switch head clauses, d => by
    simp [Stmt.format, Stmt.lines, written?, clausesWritten_format clauses]

theorem stmtsWritten_format : ∀ (l : List Stmt) (d : Nat),
    (stmtsFormat d l).filterMap written? = (stmtsLines l).map Code.text
  | [], _ => rfl
  | s :: rest, d => by
    simp [stmtsFormat, stmtsLines, s.written_format, stmtsWritten_format rest]

theorem Clause.written_format : ∀ (c : Clause) (d : Nat),
    (c.format d).filterMap written? = c.lines.map Code.text
  | .case label body, d => by
    simp [Clause.format, Clause.lines, written?, stmtsWritten_format body]
  | .default body, d => stmtsWritten_format body (d + 1)

theorem clausesWritten_format : ∀ (l : List Clause) (d : Nat),
    (clausesFormat d l).filterMap written? = (clausesLines l).map Code.text
  | [], _ => rfl
  | c :: rest, d => by
    simp [clausesFormat, clausesLines, c.written_format, clausesWritten_format rest]

end

namespace Decl

theorem written_docFormat (doc : List Text) :
    (docFormat doc).filterMap written? = DocComment.canonical doc := by
  simp [docFormat, List.filterMap_map, Function.comp_def, written?]

theorem written_getterFormat (receiver name : Text) (result : Code) (field : Text) :
    (getterFormat receiver name result field).filterMap written? =
      (getterLines receiver name result field).map Code.text := by
  have hhead : (getterHead receiver name result).text =
      "func (v *" ++ receiver ++ ") " ++ name ++ "() " ++ result.text := by
    simp [getterHead]
  have hbody : (getterBody field).text = "return v." ++ field := by
    simp [getterBody]
  unfold getterFormat getterLines
  simp only [hhead, hbody]
  split
  · simp [written?, hhead, hbody]
  · simp [written?, hhead, hbody]

theorem written_format (d : Decl) :
    d.format.filterMap written? = DocComment.canonical d.doc ++ d.lines.map Code.text := by
  cases d with
  | marker doc name =>
    rw [format, List.filterMap_cons_none rfl]
    simp [lines, Decl.doc, written_docFormat, written?]
  | interface doc name methods =>
    rw [format, List.filterMap_cons_none rfl]
    simp [lines, Decl.doc, written_docFormat, written?, List.filterMap_map, Function.comp_def]
  | struct doc name fields =>
    rw [format, List.filterMap_cons_none rfl]
    simp [lines, Decl.doc, written_docFormat, written?, List.filterMap_map, Function.comp_def,
      fieldLines, fieldLine]
  | getter receiver name result field =>
    rw [format, List.filterMap_cons_none rfl, written_getterFormat]
    rfl
  | «variable» doc name value members =>
    rw [format, List.filterMap_cons_none rfl]
    simp [lines, Decl.doc, written_docFormat, written?, List.filterMap_map, Function.comp_def]
  | method doc receiver name signature body =>
    rw [format, List.filterMap_cons_none rfl]
    simp [lines, Decl.doc, written_docFormat, written?, stmtsWritten_format]

end Decl

end WireSchema.Source
