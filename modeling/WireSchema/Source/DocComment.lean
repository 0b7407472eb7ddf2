import WireSchema.Text.Utf8

/-!
# Comments

A comment of a generated file may carry a text from outside, the name of an object or of a schema
file. This module says which comments can be read back, and how comments look in the canonical
format.
-/

namespace WireSchema.Source.DocComment

/-- May the character stand in a source file? -/
def allowed : Piece → Bool
  | .char c => c != '\x00' && c != '\uFEFF'
  | .stray _ => false

/-- A line without blanks at its end. -/
def trimRight (t : Text) : Text :=
  (t.reverse.dropWhile fun b => b == 0x20 || b == 0x09 || b == 0x0D).reverse

/-- The comments that a line is made of, and whether the last of them goes on behind it. There is no
answer if the line has anything but comments and blanks. `read` is what has been read of a general
comment, last byte first. -/
def comments? : (read : Option Text) → Text → Option (List Text × Bool)
  | none, [] => some ([], false)
  | none, 0x2F :: 0x2F :: rest => some ([0x2F :: 0x2F :: rest], false)
  | none, 0x2F :: 0x2A :: rest => comments? (some [0x2A, 0x2F]) rest
  | none, b :: rest => if b == 0x20 || b == 0x09 then comments? none rest else none
  | some read, [] => some ([read.reverse], true)
  | some read, 0x2A :: 0x2F :: rest =>
    (comments? none rest).map fun (others, goesOn) =>
      ((0x2F :: 0x2A :: read).reverse :: others, goesOn)
  | some read, b :: rest => comments? (some (b :: read)) rest

/-- The lines of comments as they stand in a file, where `inside` tells whether a general comment goes
on from the line before. Every comment has an end. -/
def commentLines? (inside : Bool) : List Text → Option (List Text)
  | [] => if inside then none else some []
  | line :: rest => do
    let (comments, goesOn) ← comments? (if inside then some [] else none) line
    let others ← commentLines? goesOn rest
    return Text.join " " (comments.map trimRight) :: others

/-- Drops every blank line that follows another. -/
def collapse : List Text → List Text
  | [] :: [] :: rest => collapse ([] :: rest)
  | line :: rest => line :: collapse rest
  | [] => []

/-- The lines that a text is laid out as where only comments may stand. -/
def lines? (t : Text) : Option (List Text) :=
  (commentLines? false (Text.splitOn (t.filter (· != 0x0D)) 0x0A)).map collapse

/-- May the text stand where only comments may? A text from outside can bring further lines into a
comment, and what follows it then follows the last of them. -/
def fits (t : Text) : Bool := (Text.pieces t).all allowed && (lines? t).isSome

def plainLines (t : Text) : List Text := (lines? t).getD []

/-- Makes the quotes of a doc comment typographic: two backquotes open and two apostrophes close.
Three backquotes are left alone. -/
def typographic : List Char → List Char
  | '`' :: '`' :: '`' :: rest => '`' :: '`' :: '`' :: typographic rest
  | '`' :: '`' :: rest => '“' :: typographic rest
  | '\'' :: '\'' :: rest => '”' :: typographic rest
  | c :: rest => c :: typographic rest
  | [] => []

def docLine (t : Text) : Text :=
  match t with
  | 0x2F :: 0x2F :: rest =>
    let body := Text.ofChars (typographic (Text.chars rest))
    if body.isEmpty || body.head? == some 0x20 || body.head? == some 0x09 then "//" ++ body
    else "// " ++ body
  | _ => t

/-- The lines of a doc comment in the canonical format. -/
def canonical (lines : List Text) : List Text :=
  lines.flatMap fun l => (plainLines ("// " ++ l)).map docLine

end WireSchema.Source.DocComment
