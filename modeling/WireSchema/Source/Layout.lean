import WireSchema.Text.Basic

/-!
# Indented text

A layout is text that grows line by line at a depth of indentation. Braces move the depth; the
label of a switch clause stands one step further out than the clause. No line can be written at a
negative depth, which only a label outside every block reaches.
-/

namespace WireSchema

/-- Text under way: the chunks written, last first, and the depth of the next line. -/
structure Layout where
  chunks : List Text := []
  depth : Int := 0
  deriving DecidableEq, Repr

namespace Layout

/-- One thing to write. -/
inductive Step where
  | line (t : Text)
  | blank
  | comment (t : Text)
  | «open» (head : Text)
  | close (tail : Text)
  | case (label : Text)
  | default
  deriving DecidableEq, Repr

/-- All that has been written. -/
def text (l : Layout) : Text := l.chunks.reverse.flatten

def tabs (depth : Nat) : Text := List.replicate depth 0x09

/-- Writes a line at the current depth; an empty one has no indentation and fits at any depth. At
a negative depth the layout stays as it is. -/
def line (t : Text) (l : Layout) : Except Layout Layout :=
  if t.isEmpty then .ok { l with chunks := "\n" :: l.chunks }
  else if l.depth < 0 then .error l
  else .ok { l with chunks := (tabs l.depth.toNat ++ t ++ "\n") :: l.chunks }

def indent (n : Int) (l : Layout) : Layout := { l with depth := l.depth + n }

/-- Carries out one step. A step that cannot be carried out leaves the layout of the error. -/
def apply (l : Layout) : Step → Except Layout Layout
  | .line t => l.line t
  | .blank => l.line []
  | .comment t => l.line ("// " ++ t)
  | .open head => do pure ((← l.line (head ++ " \x7b")).indent 1)
  | .close tail => (if 0 < l.depth then l.indent (-1) else l).line ("\x7d" ++ tail)
  | .case label => do pure ((← (l.indent (-1)).line ("case " ++ label ++ ":")).indent 1)
  | .default => do pure ((← (l.indent (-1)).line "default:").indent 1)

/-- Carries out steps in order, up to the first that cannot be. -/
def run (l : Layout) (steps : List Step) : Except Layout Layout := steps.foldlM apply l

end Layout

end WireSchema
