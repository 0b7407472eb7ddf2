import WireSchema.LineDiff.Script
import WireSchema.Text.Style

/-!
# Line reports

What has to change in a text to become another, line by line. Of the lines that stay, one before
and one after each change is shown.
-/

namespace WireSchema.LineDiff

/-- The lines of a text, each with its line feed; `line` holds the one being read, last first. -/
def linesLoop (line : Text) : Text → List Text
  | [] => if line.isEmpty then [] else [line.reverse]
  | b :: rest =>
    if b == 0x0A then (b :: line).reverse :: linesLoop [] rest else linesLoop (b :: line) rest

/-- The lines of a text, each with its line feed. -/
def lines (t : Text) : List Text := linesLoop [] t

def shownLines (items : List Text) : List Text :=
  let t := items.flatten
  Text.splitOn ((Text.dropEnd? t "\n").getD t) 0x0A

/-- A line of a report: what becomes of it, and how it reads. -/
structure Line where
  kind : EditKind
  text : Text
  deriving DecidableEq, Repr

/-- A line as it is printed: one that goes in red, one that comes in green. -/
def Line.print (isColored : Bool) (l : Line) : Text :=
  match l.kind with
  | .delete => Text.styled isColored [.red] ("-" ++ l.text) ++ "\n"
  | .insert => Text.styled isColored [.green] ("+" ++ l.text) ++ "\n"
  | .keep => " " ++ l.text ++ "\n"

/-- The lines of a run that stays: the first one after a change, and the last one before a change.
Dots stand for what is left out. -/
def keptLines (isFirst isLast : Bool) (items : List Text) : List Text :=
  let shown := shownLines items
  let head := if isFirst then [] else shown.take 1
  let rest := if isFirst then shown else shown.drop 1
  let tail := match isLast, rest.getLast? with
    | false, some last => (if 1 < rest.length then [Text.ofString "..."] else []) ++ [last]
    | _, _ => []
  head ++ tail

/-- The report of a step; `isFirst` and `isLast` tell whether it stands at an end of the script. -/
def stepReport (isFirst isLast : Bool) (e : Edit Text) : List Line :=
  match e.kind with
  | .keep => (keptLines isFirst isLast e.items).map (⟨.keep, ·⟩)
  | kind => (shownLines e.items).map (⟨kind, ·⟩)

def stepReports : (isFirst : Bool) → List (Edit Text) → List Line
  | _, [] => []
  | isFirst, e :: rest => stepReport isFirst rest.isEmpty e ++ stepReports false rest

/-- What has to change in a text to become another. -/
def report (before after : Text) : List Line :=
  stepReports true (diff (lines before) (lines after))

def print (isColored : Bool) (ls : List Line) : Text := ls.flatMap (Line.print isColored)

end WireSchema.LineDiff
