import WireSchema.Yaml.Style
import WireSchema.Yaml.Tree

/-!
# Writing YAML text

Lays a document out as text: blocks are indented, empty containers stand in brackets, and a scalar
is written in the plainest style that reads back as the same text.
-/

namespace WireSchema.Yaml

/-- A text that is being written, last character first. -/
structure Page where
  out : List Char := []
  column : Nat := 0
  /-- Needs the next word no space before it? -/
  spaced : Bool := true
  /-- Does the line hold only indentation and indicators that count as such? -/
  fresh : Bool := true

namespace Page

/-- Writes a character. -/
def put (p : Page) (c : Char) : Page := { p with out := c :: p.out, column := p.column + 1 }

/-- Writes characters. -/
def puts (p : Page) (cs : List Char) : Page := cs.foldl put p

/-- Starts a new line. -/
def newline (p : Page) : Page := { p with out := '\n' :: p.out, column := 0, fresh := true }

/-- Writes a line break that belongs to a text. -/
def textBreak (p : Page) (c : Char) : Page :=
  if c == '\n' then p.newline else { p.put c with column := 0, fresh := true }

/-- Goes to the column `indent`, on a new line unless this one is still free up to there. -/
def toColumn (p : Page) (indent : Nat) : Page :=
  let p := if !p.fresh || indent < p.column || (p.column == indent && !p.spaced) then p.newline
    else p
  { p.puts (List.replicate (indent - p.column) ' ') with spaced := true }

/-- Writes an indicator, after a space if it needs one. -/
def indicator (p : Page) (cs : List Char) (apart spaced keepsFresh : Bool) : Page :=
  let p := if apart && !p.spaced then p.put ' ' else p
  { p.puts cs with spaced, fresh := p.fresh && keepsFresh }

/-! ## Scalars -/

def plain (p : Page) (cs : List Char) : Page :=
  if cs.isEmpty then { p with fresh := false }
  else
    let p := if p.spaced then p else p.put ' '
    { p.puts cs with spaced := false, fresh := false }

/-- Writes the text of a scalar in single quotes; `broken` tells whether the character before was a
line break. -/
def singleText (indent : Nat) : (broken : Bool) → Page → List Char → Page
  | _, p, [] => p
  | broken, p, c :: rest =>
    if c == ' ' then singleText indent broken (p.put c) rest
    else if isBreak c then
      let p := if !broken && c == '\n' then p.newline else p
      singleText indent true (p.textBreak c) rest
    else
      let p := if broken then p.toColumn indent else p
      let p := if c == '\'' then p.put c else p
      singleText indent false { p.put c with fresh := false } rest

def single (p : Page) (indent : Nat) (cs : List Char) : Page :=
  let p := singleText indent false (p.indicator ['\''] true false false) cs
  p.indicator ['\''] false false false

/-- The digits of a number in capital hexadecimal. -/
def hexDigits (width n : Nat) : List Char :=
  let digits := (Nat.toDigits 16 n).map Char.toUpper
  List.replicate (width - digits.length) '0' ++ digits

def escaped (c : Char) : List Char :=
  let n := c.toNat
  '\\' ::
    if n == 0x00 then ['0']
    else if n == 0x07 then ['a']
    else if n == 0x08 then ['b']
    else if n == 0x09 then ['t']
    else if n == 0x0A then ['n']
    else if n == 0x0B then ['v']
    else if n == 0x0C then ['f']
    else if n == 0x0D then ['r']
    else if n == 0x1B then ['e']
    else if n == 0x22 then ['"']
    else if n == 0x5C then ['\\']
    else if n == 0x85 then ['N']
    else if n == 0xA0 then ['_']
    else if n == 0x2028 then ['L']
    else if n == 0x2029 then ['P']
    else if n ≤ 0xFF then 'x' :: hexDigits 2 n
    else if n ≤ 0xFFFF then 'u' :: hexDigits 4 n
    else 'U' :: hexDigits 8 n

/-- Writes a scalar in double quotes. A text that starts with a byte order mark is escaped
throughout. -/
def double (p : Page) (cs : List Char) : Page :=
  let marked := cs.head? == some '\ufeff'
  let text := cs.flatMap fun c =>
    if marked || !isShown c || isBreak c || c == '"' || c == '\\' then escaped c else [c]
  let p := (p.indicator ['"'] true false false).puts text
  p.indicator ['"'] false false false

/-- What follows the bar of a block scalar: the indentation, if the text starts with a blank or a
line break, and how the text ends. -/
def blockHints (unit : Nat) (cs : List Char) : List Char :=
  let hint := match cs with
    | c :: _ => if c == ' ' || isBreak c then Nat.toDigits 10 unit else []
    | [] => []
  let chomp := match cs.reverse with
    | [] => ['-']
    | [c] => if isBreak c then ['+'] else ['-']
    | c :: d :: _ => if !isBreak c then ['-'] else if isBreak d then ['+'] else []
  hint ++ chomp

/-- Writes the lines of a block scalar; `broken` tells whether a line starts here. -/
def blockText (indent : Nat) : (broken : Bool) → Page → List Char → Page
  | _, p, [] => p
  | broken, p, c :: rest =>
    if isBreak c then blockText indent true (p.textBreak c) rest
    else
      let p := if broken then p.toColumn indent else p
      blockText indent false { p.put c with fresh := false } rest

def block (p : Page) (unit indent : Nat) (cs : List Char) : Page :=
  let p := p.indicator ('|' :: blockHints unit cs) true false false
  blockText indent true { p with spaced := true } cs

def scalar (p : Page) (unit indent : Nat) (style : ScalarStyle) (cs : List Char) : Page :=
  match style with
  | .plain => p.plain cs
  | .singleQuoted => p.single indent cs
  | .doubleQuoted => p.double cs
  | .literal | .folded => p.block unit indent cs

/-! ## Containers -/

/-- The indentation inside a container: the next multiple of the unit, but in a sequence two columns
further, behind the dash. -/
def deeper (unit : Nat) (inSequence : Bool) : Option Nat → Nat
  | none => unit
  | some indent => if inSequence then indent + 2 else unit * ((indent + unit) / unit)

def text (p : Page) (unit indent : Nat) (t : Text) : Page :=
  let cs := Text.chars t
  p.scalar unit indent (chooseStyle (Meaning.ofText true t != .text) cs) cs

/-- Is the text short enough, and on one line, so that it can be a key without `?`? -/
def isSimpleKey (t : Text) : Bool := t.length ≤ 128 && !(Text.chars t).any isBreak

mutual

/-- Writes a tree. `indent` is the indentation of the container around it. -/
def tree (unit : Nat) (inSequence : Bool) (indent : Option Nat) (p : Page) : Tree → Page
  | .plain value =>
    p.scalar unit (deeper unit inSequence indent) (chooseStyle false (Text.chars value))
      (Text.chars value)
  | .text value => p.text unit (deeper unit inSequence indent) value
  | .sequence [] => p.indicator ['[', ']'] true false false
  | .sequence items =>
    sequence unit (if indent.isNone then 0 else deeper unit inSequence indent) p items
  | .mapping [] => p.indicator ['\x7b', '\x7d'] true false false
  | .mapping entries =>
    mapping unit (if indent.isNone then 0 else deeper unit inSequence indent) p entries

def sequence (unit indent : Nat) (p : Page) : List Tree → Page
  | [] => p
  | t :: rest =>
    let p := (p.toColumn indent).indicator ['-'] true false true
    sequence unit indent (tree unit true (some indent) p t) rest

def mapping (unit indent : Nat) (p : Page) : List (Text × Tree) → Page
  | [] => p
  | (name, t) :: rest =>
    let p := p.toColumn indent
    let p :=
      if isSimpleKey name then
        (p.text unit (deeper unit false (some indent)) name).indicator [':'] false false false
      else
        let p := (p.indicator ['?'] true false true).text unit (deeper unit false (some indent)) name
        (p.toColumn indent).indicator [':'] true false true
    mapping unit indent (tree unit false (some indent) p t) rest

end

end Page

/-! ## Documents -/

mutual

/-- Are all texts of the tree valid UTF-8? -/
def Tree.isWritable : Tree → Bool
  | .plain _ => true
  | .text t => Text.isUtf8 t
  | .sequence items => Tree.areWritable items
  | .mapping entries => Tree.entriesWritable entries

/-- Are all texts of the items valid UTF-8? -/
def Tree.areWritable : List Tree → Bool
  | [] => true
  | t :: rest => t.isWritable && Tree.areWritable rest

/-- Are all names and texts of the entries valid UTF-8? -/
def Tree.entriesWritable : List (Text × Tree) → Bool
  | [] => true
  | (name, t) :: rest => Text.isUtf8 name && t.isWritable && Tree.entriesWritable rest

end

/-- The unit of indentation: two unless a number from two to nine is asked for. -/
def indentUnit (n : Int) : Nat := if 2 ≤ n && n ≤ 9 then n.toNat else 2

def Tree.render (unit : Nat) (t : Tree) : Text :=
  Text.ofChars ((Page.tree unit false none {} t).toColumn 0).out.reverse

def Builder.text (b : Builder) (indent : Int) : Except Failure Text := do
  let t ← b.document
  if indent < 0 then .error .negativeIndent
  else if !t.isWritable then .error (.malformedYaml "yaml: cannot marshal invalid UTF-8 data as !!str")
  else return t.render (indentUnit indent)

end WireSchema.Yaml
