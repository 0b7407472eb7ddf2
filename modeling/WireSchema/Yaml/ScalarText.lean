import WireSchema.Yaml.Lexeme

/-!
# The text of scalars

Scanning the scalars of a stream: plain ones, quoted ones and the two block styles. Line breaks
inside the first two are folded: one break is a space, and of several the first is dropped.
-/

namespace WireSchema.Yaml

/-! ## Gaps

Blanks and line breaks between the words of a scalar. -/

/-- What a gap holds: blanks before any line break, the first break, and further breaks; texts are
last first. -/
structure Gap where
  blanks : List Char := []
  first : List Char := []
  more : List Char := []
  broken : Bool := false
  deriving DecidableEq, Repr

namespace Gap

/-- The text that a gap stands for, last character first. -/
def folded (g : Gap) : List Char :=
  if !g.broken then g.blanks
  else if g.first == ['\n'] then (if g.more.isEmpty then [' '] else g.more)
  else g.more ++ g.first

end Gap

/-- Reads blanks and line breaks. On a line that the gap itself started, a tab left of column
`margin` is refused. -/
def scanGap (margin : Int) (g : Gap) (line column index : Nat) :
    List Char → Option (Gap × Cursor)
  | '\r' :: '\n' :: rest => scanGap margin (addBreak g '\n') (line + 1) 0 (index + 2) rest
  | c :: rest =>
    if isBlank c then
      if g.broken && c == '\t' && (column : Int) < margin then none
      else
        let g := if g.broken then g else { g with blanks := c :: g.blanks }
        scanGap margin g line (column + 1) (index + 1) rest
    else if isBreak c then
      scanGap margin (addBreak g (Cursor.breakChar c)) (line + 1) 0 (index + 1) rest
    else some (g, { rest := c :: rest, line, column, index })
  | [] => some (g, { rest := [], line, column, index })
where
  /-- Takes in one more line break. -/
  addBreak (g : Gap) (c : Char) : Gap :=
    if g.broken then { g with more := c :: g.more }
    else { g with blanks := [], first := [c], broken := true }

def Cursor.gap (margin : Int) (g : Gap) (c : Cursor) : Option (Gap × Cursor) :=
  scanGap margin g c.line c.column c.index c.rest

/-! ## Plain scalars -/

/-- Does the character end a plain scalar inside brackets? -/
def endsFlowWord (c : Char) : Bool :=
  c == ',' || c == '?' || c == '[' || c == ']' || c == '\x7b' || c == '\x7d'

/-- The length of the plain word at the start of `cs`, added to `n`. -/
def wordLength (inFlow : Bool) (n : Nat) : List Char → Nat
  | [] => n
  | c :: rest =>
    if isBlank c || isBreak c then n
    else if c == ':' && atGap rest then n
    else if inFlow && endsFlowWord c then n
    else wordLength inFlow (n + 1) rest

/-- A scalar that was read: its text, where it ends, and whether it ends on a later line. -/
structure ScannedScalar where
  text : List Char
  cursor : Cursor
  crossed : Bool := false
  deriving Repr

/-- Reads words and gaps; `seen` holds the text so far, last first, and `pending` the gap before the
cursor. -/
def scanPlainLoop (inFlow : Bool) (margin : Int) :
    (fuel : Nat) → List Char → Gap → Cursor → Option ScannedScalar
  | 0, seen, pending, c => some ⟨seen.reverse, c, pending.broken⟩
  | fuel + 1, seen, pending, c =>
    if c.atMarker || c.rest.head? == some '#' then some ⟨seen.reverse, c, pending.broken⟩
    else
      let n := wordLength inFlow 0 c.rest
      let word := c.rest.take n
      let (seen, pending) :=
        if n == 0 then (seen, pending) else (word.reverse ++ (pending.folded ++ seen), {})
      let c := c.advance n
      match c.rest with
      | [] => some ⟨seen.reverse, c, pending.broken⟩
      | ch :: _ =>
        if !(isBlank ch || isBreak ch) then some ⟨seen.reverse, c, pending.broken⟩
        else
          match c.gap margin pending with
          | none => none
          | some (gap, c) =>
            if !inFlow && (c.column : Int) < margin then some ⟨seen.reverse, c, gap.broken⟩
            else scanPlainLoop inFlow margin fuel seen gap c

/-- Reads a plain scalar; in block context it ends left of column `margin`. -/
def scanPlain (inFlow : Bool) (margin : Int) (c : Cursor) : Option ScannedScalar :=
  scanPlainLoop inFlow margin (c.rest.length + 1) [] {} c

/-! ## Quoted scalars -/

/-- The character that a backslash and a letter stand for. -/
def escapeChar? : Char → Option Char
  | '0' => some '\x00'
  | 'a' => some '\x07'
  | 'b' => some '\x08'
  | 't' => some '\t'
  | '\t' => some '\t'
  | 'n' => some '\n'
  | 'v' => some '\x0b'
  | 'f' => some '\x0c'
  | 'r' => some '\r'
  | 'e' => some '\x1b'
  | ' ' => some ' '
  | '"' => some '"'
  | '\'' => some '\''
  | '\\' => some '\\'
  | 'N' => some '\u0085'
  | '_' => some '\u00a0'
  | 'L' => some '\u2028'
  | 'P' => some '\u2029'
  | _ => none

/-- How many hexadecimal digits follow the letter of a numeric escape. -/
def escapeDigits? : Char → Option Nat
  | 'x' => some 2
  | 'u' => some 4
  | 'U' => some 8
  | _ => none

/-- The value of a hexadecimal digit. -/
def hexChar? (c : Char) : Option Nat :=
  if c.toNat < 0x80 then Text.hexValue? c.toNat.toUInt8 else none

def hexNumber? : Nat → List Char → Option Nat
  | n, [] => some n
  | n, c :: rest => (hexChar? c).bind fun d => hexNumber? (n * 16 + d) rest

/-- The character with a number, unless it is a surrogate or too large. -/
def charOf? (n : Nat) : Option Char :=
  if (0xD800 ≤ n && n ≤ 0xDFFF) || 0x10FFFF < n then none else some (Char.ofNat n)

/-- Reads a quoted scalar from after its opening quote; `seen` holds the text so far, last first. At
the start of a run of words there must be no document marker. -/
def scanQuotedLoop (single : Bool) :
    (fuel : Nat) → (runStart : Bool) → List Char → Cursor → Option (List Char × Cursor)
  | 0, _, _, _ => none
  | fuel + 1, runStart, seen, c =>
    if runStart && c.atMarker then none
    else
      match c.rest with
      | [] => none
      | ch :: rest =>
        if isBlank ch || isBreak ch then
          match c.gap 0 {} with
          | none => none
          | some (gap, c) => scanQuotedLoop single fuel true (gap.folded ++ seen) c
        else if single && ch == '\'' then
          if rest.head? == some '\'' then
            scanQuotedLoop single fuel false ('\'' :: seen) (c.advance 2)
          else some (seen.reverse, c.advance 1)
        else if !single && ch == '"' then some (seen.reverse, c.advance 1)
        else if !single && ch == '\\' then
          match rest with
          | [] => none
          | e :: digits =>
            -- an escaped break joins the two lines without a space
            if isBreak e then
              match (c.advance 1).breakLine.gap 0 { broken := true } with
              | none => none
              | some (gap, c) => scanQuotedLoop single fuel true (gap.folded ++ seen) c
            else
              match escapeChar? e with
              | some x => scanQuotedLoop single fuel false (x :: seen) (c.advance 2)
              | none =>
                match escapeDigits? e with
                | none => none
                | some n =>
                  if digits.length < n then none
                  else
                    match (hexNumber? 0 (digits.take n)).bind charOf? with
                    | none => none
                    | some x => scanQuotedLoop single fuel false (x :: seen) (c.advance (n + 2))
        else scanQuotedLoop single fuel false (ch :: seen) (c.advance 1)

def scanQuoted (single : Bool) (c : Cursor) : Option (List Char × Cursor) :=
  scanQuotedLoop single (c.rest.length + 1) true [] (c.advance 1)

/-! ## Block scalars -/

/-- What becomes of the line breaks at the end of a block scalar. -/
inductive Chomping where
  | strip
  | clip
  | keep
  deriving DecidableEq, Repr

def chomping? : Char → Option Chomping
  | '+' => some .keep
  | '-' => some .strip
  | _ => none

/-- The indentation that a digit asks for; zero is refused. -/
def indentDigit? (c : Char) : Option Nat :=
  if c.isDigit && c != '0' then some (c.toNat - '0'.toNat) else none

/-- Reads the indicators after `|` or `>`: a chomping and an indentation, in either order. -/
def blockHeader (c : Cursor) : Option (Chomping × Nat × Cursor) :=
  match c.rest with
  | a :: rest =>
    match chomping? a with
    | some ch =>
      match rest with
      | d :: _ =>
        if d.isDigit then (indentDigit? d).map fun n => (ch, n, c.advance 2)
        else some (ch, 0, c.advance 1)
      | [] => some (ch, 0, c.advance 1)
    | none =>
      if a.isDigit then
        match indentDigit? a with
        | none => none
        | some n =>
          match rest.head?.bind chomping? with
          | some ch => some (ch, n, c.advance 2)
          | none => some (.clip, n, c.advance 1)
      else some (.clip, 0, c)
  | [] => some (.clip, 0, c)

/-- Passes over the rest of a header line: blanks, a comment and the line break. -/
def endHeader (c : Cursor) : Option Cursor :=
  let c := c.skipBlanks
  let c := if c.rest.head? == some '#' then c.toLineEnd else c
  match c.rest with
  | [] => some c
  | ch :: _ => if isBreak ch then some c.breakLine else none

/-- Passes over the indentation of a line: spaces, up to column `indent` if it is known. -/
def skipIndent (indent : Nat) (c : Cursor) : Cursor :=
  let spaces := (c.rest.takeWhile (· == ' ')).length
  c.advance (if indent == 0 then spaces else min spaces (indent - c.column))

/-- Reads the empty lines before the next line with text: their breaks, last first, the widest
indentation among them, and the cursor behind the indentation. A tab in the indentation is
refused. -/
def blockBreaks (indent : Nat) :
    (fuel : Nat) → List Char → Nat → Cursor → Option (List Char × Nat × Cursor)
  | 0, breaks, widest, c => some (breaks, widest, c)
  | fuel + 1, breaks, widest, c =>
    let c := skipIndent indent c
    let widest := max widest c.column
    match c.rest with
    | [] => some (breaks, widest, c)
    | ch :: _ =>
      if ch == '\t' && (indent == 0 || c.column < indent) then none
      else if isBreak ch then
        blockBreaks indent fuel (Cursor.breakChar ch :: breaks) widest c.breakLine
      else some (breaks, widest, c)

/-- Reads the lines of a block scalar. `lead` is the break before the next line, `breaks` the empty
lines before it, and `blankBefore` tells whether the line before started with a blank. -/
def blockLines (isLiteral : Bool) (chomp : Chomping) (indent : Nat) :
    (fuel : Nat) → List Char → List Char → List Char → Bool → Cursor →
    Option (List Char × Cursor)
  | fuel, seen, lead, breaks, blankBefore, c =>
    let finish : List Char × Cursor :=
      let tail := match chomp with
        | .strip => []
        | .clip => lead
        | .keep => breaks ++ lead
      ((tail ++ seen).reverse, c)
    match fuel with
    | 0 => some finish
    | fuel + 1 =>
      match c.rest with
      | [] => some finish
      | ch :: _ =>
        if c.column != indent then some finish
        else
          let blankNow := isBlank ch
          -- a single break is folded only between lines that both start with text
          let joint :=
            if !isLiteral && !blankBefore && !blankNow && lead == ['\n'] then
              if breaks.isEmpty then [' '] else breaks
            else breaks ++ lead
          let line := c.rest.takeWhile (!isBreak ·)
          let seen := line.reverse ++ (joint ++ seen)
          let c := c.advance line.length
          let lead := (c.rest.head?.map Cursor.breakChar).toList
          match blockBreaks indent (c.rest.length + 1) [] 0 c.breakLine with
          | none => none
          | some (breaks, _, c) => blockLines isLiteral chomp indent fuel seen lead breaks blankNow c

/-- Reads a block scalar from its indicator; `parent` is the indentation around it, which is
negative at the top. -/
def scanBlock (isLiteral : Bool) (parent : Int) (c : Cursor) : Option (List Char × Cursor) := do
  let (chomp, increment, c) ← blockHeader (c.advance 1)
  let c ← endHeader c
  let fixed := if increment == 0 then 0 else increment + parent.toNat
  let (breaks, widest, c) ← blockBreaks fixed (c.rest.length + 1) [] 0 c
  let indent := if fixed == 0 then max widest (max (parent + 1).toNat 1) else fixed
  blockLines isLiteral chomp indent (c.rest.length + 1) [] [] breaks false c

end WireSchema.Yaml
