import WireSchema.Yaml.Indicator

/-!
# Splitting a YAML stream into lexemes

Indentation opens and closes blocks. A scalar, an alias or a bracket may turn out to be the key of
a mapping only when the colon after it is seen; the place where it stands is remembered until then,
and the key's lexeme is put in there afterwards.
-/

namespace WireSchema.Yaml

/-- A place at which a key without `?` may have started. -/
structure KeyPlace where
  possible : Bool := false
  required : Bool := false
  number : Nat := 0
  line : Nat := 0
  column : Nat := 0
  index : Nat := 0
  deriving Repr

/-- A stream that is being split. Lexemes and indentations are last first, and `outerKeys` holds the
places of keys around the brackets that are open. -/
structure Lexer where
  cursor : Cursor
  lexemes : List Lexeme := []
  count : Nat := 0
  flow : Nat := 0
  indent : Int := -1
  indents : List Int := []
  keyAllowed : Bool := true
  key : KeyPlace := {}
  outerKeys : List KeyPlace := []
  ended : Bool := false
  /-- Does the stream begin with a byte order mark behind the one that tells its encoding? -/
  marked : Bool := false
  /-- Is what follows the characters of the stream unreadable? -/
  broken : Bool := false
  deriving Repr

namespace Lexer

/-- Brackets may be open this deep, and blocks too. -/
def maxNesting : Nat := 10000

/-- Adds a lexeme that starts on `line`. -/
def emit (l : Lexer) (word : Word) (line : Nat) : Lexer :=
  { l with lexemes := ⟨word, line⟩ :: l.lexemes, count := l.count + 1 }

/-- Puts a lexeme in before the one with a number. -/
def insertAt (l : Lexer) (number : Nat) (word : Word) (line : Nat) : Lexer :=
  let after := l.count - number
  { l with
    lexemes := l.lexemes.take after ++ ⟨word, line⟩ :: l.lexemes.drop after
    count := l.count + 1 }

/-! ## Indentation -/

/-- Opens a block at `column` if it stands deeper than the block around it. -/
def openBlock (l : Lexer) (column : Nat) (number : Option Nat) (word : Word) (line : Nat) :
    Option Lexer :=
  if 0 < l.flow || (column : Int) ≤ l.indent then some l
  else if maxNesting ≤ l.indents.length then none
  else
    let l := { l with indents := l.indent :: l.indents, indent := column }
    some (match number with
      | none => l.emit word line
      | some n => l.insertAt n word line)

/-- Closes the blocks that stand deeper than `column`. -/
def closeBlocks (column : Int) (line : Nat) : List Int → Lexer → Lexer
  | [], l => l
  | outer :: rest, l =>
    if l.indent ≤ column then l
    else closeBlocks column line rest { l.emit .blockEnd line with indent := outer, indents := rest }

/-- Closes the blocks that stand deeper than `column`, outside of brackets. -/
def unindent (l : Lexer) (column : Int) (line : Nat) : Lexer :=
  if 0 < l.flow then l else closeBlocks column line l.indents l

/-! ## Places of keys -/

/-- Forgets the place of a key; where a key must follow that is refused. -/
def dropKey (l : Lexer) : Option Lexer :=
  if l.key.possible && l.key.required then none
  else some { l with key := { l.key with possible := false } }

/-- Remembers that a key may start here. -/
def saveKey (l : Lexer) : Option Lexer :=
  if !l.keyAllowed then some l
  else
    (dropKey l).map fun l =>
      let c := l.cursor
      { l with
        key :=
          { possible := true, required := l.flow == 0 && l.indent == (c.column : Int)
            number := l.count, line := c.line, column := c.column, index := c.index } }

/-- Is the place of a key still good: on this line, and not too far back? One that is required and
is not good is refused. -/
def keyGood (l : Lexer) : Option Bool :=
  if !l.key.possible then some false
  else if l.key.line < l.cursor.line || l.key.index + 1024 < l.cursor.index then
    if l.key.required then none else some false
  else some true

/-! ## Blanks and comments -/

/-- How many blanks and line breaks stand before the next comment, if nothing else does; at most
`limit` characters are looked at. -/
def gapToComment : (limit : Nat) → Nat → List Char → Option Nat
  | 0, _, _ => none
  | limit + 1, n, c :: rest =>
    if c == '#' then some n
    else if isBlank c || c == '\n' || c == '\r' then gapToComment limit (n + 1) rest
    else none
  | _ + 1, _, [] => none

/-- Passes over `n` blanks and line breaks. -/
def passGap : (fuel n : Nat) → Cursor → Cursor
  | 0, _, c => c
  | fuel + 1, n, c =>
    if n == 0 then c
    else
      match c.rest with
      | '\r' :: '\n' :: _ => passGap fuel (n - 2) c.breakLine
      | ch :: _ => passGap fuel (n - 1) (if isBreak ch then c.breakLine else c.advance 1)
      | [] => c

/-- Passes over a comment and over those that follow it with nothing between. -/
def skipComments : (fuel : Nat) → Cursor → Cursor
  | 0, c => c
  | fuel + 1, c =>
    let c := c.toLineEnd
    match gapToComment 512 0 c.rest with
    | none => c
    | some n => skipComments fuel (passGap n n c)

/-- Passes over blanks, comments and line breaks. A tab is a blank only where no key may start; in a
block, a key may start after a line break. In a `marked` stream, lines lose their first character. -/
def toNextWord (marked : Bool) (flow : Nat) :
    (fuel : Nat) → (keyAllowed : Bool) → Cursor → Cursor × Bool
  | 0, keyAllowed, c => (c, keyAllowed)
  | fuel + 1, keyAllowed, c =>
    let c := if marked && c.column == 0 then c.advance 1 else c
    let c := c.skipWhile fun ch => ch == ' ' || (ch == '\t' && (0 < flow || !keyAllowed))
    let c := if c.rest.head? == some '#' then skipComments (c.rest.length + 1) c else c
    match c.rest with
    | [] => (c, keyAllowed)
    | ch :: _ =>
      if isBreak ch then toNextWord marked flow fuel (keyAllowed || flow == 0) c.breakLine
      else (c, keyAllowed)

/-- Passes over a comment that follows on the same line. -/
def skipLineComment (c : Cursor) : Cursor :=
  let after := c.skipBlanks
  if after.rest.head? == some '#' then after.toLineEnd else c

/-! ## Words -/

def indicator (l : Lexer) (n : Nat) (word : Word) : Lexer :=
  { l.emit word l.cursor.line with cursor := skipLineComment (l.cursor.advance n) }

/-- The end of the stream, which closes all blocks and stands on a line of its own. -/
def takeStreamEnd (l : Lexer) : Option Lexer := do
  let c := l.cursor
  let c := if c.column == 0 then c else { c with line := c.line + 1, column := 0 }
  let l := { l with cursor := c }.unindent (-1) c.line
  let l ← l.dropKey
  return { l.emit .streamEnd c.line with keyAllowed := false, ended := true }

def takeDirective (l : Lexer) : Option Lexer := do
  let line := l.cursor.line
  let l ← (l.unindent (-1) line).dropKey
  let (word, c) ← scanDirective l.cursor
  return { l.emit word line with cursor := c, keyAllowed := false }

/-- The marker that starts or ends a document. -/
def takeMarker (l : Lexer) (word : Word) : Option Lexer := do
  let l ← (l.unindent (-1) l.cursor.line).dropKey
  return { l.indicator 3 word with keyAllowed := false }

def takeOpen (l : Lexer) (word : Word) : Option Lexer := do
  let l ← l.saveKey
  if maxNesting ≤ l.flow then none
  else
    let l := { l with flow := l.flow + 1, outerKeys := l.key :: l.outerKeys, key := {} }
    some (({ l with keyAllowed := true }).indicator 1 word)

def takeClose (l : Lexer) (word : Word) : Option Lexer := do
  let l ← l.dropKey
  let l := match l.outerKeys with
    | k :: rest => { l with flow := l.flow - 1, key := k, outerKeys := rest }
    | [] => l
  some (({ l with keyAllowed := false }).indicator 1 word)

def takeComma (l : Lexer) : Option Lexer := do
  let l ← l.dropKey
  return ({ l with keyAllowed := true }).indicator 1 .flowEntry

/-- A dash before an entry of a block sequence. -/
def takeDash (l : Lexer) : Option Lexer := do
  if l.flow == 0 && !l.keyAllowed then none
  else
    let l ← l.openBlock l.cursor.column none .blockSequence l.cursor.line
    let l ← l.dropKey
    return { l.emit .blockEntry l.cursor.line with
      keyAllowed := true, cursor := l.cursor.advance 1 }

/-- A question mark before a key. -/
def takeKey (l : Lexer) : Option Lexer := do
  if l.flow == 0 && !l.keyAllowed then none
  else
    let l ← l.openBlock l.cursor.column none .blockMapping l.cursor.line
    let l ← l.dropKey
    return ({ l with keyAllowed := l.flow == 0 }).indicator 1 .key

/-- A colon before a value; the key before it is put in if it was written without `?`. -/
def takeColon (l : Lexer) : Option Lexer := do
  if ← l.keyGood then
    let k := l.key
    let l := l.insertAt k.number .key k.line
    let l ← l.openBlock k.column (some k.number) .blockMapping k.line
    return ({ l with key := { l.key with possible := false }, keyAllowed := false }).indicator 1
      .value
  else if l.flow == 0 && !l.keyAllowed then none
  else
    let l ← l.openBlock l.cursor.column none .blockMapping l.cursor.line
    return ({ l with keyAllowed := l.flow == 0 }).indicator 1 .value

/-- A word that may be a key: `scan` reads it. -/
def takeContent (l : Lexer) (scan : Cursor → Option (Word × Cursor)) : Option Lexer := do
  let line := l.cursor.line
  let l ← l.saveKey
  let (word, c) ← scan l.cursor
  return { l.emit word line with cursor := skipLineComment c, keyAllowed := false }

def takeBlock (l : Lexer) (isLiteral : Bool) : Option Lexer := do
  let line := l.cursor.line
  let l ← l.dropKey
  let (text, c) ← scanBlock isLiteral l.indent l.cursor
  return { l.emit (.scalar text (if isLiteral then .literal else .folded)) line with
    cursor := c, keyAllowed := true }

/-- A plain scalar. If it ends on a later line, a key may follow. -/
def takePlain (l : Lexer) : Option Lexer := do
  let line := l.cursor.line
  let l ← l.saveKey
  let s ← scanPlain (0 < l.flow) (l.indent + 1) l.cursor
  return { l.emit (.scalar s.text .plain) line with
    cursor := if s.crossed then s.cursor else skipLineComment s.cursor, keyAllowed := s.crossed }

def startsPlain (inFlow : Bool) : List Char → Bool
  | [] => false
  | c :: rest =>
    if c == '-' then !((rest.head?.map isBlank).getD false)
    else if c == '?' || c == ':' then !inFlow && !atGap rest
    else !(isBlank c || isBreak c || ",[]\x7b\x7d#&*!|>'\"%@\x60".toList.contains c)

def takeWord (l : Lexer) : Option Lexer :=
  let c := l.cursor
  match c.rest with
  | [] => l.takeStreamEnd
  | ch :: rest =>
    if ch == '%' && c.column == 0 then l.takeDirective
    else if c.atMarker then l.takeMarker (if ch == '-' then .documentStart else .documentEnd)
    else if ch == '[' then l.takeOpen .flowSequence
    else if ch == '\x7b' then l.takeOpen .flowMapping
    else if ch == ']' then l.takeClose .flowSequenceEnd
    else if ch == '\x7d' then l.takeClose .flowMappingEnd
    else if ch == ',' then l.takeComma
    else if ch == '-' && atGap rest then l.takeDash
    -- inside brackets a question mark or a colon needs no gap behind it
    else if ch == '?' && (0 < l.flow || atGap rest) then l.takeKey
    else if ch == ':' && (0 < l.flow || atGap rest) then l.takeColon
    else if ch == '*' then l.takeContent fun c => (scanName c).map fun (n, c) => (.alias n, c)
    else if ch == '&' then l.takeContent fun c => (scanName c).map fun (n, c) => (.anchor n, c)
    else if ch == '!' then l.takeContent fun c => (scanTag c).map fun (h, s, c) => (.tag h s, c)
    else if ch == '|' && l.flow == 0 then l.takeBlock true
    else if ch == '>' && l.flow == 0 then l.takeBlock false
    else if ch == '\'' then
      l.takeContent fun c => (scanQuoted true c).map fun (t, c) => (.scalar t .singleQuoted, c)
    else if ch == '"' then
      l.takeContent fun c => (scanQuoted false c).map fun (t, c) => (.scalar t .doubleQuoted, c)
    else if startsPlain (0 < l.flow) c.rest then l.takePlain
    else none

/-- Takes the next word. Four characters are looked at before it, and one behind it. -/
def step (l : Lexer) : Option Lexer := do
  let line := l.cursor.line
  let (c, keyAllowed) :=
    toNextWord l.marked l.flow (l.cursor.rest.length + 1) l.keyAllowed l.cursor
  let l := { l with cursor := c, keyAllowed }.unindent c.column line
  if l.broken && (c.rest.drop 3).isEmpty then none
  else
    let l ← l.takeWord
    if l.broken && l.cursor.rest.isEmpty then none else some l

/-- Takes words to the end of the stream, or to the first fault. -/
def run : (fuel : Nat) → Lexer → Lexer
  | 0, l => l
  | fuel + 1, l =>
    if l.ended then l
    else
      match l.step with
      | none => l
      | some l => run fuel l

end Lexer

/-- The lexemes of a stream that a reader gets to see. Two further lexemes must be there before one
is given out, so a fault hides the last two before it. -/
def lexemes (broken : Bool) (cs : List Char) : List Lexeme :=
  let marked := cs.head? == some '\ufeff'
  let l := Lexer.run (cs.length + 2) { cursor := { rest := cs }, marked, broken }
  if l.ended then l.lexemes.reverse else (l.lexemes.drop 2).reverse

end WireSchema.Yaml
