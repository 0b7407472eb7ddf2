import WireSchema.Yaml.Meaning

/-!
# How a scalar can be written

Which styles can carry a text, and which one is chosen.
-/

namespace WireSchema.Yaml

/-- May the character be written as it is? -/
def isShown (c : Char) : Bool :=
  let n := c.toNat
  n == 0x0A || (0x20 ≤ n && n ≤ 0x7E) || (0xA0 ≤ n && n ≤ 0xD7FF)
    || (0xE000 ≤ n && n ≤ 0xFFFD && n != 0xFEFF)

/-- What a text has that some style cannot carry. -/
structure Traits where
  /-- Something that means more than itself in a plain scalar. -/
  indicator : Bool := false
  lineBreak : Bool := false
  /-- A character that can only be escaped. -/
  special : Bool := false
  tab : Bool := false
  /-- A blank or a line break at either end. -/
  edge : Bool := false
  trailingSpace : Bool := false
  /-- A space right after a line break. -/
  breakSpace : Bool := false
  /-- A line break right after a space. -/
  spaceBreak : Bool := false
  deriving DecidableEq, Repr

namespace Traits

/-- Does the character end a word: a blank, or the end of the text? -/
def endsWord : List Char → Bool
  | [] => true
  | c :: _ => isBlank c

/-- Does a text that starts so mean more than itself? -/
def indicatesFirst (c : Char) (rest : List Char) : Bool :=
  if c == '?' || c == ':' || c == '-' then endsWord rest
  else "#,[]\x7b\x7d&*!|>'\"%@\x60".toList.contains c

/-- Does a character inside a text mean more than itself? -/
def indicatesInside (afterBlank : Bool) (c : Char) (rest : List Char) : Bool :=
  (c == ':' && endsWord rest) || (c == '#' && afterBlank)

/-- Takes in the characters of a text one by one; `last` is the one before. -/
def scan (t : Traits) (last : Option Char) : List Char → Traits
  | [] => t
  | c :: rest =>
    let indicator := match last with
      | none => indicatesFirst c rest
      | some p => indicatesInside (isBlank p || isBreak p) c rest
    let atEdge := last.isNone || rest.isEmpty
    let t := { t with
      indicator := t.indicator || indicator
      lineBreak := t.lineBreak || isBreak c
      special := t.special || (c != '\t' && !isShown c)
      tab := t.tab || c == '\t'
      edge := t.edge || (atEdge && (c == ' ' || isBreak c))
      trailingSpace := t.trailingSpace || (rest.isEmpty && c == ' ')
      breakSpace := t.breakSpace || (c == ' ' && (last.map isBreak).getD false)
      spaceBreak := t.spaceBreak || (isBreak c && last == some ' ') }
    scan t (some c) rest

/-- What a text has. A text that starts like a document marker means more than itself. -/
def ofChars (cs : List Char) : Traits :=
  scan { indicator := "---".toList.isPrefixOf cs || "...".toList.isPrefixOf cs } none cs

/-- Can a plain scalar carry the text? -/
def plainAllowed (t : Traits) : Bool :=
  !(t.edge || t.breakSpace || t.spaceBreak || t.tab || t.special || t.lineBreak || t.indicator)

/-- Can single quotes carry the text? -/
def singleAllowed (t : Traits) : Bool := !(t.breakSpace || t.spaceBreak || t.tab || t.special)

/-- Can a block scalar carry the text? -/
def blockAllowed (t : Traits) : Bool := !(t.trailingSpace || t.spaceBreak || t.special)

end Traits

/-- The style for a text. One with several lines is a block if it can be; one that would mean
something else is quoted. `mustQuote` asks for quotes that a reader cannot take for anything but
text. -/
def chooseStyle (mustQuote : Bool) (cs : List Char) : ScalarStyle :=
  let t := Traits.ofChars cs
  if cs.contains '\n' then
    if !cs.isEmpty && t.blockAllowed then .literal else .doubleQuoted
  else if mustQuote then .doubleQuoted
  else if t.plainAllowed then .plain
  else if t.singleAllowed then .singleQuoted
  else .doubleQuoted

end WireSchema.Yaml
