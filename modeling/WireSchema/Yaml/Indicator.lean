import WireSchema.Yaml.ScalarText

/-!
# Anchors, tags and directives

Scanning the words that stand beside the content of a YAML stream: names of anchors, tags, and the
directives at the head of a document.
-/

namespace WireSchema.Yaml

def scanName (c : Cursor) : Option (List Char × Cursor) :=
  let c := c.advance 1
  let name := c.rest.takeWhile isNameChar
  let c := c.advance name.length
  let ends := match c.rest with
    | [] => true
    | ch :: _ =>
      isBlank ch || isBreak ch || "?:,]\x7d%@\x60".toList.contains ch
  if name.isEmpty || !ends then none else some (name, c)

/-! ## Tags -/

/-- May the character stand in a tag as it is? -/
def isTagChar (c : Char) : Bool := isNameChar c || ";/?:@&=+$.!~*'()[]".toList.contains c

/-- The bytes of escapes `%xx` at the start of `cs`, at most `n` of them. -/
def escapedBytes : Nat → List Char → Option (List UInt8)
  | 0, _ => some []
  | n + 1, '%' :: a :: b :: rest => do
    let byte := (← hexChar? a) * 16 + (← hexChar? b)
    return byte.toUInt8 :: (← escapedBytes n rest)
  | _ + 1, _ => none

/-- How many bytes the character takes whose first byte is `b`. -/
def leadWidth? (b : UInt8) : Option Nat :=
  if b < 0x80 then some 1
  else if b &&& 0xE0 == 0xC0 then some 2
  else if b &&& 0xF0 == 0xE0 then some 3
  else if b &&& 0xF8 == 0xF0 then some 4
  else none

/-- The character written as escaped bytes at the start of `cs`, and the number of bytes. -/
def escapedChar (cs : List Char) : Option (Char × Nat) := do
  let lead ← (← escapedBytes 1 cs).head?
  let width ← leadWidth? lead
  let bytes ← escapedBytes width cs
  let [c] ← Text.chars? bytes | none
  return (c, width)

/-- Reads the text of a tag; `seen` holds what was read, last first. -/
def scanTagText : (fuel : Nat) → List Char → Cursor → Option (List Char × Cursor)
  | 0, seen, c => some (seen.reverse, c)
  | fuel + 1, seen, c =>
    match c.rest with
    | '%' :: _ =>
      match escapedChar c.rest with
      | none => none
      | some (ch, width) => scanTagText fuel (ch :: seen) (c.advance (3 * width))
    | ch :: _ =>
      if isTagChar ch then scanTagText fuel (ch :: seen) (c.advance 1)
      else some (seen.reverse, c)
    | [] => some (seen.reverse, c)

def Cursor.tagText (head : List Char) (c : Cursor) : Option (List Char × Cursor) :=
  scanTagText (c.rest.length + 1) head.reverse c

/-- Reads a handle: `!`, `!!` or `!name!`. What starts like one and has no closing mark is given as
it is. -/
def scanHandle (c : Cursor) : List Char × Cursor :=
  let name := (c.rest.drop 1).takeWhile isNameChar
  let c := c.advance (1 + name.length)
  if c.rest.head? == some '!' then ('!' :: name ++ ['!'], c.advance 1) else ('!' :: name, c)

/-- Reads a tag: `!<text>`, `!handle!suffix` or `!suffix`. -/
def scanTag (c : Cursor) : Option (List Char × List Char × Cursor) := do
  let (handle, suffix, c) ←
    if c.rest[1]? == some '<' then do
      let (text, c) ← (c.advance 2).tagText []
      if text.isEmpty || c.rest.head? != some '>' then none
      else some ([], text, c.advance 1)
    else do
      let (handle, after) := scanHandle c
      if 1 < handle.length && handle.getLast? == some '!' then
        let (suffix, c) ← after.tagText []
        if suffix.isEmpty then none else some (handle, suffix, c)
      else
        let (suffix, c) ← after.tagText (handle.drop 1)
        if suffix.isEmpty then some ([], ['!'], c) else some (['!'], suffix, c)
  if atGap c.rest then some (handle, suffix, c) else none

/-! ## Directives -/

def scanVersionNumber (c : Cursor) : Option (Nat × Cursor) :=
  let digits := c.rest.takeWhile Char.isDigit
  if digits.isEmpty || 9 < digits.length then none
  else some (digits.foldl (fun n d => n * 10 + (d.toNat - '0'.toNat)) 0, c.advance digits.length)

/-- Reads what a `%YAML` directive says. -/
def scanVersion (c : Cursor) : Option (Word × Cursor) := do
  let (major, c) ← scanVersionNumber c.skipBlanks
  if c.rest.head? != some '.' then none
  else
    let (minor, c) ← scanVersionNumber (c.advance 1)
    some (.version major minor, c)

def Cursor.atBlank (c : Cursor) : Bool := (c.rest.head?.map isBlank).getD false

/-- Reads what a `%TAG` directive says: a handle and what it stands for. -/
def scanTagHandle (c : Cursor) : Option (Word × Cursor) := do
  let c := c.skipBlanks
  if c.rest.head? != some '!' then none
  else
    let (handle, c) := scanHandle c
    if handle.getLast? != some '!' || !c.atBlank then none
    else
      let (expansion, c) ← c.skipBlanks.tagText []
      if expansion.isEmpty || !atGap c.rest then none
      else some (.tagHandle handle expansion, c)

/-- Reads a directive and the rest of its line. -/
def scanDirective (c : Cursor) : Option (Word × Cursor) := do
  let c := c.advance 1
  let name := c.rest.takeWhile isNameChar
  let c := c.advance name.length
  if name.isEmpty || !atGap c.rest then none
  else
    let (word, c) ←
      if name == "YAML".toList then scanVersion c
      else if name == "TAG".toList then scanTagHandle c
      else none
    let c ← endHeader c
    some (word, c)

end WireSchema.Yaml
