import WireSchema.Yaml.Lexer

/-!
# Nodes of a YAML document

The tree of a document. Each node has a number, counted from the root in the order in which nodes
begin; an alias gives the number of the node that it stands for.
-/

namespace WireSchema.Yaml

/-- A node of a document. `line` counts from one, and `tag` is the tag that was written, shortened,
or nothing. -/
inductive Node where
  | scalar (number line : Nat) (tag : Text) (style : ScalarStyle) (value : Text)
  | sequence (number line : Nat) (tag : Text) (items : List Node)
  | mapping (number line : Nat) (tag : Text) (entries : List (Node × Node))
  | alias (number line : Nat) (target : Nat)
  deriving Repr

namespace Node

mutual

/-- Nodes are compared part by part, once they are of one sort. -/
def decEq (a b : Node) : Decidable (a = b) :=
  if h : a.ctorIdx = b.ctorIdx then
    match a, b, h with
    | .scalar n l t s v, .scalar n' l' t' s' v', _ =>
      decidable_of_iff (n = n' ∧ l = l' ∧ t = t' ∧ s = s' ∧ v = v') (by simp)
    | .sequence n l t items, .sequence n' l' t' items', _ =>
      have := decEqItems items items'
      decidable_of_iff (n = n' ∧ l = l' ∧ t = t' ∧ items = items') (by simp)
    | .mapping n l t entries, .mapping n' l' t' entries', _ =>
      have := decEqEntries entries entries'
      decidable_of_iff (n = n' ∧ l = l' ∧ t = t' ∧ entries = entries') (by simp)
    | .alias n l t, .alias n' l' t', _ => decidable_of_iff (n = n' ∧ l = l' ∧ t = t') (by simp)
  else isFalse fun hab => h (congrArg Node.ctorIdx hab)
termination_by structural a

def decEqItems : (as bs : List Node) → Decidable (as = bs)
  | [], [] => isTrue rfl
  | a :: as, b :: bs =>
    have := decEq a b
    have := decEqItems as bs
    decidable_of_iff (a = b ∧ as = bs) (by simp)
  | [], _ :: _ | _ :: _, [] => isFalse (by simp)
termination_by structural as => as

def decEqEntries : (as bs : List (Node × Node)) → Decidable (as = bs)
  | [], [] => isTrue rfl
  | (k, a) :: as, (l, b) :: bs =>
    have := decEq k l
    have := decEq a b
    have := decEqEntries as bs
    decidable_of_iff (k = l ∧ a = b ∧ as = bs) (by simp [and_assoc])
  | [], _ :: _ | _ :: _, [] => isFalse (by simp)
termination_by structural as => as

end

instance : DecidableEq Node := decEq

def number : Node → Nat
  | .scalar n .. | .sequence n .. | .mapping n .. | .alias n .. => n

def line : Node → Nat
  | .scalar _ l .. | .sequence _ l .. | .mapping _ l .. | .alias _ l .. => l

/-- Adds a node and those below it to `seen`, which is last first. -/
def collect (seen : List Node) : Node → List Node
  | n@(.sequence _ _ _ items) => collectItems (n :: seen) items
  | n@(.mapping _ _ _ entries) => collectEntries (n :: seen) entries
  | n => n :: seen
where
  /-- Adds the items of a sequence. -/
  collectItems (seen : List Node) : List Node → List Node
    | [] => seen
    | n :: rest => collectItems (collect seen n) rest
  /-- Adds the keys and values of a mapping. -/
  collectEntries (seen : List Node) : List (Node × Node) → List Node
    | [] => seen
    | (k, v) :: rest => collectEntries (collect (collect seen k) v) rest

/-- All nodes of a tree, each at the place that is its number. -/
def all (n : Node) : Array Node := (collect [] n).reverse.toArray

end Node

/-! ## Reading lexemes -/

/-- What is left to read, the number of the next node, the anchors seen so far, and what the handles
of tags stand for. -/
structure Reading where
  rest : List Lexeme
  count : Nat := 0
  anchors : List (List Char × Nat) := []
  handles : List (List Char × List Char) := []

abbrev Read := StateT Reading Option

namespace Read

def peek : Read Lexeme := fun s => s.rest.head?.map (·, s)

/-- Passes over a lexeme. -/
def skip : Read Unit := fun s => some ((), { s with rest := s.rest.drop 1 })

/-- A new number for a node, known from now on under the anchor. -/
def fresh (anchor : Option (List Char)) : Read Nat := fun s =>
  let anchors := match anchor with
    | some name => (name, s.count) :: s.anchors
    | none => s.anchors
  some (s.count, { s with count := s.count + 1, anchors })

def target (name : List Char) : Read Nat := fun s => (s.anchors.lookup name).map (·, s)

/-- What the handle of a tag stands for. -/
def expansion (handle : List Char) : Read (List Char) := fun s =>
  (s.handles.lookup handle).map (·, s)

end Read

/-- The long form of the tags that `!!` shortens. -/
def coreTag : List Char := "tag:yaml.org,2002:".toList

def shortTag (tag : List Char) : Text :=
  if coreTag.isPrefixOf tag then "!!" ++ Text.ofChars (tag.drop coreTag.length)
  else Text.ofChars tag

/-- What may stand before a node: its anchor, its tag and where they begin. -/
structure Properties where
  anchor : Option (List Char) := none
  tag : Text := []
  line : Option Nat := none

namespace Properties

def readAnchor (p : Properties) : Read Properties := do
  let t ← Read.peek
  match t.word with
  | .anchor name =>
    Read.skip
    return { p with anchor := some name, line := some (p.line.getD t.line) }
  | _ => return p

def readTag (p : Properties) : Read Properties := do
  let t ← Read.peek
  match t.word with
  | .tag handle suffix =>
    Read.skip
    let tag ← if handle.isEmpty then pure suffix else expanded handle suffix
    return { p with tag := if tag == ['!'] then [] else shortTag tag, line := some (p.line.getD t.line) }
  | _ => return p
where
  /-- The tag that a handle and a suffix give. -/
  expanded (handle suffix : List Char) : Read (List Char) := do
    return (← Read.expansion handle) ++ suffix

/-- Reads an anchor and a tag, in either order. -/
def read : Read Properties := do
  let p ← readAnchor {}
  let p ← readTag p
  if p.anchor.isSome then return p else readAnchor p

end Properties

def emptyScalar (line : Nat) : Read Node := do
  return .scalar (← Read.fresh none) (line + 1) [] .plain []

/-- Do the words end an entry of a block mapping? -/
def endsBlockPart : Word → Bool
  | .key | .value | .blockEnd => true
  | _ => false

/-- Does the word end an entry of brackets that `close` closes? -/
def endsFlowPart (close : Word) (w : Word) : Bool := w == .flowEntry || w == close

mutual

/-- Reads a node. Block collections are read only in a `block`, and a sequence that is not indented
only where `indentless`. -/
def readNode (block indentless : Bool) : (fuel : Nat) → Read Node
  | 0 => failure
  | fuel + 1 => do
    let t ← Read.peek
    match t.word with
    | .alias name =>
      Read.skip
      return .alias (← Read.fresh none) (t.line + 1) (← Read.target name)
    | _ =>
      let p ← Properties.read
      let t ← Read.peek
      let line := p.line.getD t.line + 1
      match t.word with
      | .scalar value style =>
        Read.skip
        return .scalar (← Read.fresh p.anchor) line p.tag style (Text.ofChars value)
      | .flowSequence =>
        Read.skip
        return .sequence (← Read.fresh p.anchor) line p.tag (← readFlowItems true [] fuel)
      | .flowMapping =>
        Read.skip
        return .mapping (← Read.fresh p.anchor) line p.tag (← readFlowEntries true [] fuel)
      | .blockEntry =>
        if indentless then
          return .sequence (← Read.fresh p.anchor) line p.tag (← readPlainItems [] fuel)
        else bare p line
      | .blockSequence =>
        if block then
          Read.skip
          return .sequence (← Read.fresh p.anchor) line p.tag (← readBlockItems [] fuel)
        else bare p line
      | .blockMapping =>
        if block then
          Read.skip
          return .mapping (← Read.fresh p.anchor) line p.tag (← readBlockEntries [] fuel)
        else bare p line
      | _ => bare p line

/-- A node of which only the properties are written. -/
def bare (p : Properties) (line : Nat) : Read Node := do
  if p.line.isNone then failure
  else return .scalar (← Read.fresh p.anchor) line p.tag .plain []

def readBlockItems (seen : List Node) : (fuel : Nat) → Read (List Node)
  | 0 => failure
  | fuel + 1 => do
    let t ← Read.peek
    Read.skip
    match t.word with
    | .blockEntry =>
      let w := (← Read.peek).word
      let n ← if w == .blockEntry || w == .blockEnd then emptyScalar t.line
        else readNode true false fuel
      readBlockItems (n :: seen) fuel
    | .blockEnd => return seen.reverse
    | _ => failure

/-- Reads the items of a sequence that stands no deeper than the mapping around it. -/
def readPlainItems (seen : List Node) : (fuel : Nat) → Read (List Node)
  | 0 => failure
  | fuel + 1 => do
    let t ← Read.peek
    match t.word with
    | .blockEntry =>
      Read.skip
      let w := (← Read.peek).word
      let n ← if w == .blockEntry || endsBlockPart w then emptyScalar t.line
        else readNode true false fuel
      readPlainItems (n :: seen) fuel
    | _ => return seen.reverse

def readBlockEntries (seen : List (Node × Node)) : (fuel : Nat) → Read (List (Node × Node))
  | 0 => failure
  | fuel + 1 => do
    let t ← Read.peek
    Read.skip
    match t.word with
    | .key =>
      let k ← if endsBlockPart (← Read.peek).word then emptyScalar t.line
        else readNode true true fuel
      let v ← readBlockValue fuel
      readBlockEntries ((k, v) :: seen) fuel
    | .blockEnd => return seen.reverse
    | _ => failure

def readBlockValue : (fuel : Nat) → Read Node
  | 0 => failure
  | fuel + 1 => do
    let t ← Read.peek
    match t.word with
    | .value =>
      Read.skip
      if endsBlockPart (← Read.peek).word then emptyScalar t.line else readNode true true fuel
    | _ => emptyScalar t.line

/-- Reads the items of a bracketed sequence. An item may be a mapping of one entry without brackets
of its own. -/
def readFlowItems (first : Bool) (seen : List Node) : (fuel : Nat) → Read (List Node)
  | 0 => failure
  | fuel + 1 => do
    separator first .flowSequenceEnd
    let t ← Read.peek
    match t.word with
    | .flowSequenceEnd =>
      Read.skip
      return seen.reverse
    | .key =>
      Read.skip
      let number ← Read.fresh none
      let next ← Read.peek
      let k ← if next.word == .value || endsFlowPart .flowSequenceEnd next.word then do
          Read.skip
          emptyScalar next.line
        else readNode false false fuel
      let v ← readFlowValue .flowSequenceEnd fuel
      readFlowItems false (.mapping number (t.line + 1) [] [(k, v)] :: seen) fuel
    | _ =>
      let n ← readNode false false fuel
      readFlowItems false (n :: seen) fuel

def readFlowEntries (first : Bool) (seen : List (Node × Node)) :
    (fuel : Nat) → Read (List (Node × Node))
  | 0 => failure
  | fuel + 1 => do
    separator first .flowMappingEnd
    let t ← Read.peek
    match t.word with
    | .flowMappingEnd =>
      Read.skip
      return seen.reverse
    | .key =>
      Read.skip
      let next ← Read.peek
      let k ← if next.word == .value || endsFlowPart .flowMappingEnd next.word then
          emptyScalar next.line
        else readNode false false fuel
      let v ← readFlowValue .flowMappingEnd fuel
      readFlowEntries false ((k, v) :: seen) fuel
    | _ =>
      let k ← readNode false false fuel
      let v ← emptyScalar (← Read.peek).line
      readFlowEntries false ((k, v) :: seen) fuel

/-- Reads the value of an entry between brackets that `close` closes. An empty value stands where the
next word does, but in a sequence at its colon. -/
def readFlowValue (close : Word) : (fuel : Nat) → Read Node
  | 0 => failure
  | fuel + 1 => do
    let t ← Read.peek
    match t.word with
    | .value =>
      Read.skip
      let next ← Read.peek
      if endsFlowPart close next.word then
        emptyScalar (if close == .flowSequenceEnd then t.line else next.line)
      else readNode false false fuel
    | _ => emptyScalar t.line

/-- Passes over the comma between two entries, of which none stands before the first and none need
stand before the closing bracket. -/
def separator (first : Bool) (close : Word) : Read Unit := do
  let w := (← Read.peek).word
  if first || w == close then return ()
  else if w == .flowEntry then Read.skip
  else failure

end

/-! ## Documents -/

/-- The handles that every document knows. -/
def defaultHandles : List (List Char × List Char) := [(['!'], ['!']), (['!', '!'], coreTag)]

/-- Reads the directives before a document: at most one version, which is 1.1, and handles, each at
most once. -/
def readDirectives : (fuel : Nat) → (version : Bool) → List (List Char × List Char) →
    Read (List (List Char × List Char))
  | 0, _, _ => failure
  | fuel + 1, version, handles => do
    match (← Read.peek).word with
    | .version major minor =>
      if version || major != 1 || minor != 1 then failure
      else
        Read.skip
        readDirectives fuel true handles
    | .tagHandle handle text =>
      if (handles.lookup handle).isSome then failure
      else
        Read.skip
        readDirectives fuel version ((handle, text) :: handles)
    | _ => return handles

/-- Reads the first document, or nothing if the stream has none. What follows the document is looked
at but not read. -/
def readDocument (fuel : Nat) : Read (Option Node) := do
  match (← Read.peek).word with
  | .streamEnd => return none
  | .version .. | .tagHandle .. | .documentStart =>
    let handles ← readDirectives fuel false []
    if (← Read.peek).word != .documentStart then failure
    else
      Read.skip
      modify fun s => { s with handles := handles ++ s.handles }
      let t ← Read.peek
      let n ← match t.word with
        | .version .. | .tagHandle .. | .documentStart | .documentEnd | .streamEnd =>
          emptyScalar t.line
        | _ => readNode true false fuel
      let _ ← Read.peek
      return some n
  | _ =>
    let n ← readNode true false fuel
    -- a stream that is malformed right behind the document has none
    let _ ← Read.peek
    return some n

/-- The first document of a stream: `none` if the stream is malformed, `some none` if it has no
document. A stream may be `broken`, so that nothing is known of what follows. -/
def parse (stream : Text) (broken : Bool) : Option (Option Node) := do
  let ls := lexemes broken (← decode stream)
  let (n, _) ← readDocument (2 * ls.length + 2) { rest := ls, handles := defaultHandles }
  return n

end WireSchema.Yaml
