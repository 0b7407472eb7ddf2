import WireSchema.Token.Source
import WireSchema.Yaml.Meaning

/-!
# The tokens of a YAML document

Mappings are objects, sequences are arrays, and an alias is replaced by what it stands for. The
tokens of a document may be sixteen times as many as its nodes, and always 65536.
-/

namespace WireSchema.Yaml

/-- A walk over a document: its nodes by number, how many tokens it may have, those written so far,
last first, and their count. -/
structure Walk where
  nodes : Array Node
  budget : Nat
  tokens : List Located := []
  count : Nat := 0

namespace Walk

def emit (w : Walk) (line : Nat) (t : Token) : Walk :=
  { w with tokens := ⟨t, line⟩ :: w.tokens, count := w.count + 1 }

/-- The node that an alias stands for; any other node stands for itself. -/
def resolve (w : Walk) : Node → Node
  | n@(.alias _ _ target) => (w.nodes[target]?).getD n
  | n => n

mutual

/-- Writes the tokens of a node. `active` holds the numbers of the nodes around it, and the fuel
bounds how many there may be. -/
def node (fuel : Nat) (active : List Nat) (n : Node) (w : Walk) : Option Failure × Walk :=
  if active.contains n.number then (some (.aliasCycle n.line), w)
  else if w.budget < w.count then (some (.aliasExpansion w.budget n.line), w)
  else
    match fuel with
    -- there are no more nodes in the document than this
    | 0 => (some (.aliasCycle n.line), w)
    | fuel + 1 =>
      let active := n.number :: active
      match n with
      | .scalar _ line tag style value =>
        match scalarToken tag style value with
        | .ok t => (none, w.emit line t)
        | .error f => (some f, w)
      | .sequence _ line _ list =>
        match items fuel active list (w.emit line .beginArray) with
        | (none, w) => (none, w.emit line .endArray)
        | stopped => stopped
      | .mapping _ line _ list =>
        match entries fuel active list (w.emit line .beginObject) with
        | (none, w) => (none, w.emit line .endObject)
        | stopped => stopped
      | .alias .. => node fuel active (w.resolve n) w
termination_by (fuel, 0)

def items (fuel : Nat) (active : List Nat) : List Node → Walk → Option Failure × Walk
  | [], w => (none, w)
  | n :: rest, w =>
    match node fuel active n w with
    | (none, w) => items fuel active rest w
    | stopped => stopped
termination_by ns _ => (fuel, ns.length + 1)

/-- Writes the tokens of the entries of a mapping. A key must be a scalar, perhaps behind an
alias. -/
def entries (fuel : Nat) (active : List Nat) :
    List (Node × Node) → Walk → Option Failure × Walk
  | [], w => (none, w)
  | (k, v) :: rest, w =>
    match w.resolve k with
    | .scalar _ line _ _ name =>
      match node fuel active v (w.emit line (.key name)) with
      | (none, w) => entries fuel active rest w
      | stopped => stopped
    | k => (some (.compoundKey k.line), w)
termination_by es _ => (fuel, es.length + 1)

end

end Walk

def Node.source (root : Node) : Source :=
  let nodes := root.all
  let w : Walk := { nodes, budget := max 65536 (16 * nodes.size) }
  let (stopped, w) := w.node (nodes.size + 1) [] root
  .document w.tokens.reverse (-1) (stopped.getD (.exhausted .clean))

/-- The source of the first document of a stream. A stream without one ends at once; one that is
malformed, or is broken before the document ends, has no tokens. -/
def source (stream : Text) (broken : Bool) : Source :=
  match parse stream broken with
  | none => .document [] (-1) (.malformedYaml "yaml: malformed document")
  | some none => .document [] (-1) (.exhausted .clean)
  | some (some root) => root.source

end WireSchema.Yaml
