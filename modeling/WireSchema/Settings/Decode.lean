import WireSchema.Settings.Basic
import WireSchema.Yaml.Meaning

/-!
# Settings from YAML

Reading settings from the nodes of a YAML document. Fields that are not known are passed over and
null leaves a field as it is; merge keys bring in the fields of other mappings. Everything else that
does not fit is refused.
-/

namespace WireSchema.Yaml

/-! ## Scalars of a given type -/

def base64Digit? (b : UInt8) : Option Nat :=
  if 0x41 ≤ b && b ≤ 0x5A then some (b.toNat - 0x41)
  else if 0x61 ≤ b && b ≤ 0x7A then some (b.toNat - 0x61 + 26)
  else if Text.isDigit b then some (b.toNat - 0x30 + 52)
  else if b == 0x2B then some 62
  else if b == 0x2F then some 63
  else none

/-- The bytes of groups of four base64 digits; the last group may be filled up with `=`. -/
def base64Groups : Text → Option Text
  | [] => some []
  | [a, b, 0x3D, 0x3D] => do
    let n := (← base64Digit? a) * 64 + (← base64Digit? b)
    return [(n / 16).toUInt8]
  | [a, b, c, 0x3D] => do
    let n := ((← base64Digit? a) * 64 + (← base64Digit? b)) * 64 + (← base64Digit? c)
    return [(n / 1024).toUInt8, (n / 4).toUInt8]
  | a :: b :: c :: d :: rest => do
    let n := (((← base64Digit? a) * 64 + (← base64Digit? b)) * 64 + (← base64Digit? c)) * 64
      + (← base64Digit? d)
    return (n / 65536).toUInt8 :: (n / 256).toUInt8 :: n.toUInt8 :: (← base64Groups rest)
  | _ => none

/-- The bytes of a base64 text, whose line breaks do not count. -/
def base64? (t : Text) : Option Text := base64Groups (t.filter fun b => b != 0x0A && b != 0x0D)

/-- What a scalar means under its tag, and its text. A tag that promises something else than the
text spells is refused; a tag that nobody knows promises text. -/
def taggedMeaning? (tag : Text) (style : ScalarStyle) (value : Text) : Option (Meaning × Text) :=
  let tag := scalarTag tag style value
  if tag == "!!str" then some (.text, value)
  else if tag == "!!binary" then (base64? value).map (.text, ·)
  else
    let m := Meaning.ofText (tag == "!!timestamp") value
    let plain := tag == "!!null" || tag == "!!bool" || tag == "!!int" || tag == "!!timestamp"
    if tag == "!!float" then
      (floatOf? value).map fun x => (.float x, value)
    else if plain then
      if m.tag == tag then some (m, value) else none
    else some (.text, value)

def textOf? (tag : Text) (style : ScalarStyle) (value : Text) : Option (Option Text) :=
  (taggedMeaning? tag style value).map fun (m, t) => if m == .null then none else some t

def yesWords : List Text := ["y", "Y", "yes", "Yes", "YES", "on", "On", "ON"]

def noWords : List Text := ["n", "N", "no", "No", "NO", "off", "Off", "OFF"]

/-- The truth value that a scalar gives; null gives none. -/
def truthOf? (tag : Text) (style : ScalarStyle) (value : Text) : Option (Option Bool) :=
  match taggedMeaning? tag style value with
  | some (.null, _) => some none
  | some (.truth b, _) => some (some b)
  | some (.text, t) =>
    if yesWords.contains t then some (some true)
    else if noWords.contains t then some (some false)
    else none
  | _ => none

/-! ## Mappings -/

/-- The nodes of a document by number. -/
abbrev Nodes := Array Node

/-- The node that an alias stands for; any other node stands for itself. -/
def Nodes.resolve (nodes : Nodes) : Node → Node
  | n@(.alias _ _ target) => (nodes[target]?).getD n
  | n => n

/-- Are two keys the same as they are written? Containers are never told apart. -/
def sameKey : Node → Node → Bool
  | .scalar _ _ _ _ a, .scalar _ _ _ _ b => a == b
  | .alias _ _ a, .alias _ _ b => a == b
  | .sequence .., .sequence .. => true
  | .mapping .., .mapping .. => true
  | _, _ => false

/-- Does a key occur twice? -/
def hasTwins : List (Node × Node) → Bool
  | [] => false
  | (k, _) :: rest => rest.any (fun e => sameKey k e.1) || hasTwins rest

/-- Does the key bring in the fields of another mapping? -/
def isMergeKey : Node → Bool
  | .scalar _ _ tag style value => value == "<<" && scalarTag tag style value == "!!merge"
  | _ => false

/-- The name that a key gives; null gives none. -/
def Nodes.keyName? (nodes : Nodes) (k : Node) : Option (Option Text) :=
  match nodes.resolve k with
  | .scalar _ _ tag style value => textOf? tag style value
  | _ => none

/-- The fields of the entries in order. Under a merge, fields whose names were `seen` are passed over,
and those found are seen from then on. -/
def Nodes.ownFields (nodes : Nodes) : Option (List Text) → List (Node × Node) →
    Option (List (Text × Node) × Option (List Text))
  | seen, [] => some ([], seen)
  | seen, (k, v) :: rest =>
    if isMergeKey k then nodes.ownFields seen rest
    else
      match nodes.keyName? k with
      | none => none
      | some none => nodes.ownFields seen rest
      | some (some name) =>
        match seen with
        | none => (nodes.ownFields none rest).map fun (fs, s) => ((name, v) :: fs, s)
        | some names =>
          if names.contains name then nodes.ownFields seen rest
          else
            (nodes.ownFields (some (name :: names)) rest).map fun (fs, s) => ((name, v) :: fs, s)

/-- The mappings that a merge brings in: one, or a sequence of them. -/
def Nodes.mergeSources (nodes : Nodes) (v : Node) : Option (List Node) :=
  let isMapping (n : Node) : Bool := match nodes.resolve n with
    | .mapping .. => true
    | _ => false
  match v with
  | .sequence _ _ _ items => if items.all isMapping then some items else none
  | v => if isMapping v then some [v] else none

mutual

/-- The fields of a mapping: its own, then those it merges in. `active` holds the numbers of the
mappings around it, and the fuel bounds how many there may be. -/
def Nodes.fields (nodes : Nodes) (active : List Nat) (seen : Option (List Text)) (n : Node) :
    (fuel : Nat) → Option (List (Text × Node) × Option (List Text))
  | 0 => none
  | fuel + 1 =>
    match nodes.resolve n with
    | .mapping number _ _ entries =>
      if active.contains number || hasTwins entries then none
      else
        match nodes.ownFields seen entries with
        | none => none
        | some (own, seenOwn) =>
          match (entries.find? fun e => isMergeKey e.1) with
          | none => some (own, seenOwn)
          | some (_, v) =>
            -- what a mapping has itself hides what it merges in
            let names := seenOwn.getD (own.map (·.1))
            match nodes.mergeSources v with
            | none => none
            | some sources =>
              match nodes.mergedFields (number :: active) names sources fuel with
              | none => none
              | some (merged, names) => some (own ++ merged, seen.map fun _ => names)
    | _ => none

/-- The fields that several mappings bring in. -/
def Nodes.mergedFields (nodes : Nodes) (active : List Nat) (seen : List Text) (sources : List Node) :
    (fuel : Nat) → Option (List (Text × Node) × List Text)
  | 0 => none
  | fuel + 1 =>
    match sources with
    | [] => some ([], seen)
    | n :: rest =>
      match nodes.fields active (some seen) n fuel with
      | none => none
      | some (fs, names) =>
        let names := names.getD seen
        (nodes.mergedFields active names rest fuel).map fun (more, names) => (fs ++ more, names)

end

/-- The node of a field; a field that is there twice is refused. -/
def field? (fields : List (Text × Node)) (name : Text) : Option (Option Node) :=
  match fields.filter (·.1 == name) with
  | [] => some none
  | [(_, n)] => some (some n)
  | _ => none

end WireSchema.Yaml

namespace WireSchema.Settings

open Yaml (Node Nodes)

/-- The text of a field, which is empty if the field is not there or null. -/
def readText (nodes : Nodes) (fields : List (Text × Node)) (name : Text) : Option Text := do
  match ← Yaml.field? fields name with
  | none => return []
  | some n =>
    match nodes.resolve n with
    | .scalar _ _ tag style value => return (← Yaml.textOf? tag style value).getD []
    | _ => none

/-- The truth value of a field, which is false if the field is not there or null. -/
def readTruth (nodes : Nodes) (fields : List (Text × Node)) (name : Text) : Option Bool := do
  match ← Yaml.field? fields name with
  | none => return false
  | some n =>
    match nodes.resolve n with
    | .scalar _ _ tag style value => return (← Yaml.truthOf? tag style value).getD false
    | _ => none

/-- The fields of a node that should be a mapping; null has none at all. -/
def readFields (nodes : Nodes) (n : Node) : Option (Option (List (Text × Node))) :=
  match nodes.resolve n with
  | .scalar _ _ tag style value =>
    match Yaml.taggedMeaning? tag style value with
    | some (.null, _) => some none
    | _ => none
  | .mapping .. => (nodes.fields [] none n (nodes.size * nodes.size + 2)).map fun (fs, _) => some fs
  | _ => none

/-- A target; null is none. -/
def readTarget (nodes : Nodes) (n : Node) : Option (Option CompileTarget) := do
  match ← readFields nodes n with
  | none => return none
  | some fields =>
    return some
      { input := ← readText nodes fields "input", output := ← readText nodes fields "output"
        className := ← readText nodes fields "class", access := ← readText nodes fields "access"
        makeTypes := ← readTruth nodes fields "make" }

/-- The targets of a list; those that are null do not count. -/
def readTargets (nodes : Nodes) : List Node → Option (List CompileTarget)
  | [] => some []
  | n :: rest => do
    let t ← readTarget nodes n
    let more ← readTargets nodes rest
    return t.toList ++ more

def ofNode (nodes : Nodes) (root : Node) : Option Settings := do
  match ← readFields nodes root with
  | none => return {}
  | some fields =>
    let logging ← match ← Yaml.field? fields "logging" with
      | none => pure none
      | some n => readFields nodes n
    let level ← readText nodes (logging.getD []) "level"
    let format ← readText nodes (logging.getD []) "format"
    let targets ← match ← Yaml.field? fields "targets" with
      | none => pure []
      | some n =>
        match nodes.resolve n with
        | .sequence _ _ _ items => readTargets nodes items
        | n =>
          match ← readFields nodes n with
          | none => pure []
          | some _ => none
    return { level, format, targets }

/-- The settings that a YAML text holds; one without a document holds none. -/
def ofYaml (t : Text) : Option Settings := do
  match ← Yaml.parse t false with
  | none => return {}
  | some root => ofNode root.all root

end WireSchema.Settings
