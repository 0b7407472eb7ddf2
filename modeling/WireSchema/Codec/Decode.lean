import WireSchema.Codec.Value
import WireSchema.Model.Basic
import WireSchema.Number.BinaryText
import WireSchema.Number.Integer
import WireSchema.Source.Identifier
import WireSchema.Token.Reader

/-!
# Decoding

Reading the objects of a model from tokens. Keys that an object does not know are skipped, or go to
its dictionary; null leaves a field absent. Decoding stores each field as soon as it is read, so
what was read before a failure stays.
-/

namespace WireSchema.Codec

/-- An object that is being decoded: its fields by key, and its dictionary. -/
structure Target where
  fields : List (Text × Option Value)
  extra : Dict (Option Value) := {}
  deriving DecidableEq, Repr

namespace Target

/-- An object of which nothing is known. -/
def empty (o : Object) : Target := { fields := o.fields.map fun f => (f.key, none) }

def value (t : Target) : Value := .object t.fields t.extra.entries

def get? (t : Target) (key : Text) : Option Value := (t.fields.lookup key).join

/-- The object with another value of a field. -/
def set (t : Target) (key : Text) (v : Option Value) : Target :=
  { t with fields := t.fields.map fun f => if f.1 == key then (key, v) else f }

/-- The object with an entry of its dictionary. -/
def insert (t : Target) (key : Text) (v : Value) : Target :=
  { t with extra := t.extra.set key (some v) }

end Target

/-- What reading a value gave: the value, a token of the wrong kind, or a failure. -/
inductive Got where
  | value (v : Value)
  | refused
  | failed (f : Failure)
  deriving Repr

/-- What decoding into a target gave. There may be no target, in which case storing fails. -/
structure Outcome where
  failure : Option Failure
  target : Option Target
  reader : Reader
  deriving DecidableEq

/-- A number read from its literal; a failure names the field. -/
def numeral (label : Text) (wrap : α → Value) : Except Failure α → Got
  | .ok x => .value (wrap x)
  | .error f => .failed (.inField label f)

def readDecimal (t : Text) : Except Failure Decimal := (Decimal.parse t).mapError .plain

def readScalar (label : Text) : Scalar → Token → Got
  | .bool, .bool b => .value (.bool b)
  | .string, .string t => .value (.text t)
  | .int32, .number t => numeral label .integer (Integer.parse 32 t)
  | .int64, .number t => numeral label .integer (Integer.parse 64 t)
  | .decimal, .number t => numeral label .decimal (readDecimal t)
  | .float, .number t => numeral label (.float .single) (Binary.parse .single t)
  | .double, .number t => numeral label (.float .double) (Binary.parse .double t)
  | _, _ => .refused

/-- Stores into the target, if there is one. -/
def store (target : Option Target) (r : Reader) (f : Target → Target) : Outcome :=
  match target with
  | some t => ⟨none, some (f t), r⟩
  | none => ⟨some .absentValue, none, r⟩

/-- The target after an array could not be read to its end: the array keeps its length, and the
elements that were read replace its first ones. -/
def overwrite (t : Target) (key : Text) (items : List (Option Value)) : Target :=
  match t.get? key with
  | some (.array old) =>
    t.set key (some (.array (items.take old.length ++ old.drop items.length)))
  | _ => t

mutual

/-- Reads the members of an object whose opening token was taken. -/
def decodeMembers (m : Model) (o : Object) : (fuel : Nat) → Option Target → Reader → Outcome
  | 0, target, r => ⟨some (.endOfStream none), target, r⟩
  | fuel + 1, target, r =>
    match r.next with
    | (.error f, r) => ⟨some f, target, r⟩
    | (.ok .endObject, r) => ⟨none, target, r⟩
    | (.ok (.key name), r) =>
      match decodeMember m o name fuel target r with
      | ⟨none, target, r⟩ => decodeMembers m o fuel target r
      | stopped => stopped
    | (.ok _, r) =>
      match r.skip with
      | (some f, r) => ⟨some f, target, r⟩
      | (none, r) => decodeMembers m o fuel target r

def decodeMember (m : Model) (o : Object) (name : Text) :
    (fuel : Nat) → Option Target → Reader → Outcome
  | 0, target, r => ⟨some (.endOfStream none), target, r⟩
  | fuel + 1, target, r =>
    match o.fields.find? (·.key == name) with
    | some f =>
      let label := Names.exported f.name
      match r.next with
      | (.error e, r) => ⟨some e, target, r⟩
      | (.ok .null, r) => store target r (·.set f.key none)
      | (.ok t, r) =>
        match f.type with
        | .single type =>
          match decodeValue m label type t fuel r with
          | (.value v, r) => store target r (·.set f.key (some v))
          | (.refused, r) => ⟨some (.unexpectedToken label t.kind), target, r⟩
          | (.failed e, r) => ⟨some e, target, r⟩
        | .array elem _ =>
          if t != .beginArray then ⟨some (.unexpectedToken label t.kind), target, r⟩
          else if target.isNone then ⟨some .absentValue, target, r⟩
          else
            match decodeItems m label elem [] fuel r with
            | (none, items, r) => store target r (·.set f.key (some (.array items)))
            -- the elements read so far have gone into the old array
            | (some e, items, r) => ⟨some e, target.map (overwrite · f.key items), r⟩
    | none =>
      match o.wildcard with
      | none =>
        match r.skip with
        | (e, r) => ⟨e, target, r⟩
      | some w =>
        let label := Names.exported w.name
        match r.next with
        | (.error e, r) => ⟨some e, target, r⟩
        | (.ok .null, r) => ⟨none, target, r⟩
        | (.ok t, r) =>
          match decodeValue m label w.elem t fuel r with
          | (.value v, r) => store target r (·.insert name v)
          | (.refused, r) => ⟨some (.unexpectedToken label t.kind), target, r⟩
          | (.failed e, r) => ⟨some e, target, r⟩

/-- Reads a value that begins with a token. -/
def decodeValue (m : Model) (label : Text) (type : ElemType) (t : Token) :
    (fuel : Nat) → Reader → Got × Reader
  | 0, r => (.failed (.endOfStream none), r)
  | fuel + 1, r =>
    match type with
    | .scalar s => (readScalar label s t, r)
    | .object id =>
      match t, m.object? id with
      | .beginObject, some o =>
        match decodeMembers m o fuel (some (Target.empty o)) r with
        | ⟨some f, _, r⟩ => (.failed f, r)
        | ⟨none, target, r⟩ =>
          match target with
          | some target => (.value target.value, r)
          | none => (.failed .absentValue, r)
      | _, _ => (.refused, r)

/-- Reads the elements of an array whose opening token was taken; `seen` holds those read, last
first. Null is an absent object, and no scalar; what is of the wrong kind is skipped. -/
def decodeItems (m : Model) (label : Text) (type : ElemType) (seen : List (Option Value)) :
    (fuel : Nat) → Reader → Option Failure × List (Option Value) × Reader
  | 0, r => (some (.endOfStream none), seen.reverse, r)
  | fuel + 1, r =>
    match r.next with
    | (.error f, r) => (some f, seen.reverse, r)
    | (.ok .endArray, r) => (none, seen.reverse, r)
    | (.ok .null, r) =>
      match type with
      | .object _ => decodeItems m label type (none :: seen) fuel r
      | .scalar _ => (some (.nullElement label), seen.reverse, r)
    | (.ok t, r) =>
      match decodeValue m label type t fuel r with
      | (.value v, r) => decodeItems m label type (some v :: seen) fuel r
      | (.failed f, r) => (some f, seen.reverse, r)
      | (.refused, r) =>
        match r.skip with
        | (some f, r) => (some f, seen.reverse, r)
        | (none, r) => decodeItems m label type seen fuel r

end

/-- How many steps suffice to read what is left: two for each token and one more. -/
def steps (r : Reader) : Nat := 2 * r.source.size + 2

/-- Decodes one document into a target. Null changes nothing; anything else but an object is
refused. -/
def decode (m : Model) (o : Object) (target : Option Target) (r : Reader) : Outcome :=
  match r.next with
  | (.error f, r) => ⟨some f, target, r⟩
  | (.ok .null, r) => ⟨none, target, r⟩
  | (.ok .beginObject, r) => decodeMembers m o (steps r) target r
  | (.ok t, r) => ⟨some (.unexpectedToken [] t.kind), target, r⟩

/-- Decodes the value at the current token into a new object; null is none. -/
def decodeCurrent (m : Model) (o : Object) (r : Reader) : Except Failure (Option Target) × Reader :=
  match r.current with
  | some .null => (.ok none, r)
  | some .beginObject =>
    match decodeMembers m o (steps r) (some (Target.empty o)) r with
    | ⟨some f, _, r⟩ => (.error f, r)
    | ⟨none, target, r⟩ => (.ok target, r)
  | _ => (.error (.unexpectedToken (m.typeName o.id) r.kind), r)

/-- Decodes the elements of a sequence one by one until it closes; `seen` holds those decoded, last
first. -/
def decodeEach (m : Model) (o : Object) :
    (fuel : Nat) → List (Option Target) → Reader → List (Option Target) × Option Failure × Reader
  | 0, seen, r => (seen.reverse, some (.endOfStream none), r)
  | fuel + 1, seen, r =>
    match r.next with
    | (.error f, r) => (seen.reverse, some f, r)
    | (.ok .endArray, r) => (seen.reverse, none, r)
    | (.ok _, r) =>
      match decodeCurrent m o r with
      | (.error f, r) => (seen.reverse, some f, r)
      | (.ok target, r) => decodeEach m o fuel (target :: seen) r

/-- Decodes the elements of the sequence that the next token opens. -/
def decodeStream (m : Model) (o : Object) (r : Reader) :
    List (Option Target) × Option Failure × Reader :=
  match r.next with
  | (.error f, r) => ([], some f, r)
  | (.ok _, r) => decodeEach m o (r.source.size + 1) [] r

end WireSchema.Codec
