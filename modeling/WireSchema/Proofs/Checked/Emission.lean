import WireSchema.Proofs.Checked.Reading
import WireSchema.Proofs.Lists
import WireSchema.Proofs.Model.Slots
import WireSchema.Proofs.Source.Calls

/-!
# Emission with every access checked

What is written for a model names its objects all over by their positions. Here a position that is not
one of the model's objects, or a name without a first character, leaves nothing to write: the emission
functions run on names that may not be there. In a model that is `InRange` every look-up succeeds, so
that all is written as the library writes it.
-/

namespace WireSchema.Checked

open Source (Naming)
open Layout (Step)

variable {α β : Type}

/-! ## Names -/

/-- A name as the access of the model shows it. -/
def visible (m : Model) (t : Text) : Option Text :=
  match m.access with
  | .packageOnly => unexported t
  | .anyone => changeFirst upperChar t

/-- The last part of the name of the object at a position. -/
def baseName (m : Model) (id : Nat) : Option Text := (m.object? id).map Object.typeName

def serializerName (m : Model) : Option Text := visible m m.serializer

def typeName (m : Model) (id : Nat) : Option Text := do visible m (← baseName m id)

def codecVar (m : Model) (id : Nat) : Option Text := do return (← typeName m id) ++ "Codec"

def methodName (verb : Text) (m : Model) (id : Nat) : Option Text := do
  visible m (verb ++ (← baseName m id))

/-- The name of the method that reads one member of an object. -/
def decodeFieldName (m : Model) (id : Nat) : Option Text := do
  return "decode" ++ (← baseName m id) ++ "Field"

def Has (m : Model) (id : Nat) : Prop := id < m.objects.length

def HasElem (m : Model) : ElemType → Prop
  | .scalar _ => True
  | .object id => Has m id

/-- All positions that a model holds are positions of its objects, and all names that it shows have
a first character. -/
structure InRange (m : Model) : Prop where
  serializer : m.serializer ≠ []
  names : ∀ o ∈ m.objects, o.typeName ≠ []
  ids : ∀ o ∈ m.objects, Has m o.id
  slots : ∀ o ∈ m.objects, ∀ a ∈ o.slots, Has m a.origin ∧ HasElem m a.elem
  arrays : ∀ c ∈ m.arrays, Has m c.owner ∧ HasElem m c.elem
  aggregates : ∀ id ∈ m.aggregates, Has m id

namespace InRange

variable {m : Model} (hm : InRange m) {o : Object} (ho : o ∈ m.objects)
include hm ho

theorem field {f : Field} (hf : f ∈ o.fields) : Has m f.origin ∧ HasElem m f.slot.elem := by
  have hslot : f.slot ∈ o.slots := List.mem_append_left _ (List.mem_map_of_mem hf)
  simpa using hm.slots o ho f.slot hslot

theorem wildcard {w : Wildcard} (hw : o.wildcard = some w) : Has m w.origin ∧ HasElem m w.elem := by
  have hslot : w.slot ∈ o.slots := List.mem_append_right _ (by simp [hw])
  exact hm.slots o ho w.slot hslot

end InRange

section Names

variable {m : Model} (hm : InRange m) {id : Nat} (h : Has m id)

theorem visible_eq {t : Text} (ht : t ≠ []) : visible m t = some (m.visible t) := by
  unfold visible Model.visible
  cases m.access with
  | packageOnly => exact unexported_eq t
  | anyone =>
    obtain ⟨c, rest, hchars⟩ :=
      List.exists_cons_of_ne_nil fun hchars => ht (chars_eq_nil_iff.mp hchars)
    simp only [changeFirst_eq hchars, hchars]

-- a name without a first character has none to change
example : changeFirst upperChar [] = none := by decide +kernel

include h in
theorem baseName_eq : baseName m id = some (m.baseName id) := by
  rw [baseName, Model.baseName, Model.object?, List.getElem?_eq_getElem h]
  rfl

include hm in
theorem serializerName_eq : serializerName m = some m.serializerName := visible_eq hm.serializer

include hm h in
theorem typeName_eq : typeName m id = some (m.typeName id) := by
  have hne : m.baseName id ≠ [] := by
    rw [Model.baseName, Model.object?, List.getElem?_eq_getElem h]
    exact hm.names _ (List.getElem_mem h)
  rw [typeName, baseName_eq h]
  exact visible_eq hne

include hm h in
theorem codecVar_eq : codecVar m id = some (m.codecVar id) := by
  rw [codecVar, typeName_eq hm h]
  rfl

include h in
theorem methodName_eq {verb : Text} (hverb : verb ≠ []) :
    methodName verb m id = some (m.visible (verb ++ m.baseName id)) := by
  rw [methodName, baseName_eq h]
  exact visible_eq (List.append_ne_nil_of_left_ne_nil hverb _)

include h in
theorem decodeFieldName_eq : decodeFieldName m id = some (m.decodeFieldName id) := by
  rw [decodeFieldName, baseName_eq h]
  rfl

end Names

/-! ## Reserved names -/

def objectNames (m : Model) (o : Object) : Option (List (Text × Text)) := do
  let types ← if m.aggregates.isEmpty then pure []
    else do pure [(← typeName m o.id, o.name)]
  let codecs ← if o.isInterface then pure []
    else do
      pure [(← codecVar m o.id, o.name), ("." ++ (← methodName "Encode" m o.id), o.name),
        ("." ++ (← methodName "Decode" m o.id), o.name),
        ("." ++ (← methodName "Read" m o.id), o.name),
        ("." ++ (← decodeFieldName m o.id), o.name)]
  pure (types ++ codecs)

def arrayNames (m : Model) (a : ArrayCodec) : Option (List (Text × Text)) := do
  let owner ← m.object? a.owner
  let what := owner.name ++ "." ++ a.field
  pure [("." ++ Model.encodeArrayName a.id, what), ("." ++ Model.decodeArrayName a.id, what)]

def reservedNames (m : Model) : Option (List (Text × Text)) := do
  let serializer ← serializerName m
  let objects ← m.objects.mapM (objectNames m)
  let arrays ← m.arrays.mapM (arrayNames m)
  pure ((serializer, "the serializer") :: (objects.flatten ++ arrays.flatten))

theorem reservedNames_eq {m : Model} (hm : InRange m) : reservedNames m = some m.reservedNames := by
  have hobjects : m.objects.mapM (objectNames m) = some (m.objects.map m.objectNames) := by
    refine mapM_eq_map fun o ho => ?_
    have hid := hm.ids o ho
    unfold objectNames Model.objectNames
    rw [typeName_eq hm hid, codecVar_eq hm hid, methodName_eq hid (by decide),
      methodName_eq hid (by decide), methodName_eq hid (by decide), decodeFieldName_eq hid]
    cases m.aggregates.isEmpty <;> cases o.isInterface <;> rfl
  have harrays : m.arrays.mapM (arrayNames m) = some (m.arrays.map m.arrayNames) := by
    refine mapM_eq_map fun a ha => ?_
    have howner : m.object? a.owner = some _ := List.getElem?_eq_getElem (hm.arrays a ha).1
    rw [arrayNames, Model.arrayNames, howner]
    rfl
  rw [reservedNames, serializerName_eq hm, hobjects, harrays, Model.reservedNames,
    List.flatMap_def, List.flatMap_def]
  rfl

/-! ## Names that are there -/

/-- The names of a model, as far as they are there. -/
def naming (m : Model) : Naming Option where
  serializer := serializerName m
  typeName := typeName m
  codecVar := codecVar m
  encode := methodName "Encode" m
  decode := methodName "Decode" m
  read := methodName "Read" m
  decodeField := decodeFieldName m
  member := exported
  isInterface id := (m.object? id).map Object.isInterface
  aggregated := m.aggregates.mapM m.object?

/-- Whatever is looked up in `n` at the positions of a model's objects is there, as in `n'`. -/
structure Finds (m : Model) (n : Naming Option) (n' : Naming Id) : Prop where
  serializer : n.serializer = some n'.serializer.run
  typeName : ∀ {id}, Has m id → n.typeName id = some (n'.typeName id).run
  codecVar : ∀ {id}, Has m id → n.codecVar id = some (n'.codecVar id).run
  encode : ∀ {id}, Has m id → n.encode id = some (n'.encode id).run
  decode : ∀ {id}, Has m id → n.decode id = some (n'.decode id).run
  read : ∀ {id}, Has m id → n.read id = some (n'.read id).run
  decodeField : ∀ {id}, Has m id → n.decodeField id = some (n'.decodeField id).run
  member : ∀ name, n.member name = some (n'.member name).run
  isInterface : ∀ {id}, Has m id → n.isInterface id = some (n'.isInterface id).run
  aggregated : n.aggregated = some n'.aggregated.run

theorem finds_naming {m : Model} (hm : InRange m) : Finds m (naming m) (.ofModel m) where
  serializer := serializerName_eq hm
  typeName h := typeName_eq hm h
  codecVar h := codecVar_eq hm h
  encode h := methodName_eq h (by decide)
  decode h := methodName_eq h (by decide)
  read h := methodName_eq h (by decide)
  decodeField h := decodeFieldName_eq h
  member := exported_eq
  isInterface {id} h := by
    have hobject : m.object? id = some _ := List.getElem?_eq_getElem h
    simp [naming, Source.fromInterface, hobject]
  aggregated := by
    refine mapM_eq_filterMap fun id hid => ?_
    rw [Model.object?, List.getElem?_eq_getElem (hm.aggregates id hid)]
    rfl

/-! ## Emission -/

namespace Finds

open Source

variable {m : Model} {n : Naming Option} {n' : Naming Id} (h : Finds m n n')
include h

theorem elemType {elem : ElemType} (helem : HasElem m elem) :
    Calls.elemType n elem = some (Calls.elemType n' elem).run := by
  cases elem with
  | scalar s => rfl
  | object id => simp [Calls.elemType, h.typeName helem]

theorem fieldType {f : Field} (helem : HasElem m f.slot.elem) :
    Calls.fieldType n f.type = some (Calls.fieldType n' f.type).run := by
  unfold Field.slot at helem
  cases htype : f.type with
  | single elem =>
    rw [htype] at helem
    cases elem with
    | scalar s => rfl
    | object id => exact h.elemType helem
  | array elem codec =>
    rw [htype] at helem
    simp [Calls.fieldType, h.elemType helem]

theorem dictType {elem : ElemType} (helem : HasElem m elem) :
    Calls.dictType n elem = some (Calls.dictType n' elem).run := by
  simp [Calls.dictType, h.elemType helem]

theorem writeElem {elem : ElemType} (helem : HasElem m elem) (expr : Text) :
    Calls.writeElem n elem expr = some (Calls.writeElem n' elem expr).run := by
  cases elem with
  | scalar s => rfl
  | object id => simp [Calls.writeElem, h.encode helem]

theorem writeField {f : Field} (helem : HasElem m f.slot.elem) (expr : Text) :
    Calls.writeField n f.type expr = some (Calls.writeField n' f.type expr).run := by
  unfold Field.slot at helem
  cases htype : f.type with
  | single elem =>
    rw [htype] at helem
    cases elem with
    | scalar s => rfl
    | object id => exact h.writeElem helem expr
  | array elem codec => rfl

theorem readElem {elem : ElemType} (helem : HasElem m elem) (label : Text) (failed : Text → Text)
    {store : Text → Bool → Option (List Step)} {store' : Text → Bool → Id (List Step)}
    (hstore : ∀ expr isVariable, store expr isVariable = some (store' expr isVariable).run) :
    Calls.readElem n elem label failed store =
      some (Calls.readElem n' elem label failed store').run := by
  cases elem with
  | scalar s => cases s <;> simp [Calls.readElem, hstore]
  | object id => simp [Calls.readElem, hstore, h.typeName helem, h.decode helem]

theorem readField {f : Field} (helem : HasElem m f.slot.elem) (label target : Text)
    {store : Text → Bool → Option (List Step)} {store' : Text → Bool → Id (List Step)}
    (hstore : ∀ expr isVariable, store expr isVariable = some (store' expr isVariable).run) :
    Calls.readField n f.type label target store =
      some (Calls.readField n' f.type label target store').run := by
  unfold Field.slot at helem
  cases htype : f.type with
  | single elem =>
    rw [htype] at helem
    exact h.readElem helem label id hstore
  | array elem codec => simp [Calls.readField, hstore]

theorem encodeMember {f : Field} (helem : HasElem m f.slot.elem) :
    Calls.encodeMember n f = some (Calls.encodeMember n' f).run := by
  simp [Calls.encodeMember, h.member, h.writeField helem]

theorem encodeWildcard {w : Wildcard} (helem : HasElem m w.elem) :
    Calls.encodeWildcard n w = some (Calls.encodeWildcard n' w).run := by
  simp [Calls.encodeWildcard, h.member, h.writeElem helem]

theorem dispatchField {f : Field} (helem : HasElem m f.slot.elem) :
    Calls.dispatchField n f = some (Calls.dispatchField n' f).run := by
  -- the clause is rewritten as a whole: what stores the value stands under a binder
  have hread : ∀ label target, Calls.readField n f.type label target
        (fun expr isVariable => pure (Calls.storeField f.type target expr isVariable)) =
      some (Calls.readField n' f.type label target fun expr isVariable =>
        pure (Calls.storeField f.type target expr isVariable)).run :=
    fun label target => h.readField helem label target fun _ _ => rfl
  rw [Calls.dispatchField, h.member]
  simp only [Option.bind_eq_bind, Option.bind_some, hread]
  rfl

theorem storeEntry {elem : ElemType} (helem : HasElem m elem) (target expr : Text) :
    Calls.storeEntry n elem target expr = some (Calls.storeEntry n' elem target expr).run := by
  simp [Calls.storeEntry, h.elemType helem]

theorem dispatchOther {w? : Option Wildcard} (helem : ∀ w, w? = some w → HasElem m w.elem) :
    Calls.dispatchOther n w? = some (Calls.dispatchOther n' w?).run := by
  cases w? with
  | none => rfl
  | some w =>
    simp [Calls.dispatchOther, h.member,
      h.readElem (helem w rfl) _ _ fun _ _ => h.storeEntry (helem w rfl) _ _]

section Objects

variable (hm : InRange m) {o : Object} (ho : o ∈ m.objects)
include hm ho

theorem encodeObject : Calls.encodeObject n o = some (Calls.encodeObject n' o).run := by
  have hid := hm.ids o ho
  have hfields := mapM_eq_map fun f hf => h.encodeMember (hm.field ho hf).2
  have hdictionary :=
    mapM_eq_map fun w hw => h.encodeWildcard (hm.wildcard ho (Option.mem_toList.mp hw)).2
  simp [Calls.encodeObject, h.serializer, h.encode hid, h.typeName hid, hfields, hdictionary]

theorem decodeObject : Calls.decodeObject n o = some (Calls.decodeObject n' o).run := by
  have hid := hm.ids o ho
  simp [Calls.decodeObject, h.serializer, h.decode hid, h.typeName hid, h.decodeField hid]

theorem decodeObjectField :
    Calls.decodeObjectField n o = some (Calls.decodeObjectField n' o).run := by
  have hid := hm.ids o ho
  have hfields := mapM_eq_map fun f hf => h.dispatchField (hm.field ho hf).2
  have hother := h.dispatchOther fun w hw => (hm.wildcard ho hw).2
  unfold Calls.decodeObjectField
  split
  · simp [h.serializer, h.typeName hid, h.decodeField hid]
  · simp [h.serializer, h.typeName hid, h.decodeField hid, hfields, hother]

theorem readObject : Calls.readObject n o = some (Calls.readObject n' o).run := by
  have hid := hm.ids o ho
  simp [Calls.readObject, h.serializer, h.read hid, h.decode hid, h.typeName hid]

theorem objectCodec : Calls.objectCodec n o = some (Calls.objectCodec n' o).run := by
  have hid := hm.ids o ho
  simp [Calls.objectCodec, h.typeName hid, h.codecVar hid, h.serializer, h.encode hid,
    h.decode hid, h.encodeObject hm ho, h.decodeObject hm ho, h.decodeObjectField hm ho,
    h.readObject hm ho]

theorem members : Calls.members n o = some (Calls.members n' o).run := by
  have hfields : (o.fields.mapM fun f => do
      return (← n.member f.name, ← Calls.fieldType n f.type, f.origin)) =
      some (o.fields.map fun f =>
        ((n'.member f.name).run, (Calls.fieldType n' f.type).run, f.origin)) := by
    refine mapM_eq_map fun f hf => ?_
    rw [h.member, h.fieldType (hm.field ho hf).2]
    rfl
  have hdictionary : (o.wildcard.toList.mapM fun w => do
      return (← n.member w.name, ← Calls.dictType n w.elem, w.origin)) =
      some (o.wildcard.toList.map fun w =>
        ((n'.member w.name).run, (Calls.dictType n' w.elem).run, w.origin)) := by
    refine mapM_eq_map fun w hw => ?_
    rw [h.member, h.dictType (hm.wildcard ho (Option.mem_toList.mp hw)).2]
    rfl
  rw [Calls.members, hfields, hdictionary]
  simp [Calls.members]

omit h in
theorem has_of_mem_members {x : Text × Text × Nat} (hx : x ∈ (Calls.members n' o).run) :
    Has m x.2.2 := by
  simp only [Calls.members, Id.run_bind, Id.run_pure, List.idRun_mapM, List.mem_append,
    List.mem_map, Option.mem_toList] at hx
  rcases hx with ⟨f, hf, rfl⟩ | ⟨w, hw, rfl⟩
  · exact (hm.field ho hf).1
  · exact (hm.wildcard ho hw).1

theorem aggregate : Calls.aggregate n o = some (Calls.aggregate n' o).run := by
  have hgetters (type : Text) : (Calls.members n' o).run.mapM (Calls.getter n type) =
      some ((Calls.members n' o).run.map fun x => (Calls.getter n' type x).run) := by
    refine mapM_eq_map fun x hx => ?_
    have hinterface := h.isInterface (has_of_mem_members hm ho hx)
    cases hrun : (n'.isInterface x.2.2).run <;> simp [Calls.getter, hinterface, hrun]
  unfold Calls.aggregate
  rw [h.typeName (hm.ids o ho), h.members hm ho]
  cases o.isInterface with
  | true => simp
  | false => simp [hgetters]

end Objects

section Arrays

variable (hm : InRange m) {a : ArrayCodec} (ha : a ∈ m.arrays)
include hm ha

theorem encodeArray : Calls.encodeArray n a = some (Calls.encodeArray n' a).run := by
  have helem := (hm.arrays a ha).2
  simp [Calls.encodeArray, h.serializer, h.elemType helem, h.writeElem helem]

theorem decodeArray : Calls.decodeArray n a = some (Calls.decodeArray n' a).run := by
  have helem := (hm.arrays a ha).2
  have hread : ∀ label, Calls.readElem n a.elem label (fun e => "nil, " ++ e)
        (fun expr _ => pure [.line ("dst = append(dst, " ++ expr ++ ")")]) =
      some (Calls.readElem n' a.elem label (fun e => "nil, " ++ e)
        fun expr _ => pure [.line ("dst = append(dst, " ++ expr ++ ")")]).run :=
    fun label => h.readElem helem label _ fun _ _ => rfl
  rw [Calls.decodeArray, h.serializer, h.elemType helem, h.member]
  simp only [Option.bind_eq_bind, Option.bind_some, hread]
  rfl

theorem arrayCodec : Calls.arrayCodec n a = some (Calls.arrayCodec n' a).run := by
  simp [Calls.arrayCodec, h.encodeArray hm ha, h.decodeArray hm ha]

end Arrays

theorem body (hm : InRange m) (hobjects : ∀ o ∈ n'.aggregated.run, o ∈ m.objects) :
    Calls.body n m = some (Calls.body n' m).run := by
  have haggregates := mapM_eq_map fun o ho => h.aggregate hm (hobjects o ho)
  have hcodecs : (m.objects.filter fun o => !o.isInterface).mapM (Calls.objectCodec n) = _ :=
    mapM_eq_map fun o ho => h.objectCodec hm (List.mem_filter.mp ho).1
  have harrays := mapM_eq_map fun a ha => h.arrayCodec hm ha
  simp [Calls.body, h.serializer, h.aggregated, haggregates, hcodecs, harrays]

end Finds

/-! ## The file -/

/-- The text that the code writer makes of calls, if every line has a place. -/
def written (calls : List Step) : Option Text :=
  match Layout.run {} calls with
  | .ok l => some l.text
  | .error _ => none

/-- All that is written below the head of a file. -/
def body (m : Model) : Option (List Step) := Source.Calls.body (naming m) m

def generate (m : Model) (source : Text) : Checked Failure Text := do
  match Model.clash? [] (← reservedNames m) with
  | some (ident, what, previous) =>
    throw (.generate (.plain (Source.clashMessage ident what previous)))
  | none =>
    let _ ← written (← body m)
    let _ ← written (Source.Calls.head m source)
    safe (Source.formatted m source)

section Files

variable {m : Model} (hm : InRange m)
include hm

theorem body_eq : body m = some (Source.Calls.body (.ofModel m) m).run := by
  refine (finds_naming hm).body hm fun o ho => ?_
  obtain ⟨id, -, hid⟩ := List.mem_filterMap.mp ho
  exact List.mem_of_getElem? hid

omit hm in
theorem exists_written {calls : List Step} (h : Layout.Placed calls) :
    ∃ text, written calls = some text := by
  obtain ⟨l, hl, -⟩ := h.final
  exact ⟨l.text, by rw [written, hl]⟩

theorem generate_eq (source : Text) : generate m source = safe (Source.generate m source) := by
  have hserializer : (m.access == .anyone && m.serializer.isEmpty) = false := by
    simp [hm.serializer]
  rw [generate, reservedNames_eq hm, lift_some, pure_bind]
  cases hclash : Model.clash? [] m.reservedNames with
  | some clash =>
    rw [Source.generate, hserializer, hclash]
    rfl
  | none =>
    obtain ⟨body, hbody⟩ := exists_written (Source.Calls.allPlaced m source).body
    obtain ⟨head, hhead⟩ := exists_written (Source.Calls.allPlaced m source).head
    simp only [body_eq hm, lift_some, pure_bind, hbody, hhead,
      Source.generate_of_clash?_eq_none hserializer hclash]

end Files

end WireSchema.Checked
