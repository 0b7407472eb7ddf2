import WireSchema.Proofs.Lists
import WireSchema.Proofs.Source.Implementors

/-!
# The members of a struct

A struct has a field for every property of its object, and its type has getters for the properties
from interface-only objects. Fields and methods of a type share one space of names. The names of
the fields differ from each other, and so do those of the getters. A field has the name of a getter
exactly if a property is named like another one with `get` in front.
-/

namespace WireSchema

/-! ## Slots by name -/

namespace Resolve.Arena

variable {ds : List Schema.Declaration} {os : List Object} (hos : Arena ds os)
include hos

theorem nodup_exported {i : Nat} {o : Object} (hi : os[i]? = some o) :
    (o.slots.map fun a => Names.exported a.name).Nodup := by
  obtain ⟨decl, bases, own, -, hgathers⟩ := hos i o hi
  exact List.pairwise_map.mpr (hgathers.has.pairwise.imp fun hne heq => hne (.inr heq))

end Resolve.Arena

namespace Source

/-! ## Declared fields and methods -/

variable {m : Model}

def slotField (m : Model) (a : Slot) : Member := ⟨Model.memberName a.name, slotCode m a⟩

theorem struct_mem_dataDecls {o : Object} {doc : List Text} {name : Text} {fields : List Member} :
    .struct doc name fields ∈ dataDecls m o ↔ o.isInterface = false ∧ name = m.typeName o.id ∧
      doc = [m.typeName o.id ++ " is the data holder for " ++ o.name ++ "."] ∧
      fields = o.slots.map (slotField m) := by
  have hfield : slotField m = fun a => ⟨Model.memberName a.name, slotCode m a⟩ := rfl
  unfold dataDecls
  rw [members_eq]
  cases h : o.isInterface with
  | true => simp
  | false => simp [dataDoc, h, hfield, Function.comp_def, and_left_comm]

theorem struct_mem_decls {doc : List Text} {name : Text} {fields : List Member} :
    .struct doc name fields ∈ decls m ↔
      ∃ o ∈ m.aggregates.filterMap m.object?, .struct doc name fields ∈ dataDecls m o := by
  simp [decls, serializerDecl, objectDecls, codecDecl, encodeDecl, decodeDecl, decodeFieldDecl,
    readDecl, encodeArrayDecl, decodeArrayDecl]

theorem methodNames_dataDecls_self {o : Object} (h : o.isInterface = false) :
    methodNames (m.typeName o.id) (dataDecls m o) =
      (o.slots.filter fun a => fromInterface m a.origin).map fun a => Model.getterName a.name := by
  unfold dataDecls
  rw [members_eq, if_neg (by simp [h])]
  simp [methodNames, Decl.binding, List.filter_map, List.filterMap_map, Function.comp_def]

theorem methodNames_eq_data {receiver : Text} (h : m.serializerName ≠ receiver) :
    methodNames receiver (decls m) = (m.aggregates.filterMap m.object?).flatMap fun o =>
      methodNames receiver (dataDecls m o) := by
  have hobject (o : Object) : methodNames receiver (objectDecls m o) = [] := by
    simp [methodNames, objectDecls, codecDecl, encodeDecl, decodeDecl, decodeFieldDecl, readDecl,
      Decl.binding, h]
  have harray (a : ArrayCodec) :
      methodNames receiver [encodeArrayDecl m a, decodeArrayDecl m a] = [] := by
    simp [methodNames, encodeArrayDecl, decodeArrayDecl, Decl.binding, h]
  have hcons : methodNames receiver (decls m) = methodNames receiver (decls m).tail := rfl
  rw [hcons, decls, List.tail_cons, methodNames_append, methodNames_append, methodNames_flatMap,
    methodNames_flatMap, methodNames_flatMap]
  simp [hobject, harray]

/-! ## The members of one type -/

section Members

variable {ds : List Schema.Declaration} {opt : ModelOptions} (h : Model.resolve ds opt = .ok m)
  (hmake : opt.makeTypes = true) (hclash : Model.clash? [] m.reservedNames = none)
  {i : Nat} {o : Object} (hi : m.objects[i]? = some o) (hconcrete : o.isInterface = false)
include h hmake hclash hi hconcrete

theorem struct_mem_decls_iff {doc : List Text} {fields : List Member} :
    .struct doc (m.typeName i) fields ∈ decls m ↔
      doc = [m.typeName i ++ " is the data holder for " ++ o.name ++ "."] ∧
        fields = o.slots.map (slotField m) := by
  have hid := Model.id_eq_of_resolve h hi
  have ho := List.mem_of_getElem? hi
  rw [struct_mem_decls, aggregated_of_makeTypes h hmake]
  constructor
  · rintro ⟨o', ho', hstruct⟩
    obtain ⟨-, htype, hdoc, hfields⟩ := struct_mem_dataDecls.mp hstruct
    obtain rfl := eq_of_typeName h hmake hclash ho ho' (hid.symm ▸ htype)
    exact ⟨hid ▸ hdoc, hfields⟩
  · rintro ⟨hdoc, hfields⟩
    exact ⟨o, ho, struct_mem_dataDecls.mpr ⟨hconcrete, by rw [hid], by rw [hid, hdoc], hfields⟩⟩

theorem methodNames_typeName :
    methodNames (m.typeName i) (decls m) =
      (o.slots.filter fun a => fromInterface m a.origin).map fun a => Model.getterName a.name := by
  obtain ⟨hserializer, htypes⟩ := List.nodup_cons.mp (nodup_typeNames h hmake hclash)
  have ho := List.mem_of_getElem? hi
  have hne : m.serializerName ≠ m.typeName o.id := fun heq =>
    hserializer (heq ▸ List.mem_map_of_mem ho)
  rw [← Model.id_eq_of_resolve h hi, methodNames_eq_data hne, aggregated_of_makeTypes h hmake,
    flatMap_eq_of_nodup htypes ho fun b hb => methodNames_dataDecls hb,
    methodNames_dataDecls_self hconcrete]

end Members

/-- The members of the type of a concrete object, and when all their names differ. -/
structure Members (ds : List Schema.Declaration) (m : Model) (i : Nat) (fields : List Member) :
    Prop where
  nodup_fields : (fields.map (·.name)).Nodup
  nodup_methods : (methodNames (m.typeName i) (decls m)).Nodup
  /-- A field shares its name with a method exactly if there is a property whose field is named like
  the getter of a property that an interface-only object declares. -/
  nodup_iff : (fields.map (·.name) ++ methodNames (m.typeName i) (decls m)).Nodup ↔
    ∀ place p place' q d, Schema.Reaches ds i place p → Schema.Reaches ds i place' q →
      ds[place'.1]? = some d → d.isInterface = true →
      Model.memberName p.name ≠ Model.getterName q.name

theorem members_of_resolve {ds : List Schema.Declaration} {opt : ModelOptions}
    (h : Model.resolve ds opt = .ok m) (hmake : opt.makeTypes = true)
    (hclash : Model.clash? [] m.reservedNames = none) {i : Nat} {o : Object}
    (hi : m.objects[i]? = some o) (hconcrete : o.isInterface = false) :
    Members ds m i (o.slots.map (slotField m)) := by
  have hos := (Model.arena_of_resolve h).1
  have hslot {origin : Nat} {name : Text} : (∃ a ∈ o.slots, a.origin = origin ∧ a.name = name) ↔
      ∃ place p, Schema.Reaches ds i place p ∧ place.1 = origin ∧ p.name = name :=
    hos.exists_slot_iff (Model.names_nodup h) hi
  have hexported := hos.nodup_exported hi
  have hfields : ((o.slots.map (slotField m)).map (·.name)).Nodup := by
    rw [List.map_map]
    exact hexported
  have hmethods : (methodNames (m.typeName i) (decls m)).Nodup := by
    rw [methodNames_typeName h hmake hclash hi hconcrete]
    refine List.pairwise_map.mpr (.imp ?_ ((List.pairwise_map.mp hexported).filter _))
    exact fun hne heq => hne (List.append_cancel_left heq)
  refine ⟨hfields, hmethods, ?_⟩
  rw [List.nodup_append, and_iff_right hfields, and_iff_right hmethods,
    methodNames_typeName h hmake hclash hi hconcrete]
  simp only [List.mem_map, List.mem_filter]
  constructor
  · intro hdistinct place p place' q d hp hq hd hinterface
    obtain ⟨a, ha, -, hname⟩ := hslot.mpr ⟨place, p, hp, rfl, rfl⟩
    obtain ⟨b, hb, horigin, hname'⟩ := hslot.mpr ⟨place', q, hq, rfl, rfl⟩
    rw [← hname, ← hname']
    refine hdistinct _ ⟨_, ⟨a, ha, rfl⟩, rfl⟩ _ ⟨b, ⟨hb, ?_⟩, rfl⟩
    rw [horigin]
    exact (fromInterface_iff h).mpr ⟨d, hd, hinterface⟩
  · rintro hdistinct _ ⟨_, ⟨a, ha, rfl⟩, rfl⟩ _ ⟨b, ⟨hb, hinterface⟩, rfl⟩
    obtain ⟨place, p, hp, -, hname⟩ := hslot.mp ⟨a, ha, rfl, rfl⟩
    obtain ⟨place', q, hq, horigin, hname'⟩ := hslot.mp ⟨b, hb, rfl, rfl⟩
    obtain ⟨d, hd, hinterface⟩ := (fromInterface_iff h).mp hinterface
    rw [slotField, ← hname, ← hname']
    exact hdistinct place p place' q d hp hq (horigin ▸ hd) hinterface

/-- **Members of a struct.** In the file of a schema that is compiled with data types, every concrete
object has a struct. The names of its fields differ from each other, and so do those of the methods
of its type; all of them differ exactly if no field is named like the getter of a property from an
interface-only object. -/
theorem members_of_compile {schema code : Text} {opt : CompileOptions} {log : List Log.Event}
    (h : compile schema opt = (log, .ok code)) (hmake : opt.makeTypes = true) :
    ∃ ds options m package, Schema.parse schema = .ok ds ∧ options.makeTypes = true ∧
      Model.resolve ds options = .ok m ∧
      ({ file m opt.source with package } : File).render = code ∧
      ∀ i d, ds[i]? = some d → d.isInterface = false →
        (∃ doc fields, .struct doc (m.typeName i) fields ∈ decls m) ∧
        ∀ doc fields, .struct doc (m.typeName i) fields ∈ decls m → Members ds m i fields := by
  obtain ⟨_, _, _, ds, m, -, -, hparse, hresolve, hgenerate⟩ := compile_eq_ok_iff.mp ⟨log, h⟩
  obtain ⟨hclash, package, hrender⟩ := exists_of_generate hgenerate
  refine ⟨ds, _, m, package, hparse, hmake, hresolve, hrender, ?_⟩
  intro i d hd hinterface
  obtain ⟨o, hi, hsame⟩ := exists_object hresolve hd
  have hconcrete := hsame.trans hinterface
  refine ⟨⟨_, _, (struct_mem_decls_iff hresolve hmake hclash hi hconcrete).mpr ⟨rfl, rfl⟩⟩, ?_⟩
  intro doc fields hmem
  obtain ⟨-, rfl⟩ := (struct_mem_decls_iff hresolve hmake hclash hi hconcrete).mp hmem
  exact members_of_resolve hresolve hmake hclash hi hconcrete

/-- The struct of a pin, whose type has one getter. -/
theorem members_of_compile_pinText :
    ∃ log code, compile pinText pinOptions = (log, .ok code) ∧ pinOptions.makeTypes = true ∧
      Schema.parse pinText = .ok pinSchema ∧
      ∃ options m package, options.makeTypes = true ∧ Model.resolve pinSchema options = .ok m ∧
        ({ file m pinOptions.source with package } : File).render = code ∧
        ∃ doc fields, .struct doc (m.typeName 2) fields ∈ decls m ∧ Members pinSchema m 2 fields := by
  obtain ⟨log, code, hcompile, -⟩ := compile_pinText
  obtain ⟨ds, options, m, package, hparse, hmake, hresolve, hrender, hmembers⟩ :=
    members_of_compile hcompile rfl
  obtain rfl : pinSchema = ds := Except.ok.inj (parse_pinText.symm.trans hparse)
  obtain ⟨⟨doc, fields, hstruct⟩, hall⟩ := hmembers 2 _ rfl rfl
  exact ⟨log, code, hcompile, rfl, parse_pinText, options, m, package, hmake, hresolve, hrender,
    doc, fields, hstruct, hall doc fields hstruct⟩

/-! ## A field named like a getter -/

/-- A thing has a name, for which it gets a getter, and a property of its own that is named so. -/
def thingText : Text := ":Named\n- name: string\n\nThing: Named\n- getName: string\n"

def thingOptions : CompileOptions := { qualifiedName := "shop.Codec", makeTypes := true }

/-- What `thingText` declares. -/
def thingSchema : List Schema.Declaration :=
  [{ name := "Named", isInterface := true
     properties := [{ key := "name", name := "name", type := "string", line := 2 }], line := 1 },
    { name := "Thing", bases := ["Named"]
      properties := [{ key := "getName", name := "getName", type := "string", line := 5 }]
      line := 4 }]

def things : Model where
  package := "shop"
  serializer := "Codec"
  access := .anyone
  objects :=
    let name : Field := ⟨"name", "name", .single (.scalar .string), 0⟩
    let getName : Field := ⟨"getName", "getName", .single (.scalar .string), 1⟩
    [⟨0, "Named", true, [name], none, []⟩, ⟨1, "Thing", false, [name, getName], none, [0]⟩]
  arrays := []
  aggregates := [0, 1]

theorem resolve_thingSchema :
    Model.resolve thingSchema { package := "shop", serializer := "Codec", makeTypes := true } =
      .ok things := by
  have hnames : Resolve.checkNames [] thingSchema = .ok () := by decide +kernel
  have hobjects : Resolve.objects thingSchema [] [] thingSchema =
      .ok (things.objects, things.arrays) := by
    decide +kernel
  exact Model.resolve_eq_ok_iff.mpr ⟨hnames, _, _, hobjects, rfl⟩

theorem compile_thingText :
    ∃ log code, compile thingText thingOptions = (log, .ok code) ∧
      generate things [] = .ok code := by
  have hclass : Class.parse thingOptions.qualifiedName = .ok ("shop", "Codec") := by decide +kernel
  have hparse : Schema.parse thingText = .ok thingSchema := by decide +kernel
  have hgenerate : (generate things []).isOk = true :=
    isOk_generate rfl (by decide +kernel) (by decide +kernel) (by decide +kernel)
  exact exists_compile hclass rfl hparse resolve_thingSchema hgenerate

/-- Things compile although `GetName` is both a field of their struct and a method of its type. -/
theorem thing_field_is_method :
    ∃ log code package, compile thingText thingOptions = (log, .ok code) ∧
      ({ file things [] with package } : File).render = code ∧
      ∃ doc fields, .struct doc "Thing" fields ∈ decls things ∧
        ("GetName" : Text) ∈ fields.map (·.name) ∧
        ("GetName" : Text) ∈ methodNames "Thing" (decls things) ∧
        ¬(fields.map (·.name) ++ methodNames "Thing" (decls things)).Nodup := by
  obtain ⟨log, code, hcompile, hgenerate⟩ := compile_thingText
  obtain ⟨hclash, package, hrender⟩ := exists_of_generate hgenerate
  have htype : things.typeName 1 = "Thing" := by decide +kernel
  have hstruct := (struct_mem_decls_iff resolve_thingSchema rfl hclash (i := 1) rfl rfl).mpr
    ⟨rfl, rfl⟩
  have hmethods := methodNames_typeName resolve_thingSchema rfl hclash (i := 1) rfl rfl
  rw [htype] at hstruct hmethods
  have hfield : ("GetName" : Text) ∈
      ((things.objects[1]).slots.map (slotField things)).map (·.name) := by
    decide +kernel
  have hmethod : ("GetName" : Text) ∈ methodNames "Thing" (decls things) := by
    rw [hmethods]
    decide +kernel
  refine ⟨log, code, package, hcompile, hrender, _, _, hstruct, hfield, hmethod, fun hnodup => ?_⟩
  exact (List.nodup_append.mp hnodup).2.2 _ hfield _ hmethod rfl

end Source

end WireSchema
