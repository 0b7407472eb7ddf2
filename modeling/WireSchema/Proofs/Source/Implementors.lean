import WireSchema.Compile
import WireSchema.Proofs.Source.Calls
import WireSchema.Proofs.Source.Declarations

/-!
# Getters on implementors

The interface that a file declares for an interface-only object lists a getter for every property that
the object declares or inherits. A struct has getters for what it has from interface-only objects, and
for nothing else. So a concrete object lacks those getters of an interface among its bases that the
interface itself has from a concrete object.
-/

namespace WireSchema

theorem compile_eq_ok_iff {schema code : Text} {opt : CompileOptions} :
    (∃ log, compile schema opt = (log, .ok code)) ↔ ∃ package serializer access ds m,
      Class.parse opt.qualifiedName = .ok (package, serializer) ∧
      Access.parse opt.access = .ok access ∧ Schema.parse schema = .ok ds ∧
      Model.resolve ds { package, serializer, access, makeTypes := opt.makeTypes } = .ok m ∧
      Source.generate m opt.source = .ok code := by
  unfold compile
  constructor
  · rintro ⟨log, h⟩
    cases hclass : Class.parse opt.qualifiedName with
    | error f => simp [hclass, bind, Except.bind] at h
    | ok names =>
    cases haccess : Access.parse opt.access with
    | error f => simp [hclass, haccess, bind, Except.bind] at h
    | ok access =>
    cases hparse : Schema.parse schema with
    | error f => simp [hclass, haccess, hparse, bind, Except.bind] at h
    | ok ds =>
    simp only [hclass, haccess, hparse, bind, Except.bind, pure, Except.pure] at h
    split at h
    · simp at h
    · rename_i m hresolve
      split at h
      · simp at h
      · rename_i text hgenerate
        obtain rfl : text = code := by simpa using congrArg Prod.snd h
        exact ⟨names.1, names.2, access, ds, m, rfl, rfl, rfl, hresolve, hgenerate⟩
  · rintro ⟨package, serializer, access, ds, m, hclass, haccess, hparse, hresolve, hgenerate⟩
    simp only [hclass, haccess, hparse, bind, Except.bind, pure, Except.pure, hresolve, hgenerate]
    exact ⟨_, rfl⟩

theorem exists_compile {schema : Text} {opt : CompileOptions} {package serializer : Text}
    {access : Access} {ds : List Schema.Declaration} {m : Model}
    (hclass : Class.parse opt.qualifiedName = .ok (package, serializer))
    (haccess : Access.parse opt.access = .ok access) (hparse : Schema.parse schema = .ok ds)
    (hresolve : Model.resolve ds { package, serializer, access, makeTypes := opt.makeTypes } = .ok m)
    (hgenerate : (Source.generate m opt.source).isOk = true) :
    ∃ log code, compile schema opt = (log, .ok code) ∧ Source.generate m opt.source = .ok code := by
  cases hcode : Source.generate m opt.source with
  | error f =>
    rw [hcode] at hgenerate
    cases hgenerate
  | ok code =>
    obtain ⟨log, hcompile⟩ := compile_eq_ok_iff.mpr
      ⟨_, _, _, _, _, hclass, haccess, hparse, hresolve, hcode⟩
    exact ⟨log, code, hcompile, rfl⟩

namespace Source

variable {m : Model}

/-! ## Members are slots -/

def slotCode (m : Model) (a : Slot) : Code :=
  match a.shape with
  | .single => fieldCode m (.single a.elem)
  | .array => "[]" ++ elemCode m a.elem
  | .dictionary => dictCode m a.elem

theorem slotCode_field (f : Field) : slotCode m f.slot = fieldCode m f.type := by
  unfold Field.slot
  split
  · rename_i htype
    rw [htype]
    rfl
  · rename_i htype
    rw [htype]
    rfl

theorem members_eq (o : Object) :
    members m o = o.slots.map fun a => (a.name, slotCode m a, a.origin) := by
  unfold members Object.slots
  rw [List.map_append, List.map_map]
  congr 1
  · simp [Function.comp_def, slotCode_field]
  · cases o.wildcard <;> rfl

def slotGetter (m : Model) (a : Slot) : Member := ⟨Model.getterName a.name, slotCode m a⟩

theorem dataDecls_interface {o : Object} (h : o.isInterface = true) :
    ∃ doc, dataDecls m o = [.interface doc (m.typeName o.id) (o.slots.map (slotGetter m))] := by
  unfold dataDecls
  rw [members_eq, if_pos h, List.map_map]
  exact ⟨_, rfl⟩

theorem getter_mem_dataDecls {o : Object} {receiver name field : Text} {type : Code} :
    .getter receiver name type field ∈ dataDecls m o ↔
      o.isInterface = false ∧ receiver = m.typeName o.id ∧ ∃ a ∈ o.slots,
        fromInterface m a.origin = true ∧ name = Model.getterName a.name ∧ type = slotCode m a ∧
        field = Model.memberName a.name := by
  unfold dataDecls
  rw [members_eq]
  cases o.isInterface with
  | true => simp
  | false =>
    simp only [Bool.false_eq_true, if_false, List.mem_cons, reduceCtorEq, List.filter_map,
      List.map_map, List.mem_map, List.mem_filter, Function.comp_apply, Decl.getter.injEq, false_or,
      true_and]
    constructor
    · rintro ⟨a, ⟨ha, horigin⟩, rfl, rfl, rfl, rfl⟩
      exact ⟨rfl, a, ha, horigin, rfl, rfl, rfl⟩
    · rintro ⟨rfl, a, ha, horigin, rfl, rfl, rfl⟩
      exact ⟨a, ⟨ha, horigin⟩, rfl, rfl, rfl, rfl⟩

theorem getter_mem_decls {receiver name field : Text} {type : Code} :
    .getter receiver name type field ∈ decls m ↔
      ∃ o ∈ m.aggregates.filterMap m.object?, .getter receiver name type field ∈ dataDecls m o := by
  simp [decls, serializerDecl, objectDecls, codecDecl, encodeDecl, decodeDecl, decodeFieldDecl,
    readDecl, encodeArrayDecl, decodeArrayDecl]

theorem exists_of_generate {source code : Text} (h : generate m source = .ok code) :
    Model.clash? [] m.reservedNames = none ∧
      ∃ package, ({ file m source with package } : File).render = code := by
  cases hserializer : m.access == .anyone && m.serializer.isEmpty with
  | true => simp [generate, hserializer] at h
  | false =>
    cases hclash : Model.clash? [] m.reservedNames with
    | some clash => simp [generate, hserializer, hclash] at h
    | none =>
      rw [generate_of_clash?_eq_none hserializer hclash, formatted] at h
      split at h
      · cases h
      split at h
      · exact ⟨rfl, _, Except.ok.inj h⟩
      · cases h

theorem isOk_generate {source : Text} (hserializer : m.serializer.isEmpty = false)
    (hclash : Model.clash? [] m.reservedNames = none)
    (hpackage : (packageName? m.package).isSome = true) (hfits : fits m source = true) :
    (generate m source).isOk = true := by
  obtain ⟨package, hpackage⟩ := Option.isSome_iff_exists.mp hpackage
  rw [generate_of_clash?_eq_none (by simp [hserializer]) hclash, formatted, hpackage]
  simp only [hfits, if_true]
  rfl

/-! ## Getters -/

section Getters

variable {ds : List Schema.Declaration} {opt : ModelOptions} (h : Model.resolve ds opt = .ok m)
include h

theorem aggregated_of_makeTypes (hmake : opt.makeTypes = true) :
    m.aggregates.filterMap m.object? = m.objects := by
  have haggregates : m.aggregates = m.objects.map (·.id) := by
    obtain ⟨-, os, cs, -, rfl⟩ := Model.resolve_eq_ok_iff.mp h
    exact if_pos hmake
  rw [Model.aggregated_of_resolve h, haggregates]
  cases m.objects <;> rfl

theorem nodup_typeNames (hmake : opt.makeTypes = true)
    (hclash : Model.clash? [] m.reservedNames = none) :
    (m.serializerName :: m.objects.map fun o => m.typeName o.id).Nodup := by
  have hreserved := Model.perm_reservedNames (Model.aggregated_of_resolve h)
  have hnodup := hreserved.nodup_iff.mpr (Model.clash?_eq_none_iff.mp hclash).1
  rw [aggregated_of_makeTypes h hmake, ← List.map_eq_flatMap, ← List.cons_append] at hnodup
  exact (List.nodup_append.mp (List.nodup_append.mp hnodup).1).1

theorem eq_of_typeName (hmake : opt.makeTypes = true)
    (hclash : Model.clash? [] m.reservedNames = none) {o o' : Object} (ho : o ∈ m.objects)
    (ho' : o' ∈ m.objects) (htype : m.typeName o.id = m.typeName o'.id) : o = o' :=
  List.inj_on_of_nodup_map (List.nodup_cons.mp (nodup_typeNames h hmake hclash)).2 ho ho' htype

/-- A struct has getters exactly for its slots from interface-only objects. -/
theorem getter_mem_decls_iff (hmake : opt.makeTypes = true)
    (hclash : Model.clash? [] m.reservedNames = none) {i : Nat} {o : Object}
    (hi : m.objects[i]? = some o) (hconcrete : o.isInterface = false) {name field : Text}
    {type : Code} :
    .getter (m.typeName i) name type field ∈ decls m ↔ ∃ a ∈ o.slots,
      fromInterface m a.origin = true ∧ name = Model.getterName a.name ∧ type = slotCode m a ∧
      field = Model.memberName a.name := by
  have hid := Model.id_eq_of_resolve h hi
  rw [getter_mem_decls, aggregated_of_makeTypes h hmake]
  constructor
  · rintro ⟨o', ho', hgetter⟩
    obtain ⟨-, htype, hslot⟩ := getter_mem_dataDecls.mp hgetter
    rw [← hid] at htype
    obtain rfl := eq_of_typeName h hmake hclash (List.mem_of_getElem? hi) ho' htype
    exact hslot
  · intro hslot
    refine ⟨o, List.mem_of_getElem? hi, getter_mem_dataDecls.mpr ⟨hconcrete, ?_, hslot⟩⟩
    rw [hid]

theorem exists_object {i : Nat} {d : Schema.Declaration} (hd : ds[i]? = some d) :
    ∃ o, m.objects[i]? = some o ∧ o.isInterface = d.isInterface := by
  obtain ⟨hos, hlength⟩ := Model.arena_of_resolve h
  have hlt : i < m.objects.length := hlength ▸ (List.getElem?_eq_some_iff.mp hd).1
  have hi := List.getElem?_eq_getElem hlt
  obtain ⟨d', hd', -, -, hsame⟩ := hos.head hi
  obtain rfl : d = d' := Option.some.inj (hd.symm.trans hd')
  exact ⟨_, hi, hsame⟩

theorem fromInterface_iff {j : Nat} :
    fromInterface m j = true ↔ ∃ d, ds[j]? = some d ∧ d.isInterface = true := by
  obtain ⟨hos, hlength⟩ := Model.arena_of_resolve h
  unfold fromInterface Model.object?
  cases hj : m.objects[j]? with
  | none =>
    rw [List.getElem?_eq_none_iff, hlength] at hj
    simp [List.getElem?_eq_none hj]
  | some b =>
    obtain ⟨d, hd, -, -, hinterface⟩ := hos.head hj
    simp [hd, hinterface]

/-- Of the slots that a concrete object shares with a base, it has getters for those from
interface-only objects. -/
theorem exists_getter_iff (hmake : opt.makeTypes = true)
    (hclash : Model.clash? [] m.reservedNames = none) {i : Nat} {o : Object}
    (hi : m.objects[i]? = some o) (hconcrete : o.isInterface = false) {a : Slot} (ha : a ∈ o.slots) :
    (∃ field, .getter (m.typeName i) (slotGetter m a).name (slotGetter m a).type field ∈ decls m) ↔
      ∃ d, ds[a.origin]? = some d ∧ d.isInterface = true := by
  rw [← fromInterface_iff h]
  constructor
  · rintro ⟨field, hgetter⟩
    obtain ⟨b, hb, horigin, hname, -, -⟩ :=
      (getter_mem_decls_iff h hmake hclash hi hconcrete).mp hgetter
    -- a getter's name tells the slot, since no two slots of an object share a name
    have hexported : Names.exported a.name = Names.exported b.name := List.append_cancel_left hname
    obtain rfl := (Model.arena_of_resolve h).1.eq_of_clashes hi ha hb (.inr hexported)
    exact horigin
  · intro horigin
    exact ⟨_, (getter_mem_decls_iff h hmake hclash hi hconcrete).mpr ⟨a, ha, horigin, rfl, rfl, rfl⟩⟩

theorem exists_interface (hmake : opt.makeTypes = true) {j : Nat} {b : Object}
    (hj : m.objects[j]? = some b) (hinterface : b.isInterface = true) :
    ∃ doc, .interface doc (m.typeName j) (b.slots.map (slotGetter m)) ∈ decls m := by
  obtain ⟨doc, hdata⟩ := dataDecls_interface (m := m) hinterface
  rw [Model.id_eq_of_resolve h hj] at hdata
  refine ⟨doc, ?_⟩
  unfold decls
  refine List.mem_cons_of_mem _ (List.mem_append_left _ (List.mem_append_left _ ?_))
  rw [aggregated_of_makeTypes h hmake]
  exact List.mem_flatMap.mpr ⟨b, List.mem_of_getElem? hj, by simp [hdata]⟩

end Getters

/-- How the declarations of a model's file meet an interface among the bases of a concrete object. -/
structure Meets (ds : List Schema.Declaration) (m : Model) (i j : Nat) (methods : List Member) :
    Prop where
  /-- The interface lists a getter for every property that its object declares or inherits. -/
  listed : ∀ place p, Schema.Reaches ds j place p →
    ∃ method ∈ methods, method.name = Model.getterName p.name
  /-- A getter that it lists returns such a property, and the concrete object has it, by the same name
  and with the same result, exactly if an interface-only object declares the property. -/
  getter : ∀ method ∈ methods, ∃ place p, Schema.Reaches ds j place p ∧
    method.name = Model.getterName p.name ∧
    ((∃ field, .getter (m.typeName i) method.name method.type field ∈ decls m) ↔
      ∃ d, ds[place.1]? = some d ∧ d.isInterface = true)

theorem meets_of_resolve {ds : List Schema.Declaration} {opt : ModelOptions}
    (h : Model.resolve ds opt = .ok m) (hmake : opt.makeTypes = true)
    (hclash : Model.clash? [] m.reservedNames = none) {i j : Nat} {o b : Object}
    (hi : m.objects[i]? = some o) (hj : m.objects[j]? = some b) (hinherits : Schema.Inherits ds i j)
    (hconcrete : o.isInterface = false) :
    Meets ds m i j (b.slots.map (slotGetter m)) := by
  have hos := (Model.arena_of_resolve h).1
  have hnames := Model.names_nodup h
  constructor
  · intro place p hreaches
    obtain ⟨a, ha, -, hname⟩ := (hos.exists_slot_iff hnames hj).mpr ⟨place, p, hreaches, rfl, rfl⟩
    exact ⟨slotGetter m a, List.mem_map_of_mem ha, by rw [slotGetter, hname]⟩
  · intro method hmethod
    obtain ⟨a, ha, rfl⟩ := List.mem_map.mp hmethod
    obtain ⟨place, p, hreaches, horigin, hname⟩ :=
      (hos.exists_slot_iff hnames hj).mp ⟨a, ha, rfl, rfl⟩
    refine ⟨place, p, hreaches, by rw [slotGetter, hname], ?_⟩
    rw [horigin]
    exact exists_getter_iff h hmake hclash hi hconcrete
      (hos.mem_slots_of_inherits hnames hi hj hinherits ha)

/-- **Which getters implementors have.** In the file of a schema that is compiled with data types, for
every concrete object and every interface-only object among its bases at any distance, the getters
that the interface lists are those of its properties, and the concrete object has exactly those of
them that return a property declared by an interface-only object. -/
theorem getters_of_compile {schema code : Text} {opt : CompileOptions} {log : List Log.Event}
    (h : compile schema opt = (log, .ok code)) (hmake : opt.makeTypes = true) :
    ∃ ds options m package, Schema.parse schema = .ok ds ∧ options.makeTypes = true ∧
      Model.resolve ds options = .ok m ∧
      ({ file m opt.source with package } : File).render = code ∧
      ∀ i j d b, ds[i]? = some d → d.isInterface = false → ds[j]? = some b → b.isInterface = true →
        Schema.Inherits ds i j →
        ∃ doc methods, .interface doc (m.typeName j) methods ∈ decls m ∧ Meets ds m i j methods := by
  obtain ⟨_, _, _, ds, m, -, -, hparse, hresolve, hgenerate⟩ := compile_eq_ok_iff.mp ⟨log, h⟩
  obtain ⟨hclash, package, hrender⟩ := exists_of_generate hgenerate
  refine ⟨ds, _, m, package, hparse, hmake, hresolve, hrender, ?_⟩
  intro i j d b hd hconcrete hb hinterface hinherits
  obtain ⟨o, hi, hsame⟩ := exists_object hresolve hd
  obtain ⟨o', hj, hsame'⟩ := exists_object hresolve hb
  obtain ⟨doc, hmem⟩ := exists_interface hresolve hmake hj (hsame'.trans hinterface)
  exact ⟨doc, _, hmem,
    meets_of_resolve hresolve hmake hclash hi hj hinherits (hsame.trans hconcrete)⟩

/-! ## An interface with a concrete base -/

/-- A pin is placed, and what is placed is a point, which is an object of its own. -/
def pinText : Text := "Point\n- x: int\n\n:Placed: Point\n- label: string\n\nPin: Placed\n"

def pinOptions : CompileOptions := { qualifiedName := "maps.Codec", makeTypes := true }

/-- What `pinText` declares. -/
def pinSchema : List Schema.Declaration :=
  [{ name := "Point"
     properties := [{ key := "x", name := "x", type := "int", line := 2 }], line := 1 },
    { name := "Placed", isInterface := true, bases := ["Point"]
      properties := [{ key := "label", name := "label", type := "string", line := 5 }], line := 4 },
    { name := "Pin", bases := ["Placed"], line := 7 }]

def pins : Model where
  package := "maps"
  serializer := "Codec"
  access := .anyone
  objects :=
    let x : Field := ⟨"x", "x", .single (.scalar .int32), 0⟩
    let label : Field := ⟨"label", "label", .single (.scalar .string), 1⟩
    [⟨0, "Point", false, [x], none, []⟩, ⟨1, "Placed", true, [x, label], none, [0]⟩,
      ⟨2, "Pin", false, [x, label], none, [1]⟩]
  arrays := []
  aggregates := [0, 1, 2]

theorem parse_pinText : Schema.parse pinText = .ok pinSchema := by decide +kernel

theorem resolve_pinSchema :
    Model.resolve pinSchema { package := "maps", serializer := "Codec", makeTypes := true } =
      .ok pins := by
  have hnames : Resolve.checkNames [] pinSchema = .ok () := by decide +kernel
  have hobjects : Resolve.objects pinSchema [] [] pinSchema = .ok (pins.objects, pins.arrays) := by
    decide +kernel
  exact Model.resolve_eq_ok_iff.mpr ⟨hnames, _, _, hobjects, rfl⟩

theorem inherits_pinSchema : Schema.Inherits pinSchema 2 1 :=
  .single ⟨_, _, rfl, rfl, .head _⟩

theorem compile_pinText :
    ∃ log code, compile pinText pinOptions = (log, .ok code) ∧ generate pins [] = .ok code := by
  have hclass : Class.parse pinOptions.qualifiedName = .ok ("maps", "Codec") := by decide +kernel
  have hgenerate : (generate pins []).isOk = true :=
    isOk_generate rfl (by decide +kernel) (by decide +kernel) (by decide +kernel)
  exact exists_compile hclass rfl parse_pinText resolve_pinSchema hgenerate

/-- A pin and its interface, whose getters the compiled file declares. -/
theorem getters_of_compile_pinText :
    ∃ log code, compile pinText pinOptions = (log, .ok code) ∧ pinOptions.makeTypes = true ∧
      Schema.parse pinText = .ok pinSchema ∧ Schema.Inherits pinSchema 2 1 ∧
      ∃ options m package, options.makeTypes = true ∧ Model.resolve pinSchema options = .ok m ∧
        ({ file m pinOptions.source with package } : File).render = code ∧
        ∃ doc methods, .interface doc (m.typeName 1) methods ∈ decls m ∧
          Meets pinSchema m 2 1 methods := by
  obtain ⟨log, code, hcompile, -⟩ := compile_pinText
  obtain ⟨ds, options, m, package, hparse, hmake, hresolve, hrender, hgetters⟩ :=
    getters_of_compile hcompile rfl
  obtain rfl : pinSchema = ds := Except.ok.inj (parse_pinText.symm.trans hparse)
  exact ⟨log, code, hcompile, rfl, parse_pinText, inherits_pinSchema, options, m, package, hmake,
    hresolve, hrender, hgetters 2 1 _ _ rfl rfl rfl rfl inherits_pinSchema⟩

/-- Pins lack a getter that one of their interfaces lists: `Placed` has `x` from a concrete object. -/
theorem pin_lacks_getter :
    ∃ log code package, compile pinText pinOptions = (log, .ok code) ∧
      Schema.parse pinText = .ok pinSchema ∧ Schema.Inherits pinSchema 2 1 ∧
      ({ file pins [] with package } : File).render = code ∧
      (∃ doc methods, .interface doc "Placed" methods ∈ decls pins ∧
        ⟨"GetX", "*" ++ "int32"⟩ ∈ methods) ∧
      ∀ type field, .getter "Pin" "GetX" type field ∉ decls pins := by
  obtain ⟨log, code, hcompile, hgenerate⟩ := compile_pinText
  obtain ⟨hclash, package, hrender⟩ := exists_of_generate hgenerate
  refine ⟨log, code, package, hcompile, parse_pinText, inherits_pinSchema, hrender, ?_, ?_⟩
  · obtain ⟨doc, hinterface⟩ := exists_interface resolve_pinSchema rfl (j := 1) rfl rfl
    rw [show pins.typeName 1 = "Placed" by decide +kernel] at hinterface
    exact ⟨doc, _, hinterface, by decide +kernel⟩
  · intro type field hgetter
    rw [show "Pin" = pins.typeName 2 by decide +kernel,
      getter_mem_decls_iff resolve_pinSchema rfl hclash rfl rfl] at hgetter
    obtain ⟨a, ha, horigin, hname, -⟩ := hgetter
    -- a pin has `x`, which is not from an interface, and `label`, whose getter has another name
    have hslots : ∀ a ∈ (pins.objects[2]).slots,
        ¬(fromInterface pins a.origin = true ∧ "GetX" = Model.getterName a.name) := by
      decide +kernel
    exact hslots a ha ⟨horigin, hname⟩

end Source

end WireSchema
