import WireSchema.Proofs.Model.WellFormed
import WireSchema.Proofs.Source.References

/-!
# The declarations of a file

The names that the declarations of a generated file bind are the ones reserved beforehand, and every
method of the serializer that they refer to is among them.
-/

namespace WireSchema

namespace Model

def objectMethods (m : Model) (o : Object) : List Text :=
  [m.encodeName o.id, m.decodeName o.id, m.decodeFieldName o.id, m.readName o.id]

def arrayMethods (a : ArrayCodec) : List Text := [encodeArrayName a.id, decodeArrayName a.id]

/-- The name under which a method is reserved. -/
def dotted (name : Text) : Text := "." ++ name

end Model

namespace Source

/-! ## Bound names -/

/-- What a declaration binds: a name of the package, or a method of a type. -/
inductive Binding where
  | package (name : Text)
  | method (receiver name : Text)
  deriving DecidableEq, Repr

def Decl.binding : Decl → Binding
  | .marker _ name => .package name
  | .interface _ name _ => .package name
  | .struct _ name _ => .package name
  | .variable _ name _ _ => .package name
  | .getter receiver name _ _ => .method receiver name
  | .method _ receiver name _ _ => .method receiver name

def packageNames (ds : List Decl) : List Text :=
  ds.filterMap fun d =>
    match d.binding with
    | .package name => some name
    | .method _ _ => none

def methodNames (receiver : Text) (ds : List Decl) : List Text :=
  ds.filterMap fun d =>
    match d.binding with
    | .package _ => none
    | .method r name => if r = receiver then some name else none

/-! ## What each group of declarations binds -/

variable {m : Model}

theorem packageNames_append (l l' : List Decl) :
    packageNames (l ++ l') = packageNames l ++ packageNames l' :=
  List.filterMap_append

theorem methodNames_append (receiver : Text) (l l' : List Decl) :
    methodNames receiver (l ++ l') = methodNames receiver l ++ methodNames receiver l' :=
  List.filterMap_append

theorem packageNames_flatMap {α : Type} (l : List α) (f : α → List Decl) :
    packageNames (l.flatMap f) = l.flatMap fun a => packageNames (f a) :=
  List.filterMap_flatMap

theorem methodNames_flatMap {α : Type} (receiver : Text) (l : List α) (f : α → List Decl) :
    methodNames receiver (l.flatMap f) = l.flatMap fun a => methodNames receiver (f a) :=
  List.filterMap_flatMap

theorem packageNames_dataDecls (o : Object) : packageNames (dataDecls m o) = [m.typeName o.id] := by
  unfold dataDecls
  cases o.isInterface with
  | true => rfl
  | false => simp [packageNames, List.filterMap_map, Decl.binding]

theorem methodNames_dataDecls {o : Object} {receiver : Text} (h : m.typeName o.id ≠ receiver) :
    methodNames receiver (dataDecls m o) = [] := by
  unfold dataDecls
  cases o.isInterface with
  | true => rfl
  | false => simp [methodNames, List.filterMap_map, Decl.binding, h]

theorem methodNames_objectDecls (o : Object) :
    methodNames m.serializerName (objectDecls m o) = m.objectMethods o := by
  simp [methodNames, objectDecls, codecDecl, encodeDecl, decodeDecl, decodeFieldDecl, readDecl,
    Decl.binding, Model.objectMethods]

theorem methodNames_arrayDecls (a : ArrayCodec) :
    methodNames m.serializerName [encodeArrayDecl m a, decodeArrayDecl m a] =
      Model.arrayMethods a := by
  simp [methodNames, encodeArrayDecl, decodeArrayDecl, Decl.binding, Model.arrayMethods]

theorem packageNames_decls (m : Model) : packageNames (decls m) = m.serializerName ::
    ((m.aggregates.filterMap m.object?).flatMap (fun o => [m.typeName o.id]) ++
      (m.objects.filter fun o => !o.isInterface).flatMap fun o => [m.codecVar o.id]) := by
  have hobject (o : Object) : packageNames (objectDecls m o) = [m.codecVar o.id] := rfl
  have harray (a : ArrayCodec) : packageNames [encodeArrayDecl m a, decodeArrayDecl m a] = [] := rfl
  have hcons : packageNames (decls m) = m.serializerName :: packageNames (decls m).tail := rfl
  rw [hcons, decls, List.tail_cons, packageNames_append, packageNames_append, packageNames_flatMap,
    packageNames_flatMap, packageNames_flatMap]
  simp [packageNames_dataDecls, hobject, harray]

/-- The methods of the serializer, as long as no data type has its name. -/
theorem methodNames_decls {m : Model}
    (h : ∀ o ∈ m.aggregates.filterMap m.object?, m.typeName o.id ≠ m.serializerName) :
    methodNames m.serializerName (decls m) =
      (m.objects.filter fun o => !o.isInterface).flatMap m.objectMethods ++
        m.arrays.flatMap Model.arrayMethods := by
  have hdata : (m.aggregates.filterMap m.object?).flatMap
      (fun o => methodNames m.serializerName (dataDecls m o)) = [] :=
    List.flatMap_eq_nil_iff.mpr fun o ho => methodNames_dataDecls (h o ho)
  have hcons : methodNames m.serializerName (decls m) =
      methodNames m.serializerName (decls m).tail := rfl
  rw [hcons, decls, List.tail_cons, methodNames_append, methodNames_append, methodNames_flatMap,
    methodNames_flatMap, methodNames_flatMap, hdata]
  simp only [methodNames_objectDecls, methodNames_arrayDecls, List.nil_append]

end Source

namespace Model

/-! ## Reservations -/

theorem clash?_eq_none_iff {taken l : List (Text × Text)} :
    clash? taken l = none ↔ (l.map (·.1)).Nodup ∧ ∀ x ∈ l, x.1 ∉ taken.map (·.1) := by
  induction l generalizing taken with
  | nil => simp [clash?]
  | cons x l ih =>
    obtain ⟨ident, what⟩ := x
    unfold clash?
    split
    · rename_i t previous hfind
      have hident : t = ident := by simpa using List.find?_some hfind
      have hmem : ident ∈ taken.map (·.1) :=
        List.mem_map.mpr ⟨_, List.mem_of_find?_eq_some hfind, hident⟩
      simp only [reduceCtorEq, false_iff]
      rintro ⟨-, hnew⟩
      exact hnew (ident, what) (by simp) hmem
    · rename_i hfind
      have hident : ident ∉ taken.map (·.1) := by
        rintro hmem
        obtain ⟨x, hx, rfl⟩ := List.mem_map.mp hmem
        exact List.find?_eq_none.mp hfind x hx (by simp)
      rw [ih, List.map_cons, List.map_cons, List.nodup_cons]
      constructor
      · rintro ⟨hnodup, hnew⟩
        refine ⟨⟨fun hmem => ?_, hnodup⟩, List.forall_mem_cons.mpr ⟨hident, fun x hx => ?_⟩⟩
        · obtain ⟨x, hx, heq⟩ := List.mem_map.mp hmem
          exact hnew x hx (heq ▸ List.mem_cons_self)
        · exact fun hmem => hnew x hx (List.mem_cons_of_mem _ hmem)
      · rintro ⟨⟨hfirst, hnodup⟩, hnew⟩
        refine ⟨hnodup, fun x hx hmem => ?_⟩
        rcases List.mem_cons.mp hmem with heq | hmem
        · exact hfirst (List.mem_map.mpr ⟨x, hx, heq⟩)
        · exact hnew x (List.mem_cons_of_mem _ hx) hmem

theorem flatMap_concrete {α : Type} (f : Object → List α) (os : List Object) :
    (os.filter fun o => !o.isInterface).flatMap f =
      os.flatMap fun o => if o.isInterface then [] else f o := by
  induction os with
  | nil => rfl
  | cons o os ih => cases h : o.isInterface <;> simp [h, ih]

/-- The names reserved are those of the serializer, the data types and the codecs, and the methods
with a dot in front. -/
theorem perm_reservedNames {m : Model}
    (h : m.aggregates.filterMap m.object? = if m.aggregates.isEmpty then [] else m.objects) :
    (m.serializerName ::
      ((m.aggregates.filterMap m.object?).flatMap (fun o => [m.typeName o.id]) ++
        (m.objects.filter fun o => !o.isInterface).flatMap fun o => [m.codecVar o.id]) ++
      ((m.objects.filter fun o => !o.isInterface).flatMap m.objectMethods ++
        m.arrays.flatMap arrayMethods).map dotted).Perm (m.reservedNames.map (·.1)) := by
  have htypes : (m.aggregates.filterMap m.object?).flatMap (fun o => [m.typeName o.id]) =
      m.objects.flatMap fun o => if m.aggregates.isEmpty then [] else [m.typeName o.id] := by
    rw [h]
    cases m.aggregates.isEmpty <;> simp
  have hmethods : ((m.objects.filter fun o => !o.isInterface).flatMap m.objectMethods).map dotted =
      m.objects.flatMap fun o => if o.isInterface then [] else (m.objectMethods o).map dotted := by
    rw [List.map_flatMap, flatMap_concrete]
  have harrays : (m.arrays.flatMap arrayMethods).map dotted =
      (m.arrays.flatMap m.arrayNames).map (·.1) := by
    rw [List.map_flatMap, List.map_flatMap]
    rfl
  have hobject (o : Object) : ((if m.aggregates.isEmpty then [] else [m.typeName o.id]) ++
      ((if o.isInterface then [] else [m.codecVar o.id]) ++
        if o.isInterface then [] else (m.objectMethods o).map dotted)).Perm
      ((m.objectNames o).map (·.1)) := by
    unfold objectNames
    rw [List.map_append, apply_ite (List.map _), apply_ite (List.map _)]
    refine .append_left _ ?_
    cases o.isInterface with
    | true => exact .refl _
    | false => exact .cons _ (.cons _ (.cons _ (.swap _ _ _)))
  have hobjects := ((List.flatMap_append_perm m.objects _ _).append_left _).trans
    ((List.flatMap_append_perm m.objects _ _).trans (.flatMap_left _ fun o _ => hobject o))
  rw [← List.map_flatMap] at hobjects
  rw [htypes, flatMap_concrete, List.map_append, hmethods, harrays, reservedNames, List.map_cons,
    List.map_append]
  simpa only [List.cons_append, List.append_assoc] using (hobjects.append_right _).cons _

variable {ds : List Schema.Declaration} {opt : ModelOptions} {m : Model}

/-- Data types are emitted for all objects or for none. -/
theorem aggregated_of_resolve (h : resolve ds opt = .ok m) :
    m.aggregates.filterMap m.object? = if m.aggregates.isEmpty then [] else m.objects := by
  have haggregates : m.aggregates = if opt.makeTypes then m.objects.map (·.id) else [] := by
    obtain ⟨-, os, cs, -, rfl⟩ := resolve_eq_ok_iff.mp h
    rfl
  have hobject : ∀ o ∈ m.objects, m.object? o.id = some o := by
    intro o ho
    obtain ⟨i, hi⟩ := List.mem_iff_getElem?.mp ho
    rw [object?, id_eq_of_resolve h hi]
    exact hi
  have hall : (m.objects.map (·.id)).filterMap m.object? = m.objects := by
    rw [List.filterMap_map]
    exact (List.filterMap_congr hobject).trans List.filterMap_some
  rw [haggregates]
  cases opt.makeTypes with
  | true =>
    rw [if_pos rfl, hall]
    cases m.objects <;> simp
  | false => rfl

/-! ## Closed files -/

variable {onObject : Nat → Text} {onArray : Text → Text} {names : List Text}

theorem mem_of_elemCallees (h : resolve ds opt = .ok m)
    (hobject : ∀ b ∈ m.objects, b.isInterface = false → onObject b.id ∈ names) {o : Object}
    (ho : o ∈ m.objects) {a : Slot} (ha : a ∈ o.slots) :
    ∀ name ∈ Source.elemCallees onObject a.elem, name ∈ names := by
  intro name hname
  cases helem : a.elem with
  | scalar s => simp [helem, Source.elemCallees] at hname
  | object id =>
    obtain ⟨hos, hlength⟩ := arena_of_resolve h
    obtain ⟨b, hb, hconcrete⟩ := hos.concrete_of_elem hlength ho ha helem
    obtain rfl : name = onObject id := by simpa [helem, Source.elemCallees] using hname
    rw [← id_eq_of_resolve h hb]
    exact hobject b (List.mem_of_getElem? hb) hconcrete

/-- What a concrete object calls for is there, if it is there for all concrete objects and for all
arrays. -/
theorem mem_of_callees (h : resolve ds opt = .ok m)
    (hobject : ∀ b ∈ m.objects, b.isInterface = false → onObject b.id ∈ names)
    (harray : ∀ c ∈ m.arrays, onArray c.id ∈ names) {o : Object} (ho : o ∈ m.objects)
    (hconcrete : o.isInterface = false) :
    ∀ name ∈ Source.callees onObject onArray o, name ∈ names := by
  intro name hname
  rcases List.mem_append.mp hname with hname | hname
  · obtain ⟨f, hf, hname⟩ := List.mem_flatMap.mp hname
    cases htype : f.type with
    | single elem =>
      have hslot : f.slot ∈ o.slots := List.mem_append_left _ (List.mem_map_of_mem hf)
      have helem : f.slot.elem = elem := by rw [Field.slot, htype]
      rw [htype, Source.fieldCallees, ← helem] at hname
      exact mem_of_elemCallees h hobject ho hslot name hname
    | array elem codec =>
      obtain rfl : name = onArray codec := by simpa [htype, Source.fieldCallees] using hname
      exact harray _ ((catalogue_of_resolve h).mem ho hconcrete hf (Field.codec?_of_array htype))
  · obtain ⟨w, hw, hname⟩ := List.mem_flatMap.mp hname
    have hslot : w.slot ∈ o.slots := List.mem_append_right _ (List.mem_map_of_mem hw)
    exact mem_of_elemCallees h hobject ho hslot name hname

theorem exists_slot_of_mem_arrays (h : resolve ds opt = .ok m) {c : ArrayCodec}
    (hc : c ∈ m.arrays) : ∃ o ∈ m.objects, ∃ a ∈ o.slots, a.elem = c.elem := by
  rw [(catalogue_of_resolve h).codecs, List.mem_flatMap] at hc
  obtain ⟨o, ho, hc⟩ := hc
  obtain ⟨-, f, hf, hcodec⟩ := Object.mem_codecs.mp hc
  obtain ⟨htype, -, -⟩ := Field.array_of_codec? hcodec
  exact ⟨o, ho, f.slot, List.mem_append_left _ (List.mem_map_of_mem hf), by rw [Field.slot, htype]⟩

end Model

namespace Source

variable {ds : List Schema.Declaration} {opt : ModelOptions} {m : Model}

theorem mem_methodNames_of_references (h : Model.resolve ds opt = .ok m)
    (htypes : ∀ o ∈ m.aggregates.filterMap m.object?, m.typeName o.id ≠ m.serializerName) {d : Decl}
    (hd : d ∈ decls m) : ∀ name ∈ d.references, name ∈ methodNames m.serializerName (decls m) := by
  rw [methodNames_decls htypes]
  generalize hnames : (m.objects.filter fun o => !o.isInterface).flatMap m.objectMethods ++
    m.arrays.flatMap Model.arrayMethods = names
  have hmethod (o : Object) (ho : o ∈ m.objects) (hconcrete : o.isInterface = false) :
      ∀ name ∈ m.objectMethods o, name ∈ names := by
    intro name hname
    rw [← hnames, List.mem_append, List.mem_flatMap]
    exact .inl ⟨o, by simp [ho, hconcrete], hname⟩
  have harray (c : ArrayCodec) (hc : c ∈ m.arrays) :
      ∀ name ∈ Model.arrayMethods c, name ∈ names := by
    intro name hname
    rw [← hnames, List.mem_append, List.mem_flatMap, List.mem_flatMap]
    exact .inr ⟨c, hc, hname⟩
  have hencode (o : Object) (ho : o ∈ m.objects) (hconcrete : o.isInterface = false) :
      m.encodeName o.id ∈ names := hmethod o ho hconcrete _ (by simp [Model.objectMethods])
  have hdecode (o : Object) (ho : o ∈ m.objects) (hconcrete : o.isInterface = false) :
      m.decodeName o.id ∈ names := hmethod o ho hconcrete _ (by simp [Model.objectMethods])
  simp only [decls, List.mem_cons, List.mem_append, List.mem_flatMap, List.mem_filter,
    Bool.not_eq_eq_eq_not, Bool.not_true] at hd
  rcases hd with rfl | (⟨o, -, hd⟩ | ⟨o, ⟨ho, hconcrete⟩, hd⟩) | ⟨c, hc, hd⟩
  · simp [serializerDecl, Decl.references]
  · simp [references_dataDecls m hd]
  · simp only [objectDecls, List.mem_cons, List.not_mem_nil, or_false] at hd
    rcases hd with rfl | rfl | rfl | rfl | rfl
    · rw [references_codecDecl]
      simpa using ⟨hencode o ho hconcrete, hdecode o ho hconcrete⟩
    · rw [references_encodeDecl]
      exact Model.mem_of_callees h hencode
        (fun c hc => harray c hc _ (by simp [Model.arrayMethods])) ho hconcrete
    · rw [references_decodeDecl]
      simpa using hmethod o ho hconcrete _ (by simp [Model.objectMethods])
    · rw [references_decodeFieldDecl]
      exact Model.mem_of_callees h hdecode
        (fun c hc => harray c hc _ (by simp [Model.arrayMethods])) ho hconcrete
    · rw [references_readDecl]
      simpa using hdecode o ho hconcrete
  · obtain ⟨o, ho, a, ha, helem⟩ := Model.exists_slot_of_mem_arrays h hc
    simp only [List.not_mem_nil, or_false] at hd
    rcases hd with rfl | rfl
    · rw [references_encodeArrayDecl, ← helem]
      exact Model.mem_of_elemCallees h hencode ho ha
    · rw [references_decodeArrayDecl, ← helem]
      exact Model.mem_of_elemCallees h hdecode ho ha

/-- The file declares the names that its model reserves, each once, and it is closed: every method
of the serializer that it refers to is declared in it. -/
structure File.Closed (f : File) (m : Model) : Prop where
  reserved : (packageNames f.decls ++ (methodNames m.serializerName f.decls).map Model.dotted).Perm
    (m.reservedNames.map (·.1))
  package : (packageNames f.decls).Nodup
  methods : (methodNames m.serializerName f.decls).Nodup
  references : ∀ d ∈ f.decls, ∀ name ∈ d.references, name ∈ methodNames m.serializerName f.decls

/-- The file of a model from a schema is closed unless a name is reserved twice. -/
theorem file_closed (h : Model.resolve ds opt = .ok m)
    (hnone : Model.clash? [] m.reservedNames = none) (source : Text) :
    (file m source).Closed m := by
  have hreserved := Model.perm_reservedNames (Model.aggregated_of_resolve h)
  have hnodup := hreserved.nodup_iff.mpr (Model.clash?_eq_none_iff.mp hnone).1
  rw [List.nodup_append] at hnodup
  obtain ⟨hpackage, hmethods, -⟩ := hnodup
  -- The name of the serializer comes first among the names of the package, so no type has it.
  have htypes : ∀ o ∈ m.aggregates.filterMap m.object?, m.typeName o.id ≠ m.serializerName := by
    intro o ho heq
    refine (List.nodup_cons.mp hpackage).1 (List.mem_append_left _ ?_)
    exact List.mem_flatMap.mpr ⟨o, ho, by simp [heq]⟩
  rw [← packageNames_decls, ← methodNames_decls htypes] at hreserved
  rw [← packageNames_decls] at hpackage
  rw [← methodNames_decls htypes] at hmethods
  exact ⟨hreserved, hpackage, hmethods.of_map, fun d hd =>
    mem_methodNames_of_references h htypes hd⟩

def forkOptions : ModelOptions where
  package := "shop"
  serializer := "Codec"
  access := .packageOnly
  makeTypes := true

/-- Data types, getters and inherited arrays for the fork, under names that begin small. -/
theorem file_closed_fork :
    Model.resolve Model.forkSchema forkOptions = .ok (Model.forks forkOptions) ∧
      Model.clash? [] (Model.forks forkOptions).reservedNames = none ∧
      (file (Model.forks forkOptions) "fork.schema").Closed (Model.forks forkOptions) := by
  have hnone : Model.clash? [] (Model.forks forkOptions).reservedNames = none := by decide +kernel
  exact ⟨Model.resolve_forkSchema _, hnone, file_closed (Model.resolve_forkSchema _) hnone _⟩

end Source

end WireSchema
