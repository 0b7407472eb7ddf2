import WireSchema.Proofs.Model.ArrayCodecs
import WireSchema.Proofs.Model.Inheritance

/-!
# Well-formed models

What holds of every model that comes from a schema, whatever the declarations were: positions, names
and references fit together, no object has two slots that clash, and codecs and arrays of concrete
objects correspond to each other.
-/

namespace WireSchema

namespace Resolve

variable {ds : List Schema.Declaration} {os : List Object} {cs : List ArrayCodec}

theorem Arena.concrete_of_elem (hos : Arena ds os) (hlength : os.length = ds.length) {o : Object}
    (ho : o ∈ os) {a : Slot} (ha : a ∈ o.slots) {id : Nat} (helem : a.elem = .object id) :
    ∃ b, os[id]? = some b ∧ b.isInterface = false := by
  obtain ⟨i, hi⟩ := List.mem_iff_getElem?.mp ho
  obtain ⟨place, p, -, elem, hdenotes, rfl⟩ := hos.reaches_of_mem_slots hi ha
  obtain rfl : elem = .object id := helem
  obtain ⟨-, d, hd, -, hconcrete⟩ := hdenotes
  have hlt : id < os.length := hlength ▸ (List.getElem?_eq_some_iff.mp hd).1
  have hid := List.getElem?_eq_getElem hlt
  obtain ⟨decl, hdecl, -, -, hinterface⟩ := hos.head hid
  obtain rfl : d = decl := Option.some.inj (hd.symm.trans hdecl)
  exact ⟨_, hid, hinterface.trans hconcrete⟩

theorem Arena.pairwise_slots (hos : Arena ds os) {o : Object} (ho : o ∈ os) :
    o.slots.Pairwise fun a b => ¬a.Clashes b := by
  obtain ⟨i, hi⟩ := List.mem_iff_getElem?.mp ho
  obtain ⟨decl, bases, own, -, hgathers⟩ := hos i o hi
  exact hgathers.has.pairwise

theorem Arena.position_unique (hos : Arena ds os) {o : Object} (ho : o ∈ os) {k k' : Nat}
    {f f' : Field} (hk : o.fields[k]? = some f) (hk' : o.fields[k']? = some f')
    (hname : f.name = f'.name) : k = k' := by
  have hfields : o.fields.Pairwise fun f g => ¬f.slot.Clashes g.slot :=
    List.pairwise_map.mp (List.pairwise_append.mp (hos.pairwise_slots ho)).1
  have hnodup : (o.fields.map (·.name)).Nodup := by
    refine List.pairwise_map.mpr (hfields.imp fun hne heq => hne (.inr ?_))
    rw [Field.slot_name, Field.slot_name, heq]
  have hlt : k < (o.fields.map (·.name)).length := by
    rw [List.length_map]
    exact (List.getElem?_eq_some_iff.mp hk).1
  refine (List.getElem?_inj hlt hnodup).mp ?_
  rw [List.getElem?_map, List.getElem?_map, hk, hk']
  simp [hname]

theorem Catalogue.mem (h : Catalogue os cs) {o : Object} (ho : o ∈ os)
    (hconcrete : o.isInterface = false) {f : Field} (hf : f ∈ o.fields) {c : ArrayCodec}
    (hc : f.codec? o.id = some c) : c ∈ cs := by
  rw [h.codecs, List.mem_flatMap]
  exact ⟨o, ho, Object.mem_codecs.mpr ⟨hconcrete, f, hf, hc⟩⟩

theorem Catalogue.eq_of_id (h : Catalogue os cs) {c c' : ArrayCodec} (hc : c ∈ cs) (hc' : c' ∈ cs)
    (hid : c.id = c'.id) : c = c' :=
  List.inj_on_of_nodup_map h.distinct hc hc' hid

end Resolve

namespace Model

/-- The array at a place, the position of its object and its own there, has that codec. -/
def Carries (m : Model) (place : Nat × Nat) (codec : Text) : Prop :=
  ∃ o f elem, m.objects[place.1]? = some o ∧ o.fields[place.2]? = some f ∧
    f.type = .array elem codec

/-- Names, references, slots and codecs of the model fit together. -/
structure WellFormed (m : Model) : Prop where
  ids : ∀ (i : Nat) (o : Object), m.objects[i]? = some o → o.id = i
  typeNames : (m.objects.map Object.typeName).Nodup
  identifiers : ∀ o ∈ m.objects, Names.isIdentifier o.typeName = true
  bases : ∀ o ∈ m.objects, ∀ id ∈ o.bases, id < o.id
  references : ∀ o ∈ m.objects, ∀ a ∈ o.slots, ∀ id, a.elem = .object id →
    ∃ b, m.objects[id]? = some b ∧ b.isInterface = false
  keys : ∀ o ∈ m.objects, (o.slots.map (·.key)).Nodup
  ordinary : ∀ o ∈ m.objects, ∀ f ∈ o.fields, f.key ≠ "*"
  names : ∀ o ∈ m.objects, (o.slots.map fun a => Names.exported a.name).Nodup
  codecs : (m.arrays.map (·.id)).Nodup
  /-- An array of a concrete object has the one codec with its identifier, made for it. -/
  arrays : ∀ o ∈ m.objects, o.isInterface = false → ∀ f ∈ o.fields, ∀ elem codec,
    f.type = .array elem codec → ⟨codec, o.id, f.name, elem⟩ ∈ m.arrays ∧
      ∀ c ∈ m.arrays, c.id = codec → c = ⟨codec, o.id, f.name, elem⟩
  carried : ∀ c ∈ m.arrays, ∃! place, m.Carries place c.id
  interfaces : ∀ o ∈ m.objects, o.isInterface = true → ∀ f ∈ o.fields, ∀ elem codec,
    f.type = .array elem codec → codec = []

variable {ds : List Schema.Declaration} {opt : ModelOptions} {m : Model}

theorem id_eq_of_resolve (h : resolve ds opt = .ok m) {i : Nat} {o : Object}
    (hi : m.objects[i]? = some o) : o.id = i := by
  obtain ⟨-, -, hid, -⟩ := (arena_of_resolve h).1.head hi
  exact hid

theorem map_typeName_of_resolve (h : resolve ds opt = .ok m) :
    m.objects.map Object.typeName = ds.map fun d => Names.lastSegment d.name := by
  obtain ⟨hos, hlength⟩ := arena_of_resolve h
  refine List.ext_getElem? fun i => ?_
  rw [List.getElem?_map, List.getElem?_map]
  cases hi : m.objects[i]? with
  | none =>
    rw [List.getElem?_eq_none_iff, hlength] at hi
    rw [List.getElem?_eq_none hi]
    rfl
  | some o =>
    obtain ⟨decl, hdecl, -, hname, -⟩ := hos.head hi
    simp [hdecl, Object.typeName, hname]

theorem existsUnique_carries (h : resolve ds opt = .ok m) {c : ArrayCodec} (hc : c ∈ m.arrays) :
    ∃! place, m.Carries place c.id := by
  have hcs := catalogue_of_resolve h
  have hmem := hc
  rw [hcs.codecs, List.mem_flatMap] at hmem
  obtain ⟨o, ho, hmem⟩ := hmem
  obtain ⟨-, f, hf, hfc⟩ := Object.mem_codecs.mp hmem
  obtain ⟨htype, howner, hfield⟩ := Field.array_of_codec? hfc
  obtain ⟨i, hi⟩ := List.mem_iff_getElem?.mp ho
  obtain ⟨k, hk⟩ := List.mem_iff_getElem?.mp hf
  refine ⟨(i, k), ⟨o, f, c.elem, hi, hk, htype⟩, ?_⟩
  rintro ⟨i', k'⟩ ⟨o', f', elem, hi', hk', htype'⟩
  dsimp only at hi' hk'
  have ho' := List.mem_of_getElem? hi'
  have hf' := List.mem_of_getElem? hk'
  have hfc' : f'.codec? o'.id = some ⟨c.id, o'.id, f'.name, elem⟩ := Field.codec?_of_array htype'
  -- An interface's arrays have no identifier, and every codec has one.
  have hconcrete : o'.isInterface = false := by
    rw [← Bool.not_eq_true]
    intro hinterface
    have hempty := hcs.bare o' ho' hinterface f' hf' _ hfc'
    exact hcs.named c hc hempty
  have heq := hcs.eq_of_id (hcs.mem ho' hconcrete hf' hfc') hc rfl
  have hid : o'.id = o.id := (congrArg ArrayCodec.owner heq).trans howner
  obtain rfl : i' = i := by rw [← id_eq_of_resolve h hi', ← id_eq_of_resolve h hi, hid]
  obtain rfl : o' = o := Option.some.inj (hi'.symm.trans hi)
  have hname : f'.name = f.name := (congrArg ArrayCodec.field heq).trans hfield
  rw [(arena_of_resolve h).1.position_unique ho hk' hk hname]

/-- Every resolved model is well formed, and its dictionaries are declared as such. -/
theorem wellFormed_of_resolve (h : resolve ds opt = .ok m) :
    m.WellFormed ∧ ∀ o ∈ m.objects, ∀ w, o.wildcard = some w → ∃ decl p,
      ds[w.origin]? = some decl ∧ p ∈ decl.properties ∧ p.key = "*" ∧ p.isDictionary = true ∧
        p.name = w.name ∧ Schema.Denotes ds p.type w.elem := by
  obtain ⟨hos, hlength⟩ := arena_of_resolve h
  have hcs := catalogue_of_resolve h
  obtain ⟨hidentifiers, hnodup⟩ := names_of_resolve h
  have htypes := map_typeName_of_resolve h
  refine ⟨⟨fun i o => id_eq_of_resolve h, htypes ▸ hnodup, ?_, ?_, ?_, ?_, ?_, ?_, hcs.distinct, ?_,
    fun c => existsUnique_carries h, ?_⟩, ?_⟩
  · intro o ho
    have hmem : o.typeName ∈ m.objects.map Object.typeName := List.mem_map_of_mem ho
    rw [htypes, List.mem_map] at hmem
    obtain ⟨d, hd, hname⟩ := hmem
    rw [← hname]
    exact hidentifiers d hd
  · intro o ho id hid
    obtain ⟨i, hi⟩ := List.mem_iff_getElem?.mp ho
    obtain ⟨decl, bases, own, -, hgathers⟩ := hos i o hi
    obtain ⟨hoid, -, -, hbases⟩ := hgathers.head_eq
    rw [hbases, List.mem_map] at hid
    obtain ⟨b, hb, rfl⟩ := hid
    obtain ⟨k, hk⟩ := List.mem_iff_getElem?.mp hb
    obtain ⟨name, -, j, hlt, -, hj⟩ := getElem?_of_forall₂ hgathers.finds.flip hk
    rw [id_eq_of_resolve h hj, hoid]
    exact hlt
  · intro o ho a ha id helem
    exact hos.concrete_of_elem hlength ho ha helem
  · intro o ho
    exact List.pairwise_map.mpr ((hos.pairwise_slots ho).imp fun hne hkey => hne (.inl hkey))
  · intro o ho f hf hkey
    have hkeyed := hos.keyed o ho f.slot (List.mem_append_left _ (List.mem_map_of_mem hf))
    simpa using hkeyed.mpr (by rw [Field.slot_key, hkey])
  · intro o ho
    exact List.pairwise_map.mpr ((hos.pairwise_slots ho).imp fun hne hname => hne (.inr hname))
  · intro o ho hconcrete f hf elem codec htype
    have hmem := hcs.mem ho hconcrete hf (Field.codec?_of_array htype)
    exact ⟨hmem, fun c hc hid => hcs.eq_of_id hc hmem hid⟩
  · intro o ho hinterface f hf elem codec htype
    exact hcs.bare o ho hinterface f hf _ (Field.codec?_of_array htype)
  · intro o ho w hw
    obtain ⟨i, hi⟩ := List.mem_iff_getElem?.mp ho
    have hmem : w.slot ∈ o.slots := List.mem_append_right _ (by simp [hw])
    obtain ⟨⟨j, k⟩, p, ⟨-, hp⟩, elem, helem, hslot⟩ := hos.reaches_of_mem_slots hi hmem
    obtain ⟨decl, hdecl, hk⟩ := Option.bind_eq_some_iff.mp hp
    have hdictionary : p.isDictionary = true := by
      rw [← Schema.Property.slot_isDictionary p j elem, ← hslot]
      rfl
    simp only [Wildcard.slot, Schema.Property.slot, Slot.mk.injEq] at hslot
    obtain ⟨hkey, hname, -, hwelem, horigin⟩ := hslot
    exact ⟨decl, p, horigin ▸ hdecl, List.mem_of_getElem? hk, hkey.symm, hdictionary, hname.symm,
      hwelem ▸ helem⟩

/-- A model with a fork in its hierarchy, with inherited arrays, and with a dictionary. -/
theorem wellFormed_forks : resolve forkSchema {} = .ok (forks {}) ∧ (forks {}).WellFormed :=
  ⟨resolve_forkSchema {}, (wellFormed_of_resolve (resolve_forkSchema {})).1⟩

end Model

end WireSchema
