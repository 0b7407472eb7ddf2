import Mathlib.Data.List.Nodup
import WireSchema.Proofs.Model.Resolution

/-!
# Inheritance

The fields of a resolved object are those of its bases followed by its own, each once. Following the
bases to their ends, its slots are, one by one, the declared ones of all properties that it declares
or inherits.
-/

namespace WireSchema

namespace Schema

variable {ds : List Declaration} (hnames : (ds.map (·.name)).Nodup)
include hnames

theorem eq_of_name {i j : Nat} {d b : Declaration} (hi : ds[i]? = some d) (hj : ds[j]? = some b)
    (h : d.name = b.name) : i = j := by
  have hlt := (List.getElem?_eq_some_iff.mp hi).1
  refine (List.getElem?_inj (by simpa using hlt) hnames).mp ?_
  rw [List.getElem?_map, List.getElem?_map, hi, hj]
  simp [h]

theorem Denotes.unique {t : Text} {e e' : ElemType} (h : Denotes ds t e) (h' : Denotes ds t e') :
    e = e' := by
  cases e with
  | scalar s =>
    cases e' with
    | scalar s' => exact congrArg _ (Option.some.inj (h.symm.trans h'))
    | object id' => exact absurd (h.symm.trans h'.1) (by simp)
  | object id =>
    cases e' with
    | scalar s' => exact absurd (h'.symm.trans h.1) (by simp)
    | object id' =>
      obtain ⟨-, d, hd, hname, -⟩ := h
      obtain ⟨-, d', hd', hname', -⟩ := h'
      rw [eq_of_name hnames hd hd' (hname.trans hname'.symm)]

theorem Declares.unique {origin : Nat} {p : Property} {a a' : Slot} (h : Declares ds origin p a)
    (h' : Declares ds origin p a') : a = a' := by
  obtain ⟨elem, helem, rfl⟩ := h
  obtain ⟨elem', helem', rfl⟩ := h'
  rw [helem.unique hnames helem']

end Schema

namespace Resolve

variable {ds : List Schema.Declaration}

theorem position?_eq_some {name : Text} {i : Nat} (h : position? ds name = some i) :
    ∃ d, ds[i]? = some d ∧ d.name = name := by
  obtain ⟨hlt, hname, -⟩ := List.findIdx?_eq_some_iff_getElem.mp h
  exact ⟨ds[i], List.getElem?_eq_getElem hlt, by simpa using hname⟩

theorem position?_of_name (hnames : (ds.map (·.name)).Nodup) {i : Nat} {d : Schema.Declaration}
    (hi : ds[i]? = some d) : position? ds d.name = some i := by
  cases h : position? ds d.name with
  | none =>
    have := List.findIdx?_eq_none_iff.mp h d (List.mem_of_getElem? hi)
    simp at this
  | some j =>
    obtain ⟨b, hj, hname⟩ := position?_eq_some h
    rw [Schema.eq_of_name hnames hj hi hname]

namespace Arena

variable {os : List Object} (hos : Arena ds os)
include hos

theorem head {i : Nat} {o : Object} (hi : os[i]? = some o) :
    ∃ decl, ds[i]? = some decl ∧ o.id = i ∧ o.name = decl.name ∧
      o.isInterface = decl.isInterface := by
  obtain ⟨decl, bases, own, hdecl, hgathers⟩ := hos i o hi
  obtain ⟨hid, hname, hinterface, -⟩ := hgathers.head_eq
  exact ⟨decl, hdecl, hid, hname, hinterface⟩

theorem reaches_of_mem_slots {i : Nat} {o : Object} (hi : os[i]? = some o) {a : Slot}
    (ha : a ∈ o.slots) :
    ∃ place p, Schema.Reaches ds i place p ∧ Schema.Declares ds place.1 p a := by
  induction i using Nat.strongRecOn generalizing o with
  | ind i ih =>
    obtain ⟨decl, bases, own, hdecl, hgathers⟩ := hos i o hi
    rw [hgathers.has.mem_slots, List.mem_append] at ha
    rcases ha with ha | ha
    · obtain ⟨b, hb, ha⟩ := List.mem_flatMap.mp (mem_of_mem_eraseDupsBy ha)
      obtain ⟨k, hk⟩ := List.mem_iff_getElem?.mp hb
      obtain ⟨name, hname, j, hlt, hposition, hj⟩ := getElem?_of_forall₂ hgathers.finds.flip hk
      obtain ⟨place, p, ⟨hinherits, hp⟩, hdeclares⟩ := ih j hlt hj ha
      obtain ⟨d, hd, rfl⟩ := position?_eq_some hposition
      have hextends : Schema.Extends ds i j := ⟨decl, d, hdecl, hd, List.mem_of_getElem? hname⟩
      exact ⟨place, p, ⟨.head hextends hinherits, hp⟩, hdeclares⟩
    · obtain ⟨k, hk⟩ := List.mem_iff_getElem?.mp ha
      obtain ⟨p, hp, -, hdeclares⟩ := getElem?_of_forall₂ hgathers.declares.flip hk
      exact ⟨(i, k), p, ⟨.refl, by simp [Schema.propertyAt?, hdecl, hp]⟩, hdeclares⟩

theorem exists_own {j k : Nat} {o : Object} (hj : os[j]? = some o) {p : Schema.Property}
    (hp : Schema.propertyAt? ds (j, k) = some p) :
    p.Proper ∧ ∃ a ∈ o.slots, Schema.Declares ds j p a := by
  obtain ⟨decl, bases, own, hdecl, hgathers⟩ := hos j o hj
  have hk : decl.properties[k]? = some p := by simpa [Schema.propertyAt?, hdecl] using hp
  obtain ⟨a, ha, hproper, hdeclares⟩ := getElem?_of_forall₂ hgathers.declares hk
  refine ⟨hproper, a, hgathers.has.mem_slots.mpr (List.mem_append_right _ ?_), hdeclares⟩
  exact List.mem_of_getElem? ha

theorem eq_of_clashes {i : Nat} {o : Object} (hi : os[i]? = some o) {a b : Slot} (ha : a ∈ o.slots)
    (hb : b ∈ o.slots) (h : a.Clashes b) : a = b := by
  obtain ⟨decl, bases, own, -, hgathers⟩ := hos i o hi
  exact hgathers.has.eq_of_clashes (hgathers.has.mem_slots.mp ha) (hgathers.has.mem_slots.mp hb) h

/-- The fields of an object are those of its bases and then its own, each once. -/
theorem fields_eq {i : Nat} {o : Object} {decl : Schema.Declaration} {bases : List Object}
    {own : List Slot} (h : Gathers ds os i decl bases own o) :
    o.fields.map Field.slot = (bases.flatMap (·.fields.map Field.slot) ++
      own.filter (!·.isDictionary)).eraseDupsBy Slot.same := by
  have hkeyed : ∀ a ∈ bases.flatMap Object.slots, a.Keyed := by
    intro a ha
    obtain ⟨b, hb, ha⟩ := List.mem_flatMap.mp ha
    obtain ⟨k, hk⟩ := List.mem_iff_getElem?.mp hb
    obtain ⟨name, -, j, -, -, hj⟩ := getElem?_of_forall₂ h.finds.flip hk
    exact hos.keyed b (List.mem_of_getElem? hj) a ha
  have hfilter : ((bases.flatMap Object.slots).eraseDupsBy Slot.same).filter (!·.isDictionary) =
      (bases.flatMap (·.fields.map Field.slot)).eraseDupsBy Slot.same := by
    rw [filter_eraseDupsBy, List.filter_flatMap]
    · simp only [Object.filter_slots]
    · intro a ha b hb hsame
      rw [(hkeyed a ha).isDictionary_eq (hkeyed b hb) (Slot.key_of_same hsame)]
  have hdistinct := h.has.distinct.filter (!·.isDictionary)
  rw [List.filter_append, hfilter] at hdistinct
  rw [h.has.fields, List.filter_append, hfilter, eraseDupsBy_append]
  exact hdistinct.imp fun hab hba => hab (Slot.Clashes.of_same hba).symm

variable (hnames : (ds.map (·.name)).Nodup)
include hnames

theorem base_of_extends {i j : Nat} {o : Object} (hi : os[i]? = some o)
    (h : Schema.Extends ds i j) :
    j < i ∧ ∃ b, os[j]? = some b ∧ ∀ a ∈ b.slots, ∃ a' ∈ o.slots, a.same a' = true := by
  obtain ⟨decl, bases, own, hdecl, hgathers⟩ := hos i o hi
  obtain ⟨d, b, hd, hb, hbase⟩ := h
  obtain rfl : decl = d := Option.some.inj (hdecl.symm.trans hd)
  obtain ⟨k, hk⟩ := List.mem_iff_getElem?.mp hbase
  obtain ⟨base, hbase, j', hlt, hposition, hj⟩ := getElem?_of_forall₂ hgathers.finds hk
  obtain rfl : j = j' := Option.some.inj ((position?_of_name hnames hb).symm.trans hposition)
  refine ⟨hlt, base, hj, fun a ha => ?_⟩
  obtain ⟨a', ha', hsame⟩ := exists_mem_eraseDupsBy (r := Slot.same) (by simp [Slot.same])
    (List.mem_flatMap.mpr ⟨base, List.mem_of_getElem? hbase, ha⟩)
  exact ⟨a', hgathers.has.mem_slots.mpr (List.mem_append_left _ ha'), hsame⟩

theorem exists_of_inherits {i j : Nat} {o : Object} (hi : os[i]? = some o)
    (h : Schema.Inherits ds i j) : ∃ b, os[j]? = some b := by
  induction h using Relation.ReflTransGen.head_induction_on generalizing o with
  | refl => exact ⟨o, hi⟩
  | head hextends _ ih =>
    obtain ⟨-, b, hb, -⟩ := hos.base_of_extends hnames hi hextends
    exact ih hb

theorem mem_slots_origin {i : Nat} {o : Object} (hi : os[i]? = some o) {a : Slot}
    (ha : a ∈ o.slots) :
    ∃ b, os[a.origin]? = some b ∧ a ∈ b.slots := by
  obtain ⟨⟨j, k⟩, p, ⟨hinherits, hp⟩, hdeclares⟩ := hos.reaches_of_mem_slots hi ha
  obtain ⟨b, hb⟩ := hos.exists_of_inherits hnames hi hinherits
  obtain ⟨-, a', ha', hdeclares'⟩ := hos.exists_own hb hp
  obtain rfl := hdeclares.unique hnames hdeclares'
  have horigin : a.origin = j := by
    obtain ⟨elem, -, rfl⟩ := hdeclares
    rfl
  exact ⟨b, horigin ▸ hb, ha'⟩

theorem eq_of_same {i i' : Nat} {o o' : Object} (hi : os[i]? = some o) (hi' : os[i']? = some o')
    {a a' : Slot} (ha : a ∈ o.slots) (ha' : a' ∈ o'.slots) (h : a.same a' = true) : a = a' := by
  obtain ⟨b, hb, hab⟩ := hos.mem_slots_origin hnames hi ha
  obtain ⟨b', hb', hab'⟩ := hos.mem_slots_origin hnames hi' ha'
  have horigin : a.origin = a'.origin := by
    simp only [Slot.same, Bool.and_eq_true, beq_iff_eq] at h
    exact h.1
  obtain rfl : b = b' := Option.some.inj (hb.symm.trans (horigin ▸ hb'))
  exact hos.eq_of_clashes hb hab hab' (.of_same h)

theorem mem_slots_of_inherits {i j : Nat} {o b : Object} (hi : os[i]? = some o)
    (hj : os[j]? = some b) (h : Schema.Inherits ds i j) {a : Slot} (ha : a ∈ b.slots) :
    a ∈ o.slots := by
  -- Along the chain of bases each object takes over the slot, up to its origin and key, and these
  -- determine it.
  induction h using Relation.ReflTransGen.head_induction_on generalizing o with
  | refl =>
    obtain rfl : b = o := Option.some.inj (hj.symm.trans hi)
    exact ha
  | head hextends _ ih =>
    obtain ⟨-, c, hc, hslots⟩ := hos.base_of_extends hnames hi hextends
    obtain ⟨a', ha', hsame⟩ := hslots a (ih hc)
    rw [hos.eq_of_same hnames hc hi (ih hc) ha' hsame]
    exact ha'

theorem mem_slots_iff {i : Nat} {o : Object} (hi : os[i]? = some o) {a : Slot} :
    a ∈ o.slots ↔ ∃ place p, Schema.Reaches ds i place p ∧ Schema.Declares ds place.1 p a := by
  refine ⟨hos.reaches_of_mem_slots hi, ?_⟩
  rintro ⟨⟨j, k⟩, p, ⟨hinherits, hp⟩, hdeclares⟩
  obtain ⟨b, hb⟩ := hos.exists_of_inherits hnames hi hinherits
  obtain ⟨-, a', ha', hdeclares'⟩ := hos.exists_own hb hp
  obtain rfl := hdeclares.unique hnames hdeclares'
  exact hos.mem_slots_of_inherits hnames hi hb hinherits ha'

/-- The slots of an object have the names of the properties that belong to it, and they are from
where these are declared. -/
theorem exists_slot_iff {i : Nat} {o : Object} (hi : os[i]? = some o) {origin : Nat} {name : Text} :
    (∃ a ∈ o.slots, a.origin = origin ∧ a.name = name) ↔
      ∃ place p, Schema.Reaches ds i place p ∧ place.1 = origin ∧ p.name = name := by
  constructor
  · rintro ⟨a, ha, rfl, rfl⟩
    obtain ⟨place, p, hreaches, elem, -, rfl⟩ := hos.reaches_of_mem_slots hi ha
    exact ⟨place, p, hreaches, rfl, rfl⟩
  · rintro ⟨place, p, hreaches, rfl, rfl⟩
    obtain ⟨b, hb⟩ := hos.exists_of_inherits hnames hi hreaches.1
    obtain ⟨-, a, ha, elem, -, rfl⟩ := hos.exists_own hb hreaches.2
    exact ⟨_, hos.mem_slots_of_inherits hnames hi hb hreaches.1 ha, rfl, rfl⟩

theorem place_unique {i : Nat} {o : Object} (hi : os[i]? = some o) {place place' : Nat × Nat}
    {p p' : Schema.Property} {a : Slot} (h : Schema.Reaches ds i place p)
    (hdeclares : Schema.Declares ds place.1 p a) (h' : Schema.Reaches ds i place' p')
    (hdeclares' : Schema.Declares ds place'.1 p' a) : place = place' := by
  obtain ⟨j, k⟩ := place
  obtain ⟨j', k'⟩ := place'
  obtain rfl : j = j' := by
    obtain ⟨elem, -, rfl⟩ := hdeclares
    obtain ⟨elem', -, h⟩ := hdeclares'
    exact congrArg Slot.origin h
  obtain ⟨b, hb⟩ := hos.exists_of_inherits hnames hi h.1
  obtain ⟨decl, bases, own, hdecl, hgathers⟩ := hos j b hb
  have hown {k : Nat} {p : Schema.Property} (hp : Schema.propertyAt? ds (j, k) = some p)
      (hdeclares : Schema.Declares ds j p a) : own[k]? = some a := by
    have hk : decl.properties[k]? = some p := by simpa [Schema.propertyAt?, hdecl] using hp
    obtain ⟨a', ha', -, hdeclares'⟩ := getElem?_of_forall₂ hgathers.declares hk
    rw [hdeclares.unique hnames hdeclares']
    exact ha'
  have hk := hown h.2 hdeclares
  have hnodup : own.Nodup :=
    (List.pairwise_append.mp hgathers.has.distinct).2.1.imp
      fun hne heq => hne (.inl (congrArg _ heq))
  rw [(List.getElem?_inj (List.getElem?_eq_some_iff.mp hk).1 hnodup).mp
    (hk.trans (hown h'.2 hdeclares').symm)]

theorem exists_places {i : Nat} {o : Object} (hi : os[i]? = some o) :
    ∃ places : List (Nat × Nat), places.Nodup ∧
      (∀ place, place ∈ places ↔ ∃ p, Schema.Reaches ds i place p) ∧
      List.Forall₂ (fun place a => ∃ p, Schema.propertyAt? ds place = some p ∧
        Schema.Declares ds place.1 p a) places o.slots := by
  let R (place : Nat × Nat) (a : Slot) : Prop :=
    ∃ p, Schema.Reaches ds i place p ∧ Schema.Declares ds place.1 p a
  have hunique : Relator.BiUnique R := by
    constructor
    · rintro place a place' ⟨p, hp, hdeclares⟩ ⟨p', hp', hdeclares'⟩
      exact hos.place_unique hnames hi hp hdeclares hp' hdeclares'
    · rintro place a a' ⟨p, hp, hdeclares⟩ ⟨p', hp', hdeclares'⟩
      obtain rfl : p = p' := Option.some.inj (hp.2.symm.trans hp'.2)
      exact hdeclares.unique hnames hdeclares'
  obtain ⟨places, hplaces⟩ : ∃ places, List.Forall₂ R places o.slots :=
    exists_forall₂ fun a ha => hos.reaches_of_mem_slots hi ha
  obtain ⟨decl, bases, own, hdecl, hgathers⟩ := hos i o hi
  have hslots : o.slots.Nodup :=
    hgathers.has.pairwise.imp fun hne heq => hne (.inl (congrArg _ heq))
  refine ⟨places, (List.rel_nodup hunique hplaces).mpr hslots, fun place => ⟨fun hplace => ?_, ?_⟩,
    hplaces.imp fun place a ⟨p, hp, hdeclares⟩ => ⟨p, hp.2, hdeclares⟩⟩
  · obtain ⟨k, hk⟩ := List.mem_iff_getElem?.mp hplace
    obtain ⟨a, -, p, hp, -⟩ := getElem?_of_forall₂ hplaces hk
    exact ⟨p, hp⟩
  · rintro ⟨p, hp⟩
    obtain ⟨b, hb⟩ := hos.exists_of_inherits hnames hi hp.1
    obtain ⟨-, a, ha, hdeclares⟩ := hos.exists_own hb hp.2
    have hmem := (hos.mem_slots_iff hnames hi).mpr ⟨place, p, hp, hdeclares⟩
    obtain ⟨k, hk⟩ := List.mem_iff_getElem?.mp hmem
    obtain ⟨place', hplace', hR⟩ := getElem?_of_forall₂ hplaces.flip hk
    obtain rfl := hunique.1 hR ⟨p, hp, hdeclares⟩
    exact List.mem_of_getElem? hplace'

end Arena

end Resolve

namespace Model

/-- Inheritance is flattened in the object of a declaration. -/
structure Flattened (ds : List Schema.Declaration) (m : Model) (i : Nat) (decl : Schema.Declaration)
    (o : Object) : Prop where
  /-- The fields of the bases follow one another in the order of the bases, then come the object's
  own, and of fields from one declaration only the first is kept. -/
  fields : ∃ bases own,
    List.Forall₂ (fun name b => b ∈ m.objects ∧ b.name = name) decl.bases bases ∧
    o.bases = bases.map (·.id) ∧
    List.Forall₂ (Schema.Declares ds i) (decl.properties.filter (!·.isDictionary)) own ∧
    o.fields.map Field.slot = (bases.flatMap (·.fields.map Field.slot) ++ own).eraseDupsBy Slot.same
  /-- Fields and dictionary are, one by one, what the properties declare that the object has of its
  own or from a base at any distance. -/
  slots : ∃ places : List (Nat × Nat), places.Nodup ∧
    (∀ place, place ∈ places ↔ ∃ p, Schema.Reaches ds i place p) ∧
    List.Forall₂ (fun place a => ∃ p, Schema.propertyAt? ds place = some p ∧
      Schema.Declares ds place.1 p a) places o.slots

variable {ds : List Schema.Declaration} {opt : ModelOptions} {m : Model}

theorem names_nodup (h : resolve ds opt = .ok m) : (ds.map (·.name)).Nodup := by
  refine List.Nodup.of_map Names.lastSegment ?_
  rw [List.map_map]
  exact (names_of_resolve h).2

/-- In a resolved model, inheritance is exactly flattening. -/
theorem inheritance_flattened (h : resolve ds opt = .ok m) {i : Nat} {decl : Schema.Declaration}
    (hdecl : ds[i]? = some decl) :
    ∃ o, m.objects[i]? = some o ∧ o.name = decl.name ∧ Flattened ds m i decl o := by
  obtain ⟨hos, hlength⟩ := arena_of_resolve h
  have hlt : i < m.objects.length := hlength ▸ (List.getElem?_eq_some_iff.mp hdecl).1
  have hi := List.getElem?_eq_getElem hlt
  obtain ⟨decl', bases, own, hdecl', hgathers⟩ := hos i _ hi
  obtain rfl : decl = decl' := Option.some.inj (hdecl.symm.trans hdecl')
  obtain ⟨-, hname, -, hbases⟩ := hgathers.head_eq
  refine ⟨_, hi, hname, ⟨bases, own.filter (!·.isDictionary), ?_, hbases, ?_,
    hos.fields_eq hgathers⟩, hos.exists_places (names_nodup h) hi⟩
  · refine hgathers.finds.imp fun name b hfinds => ?_
    obtain ⟨j, -, hposition, hj⟩ := hfinds
    obtain ⟨d, hd, hname⟩ := Resolve.position?_eq_some hposition
    obtain ⟨d', hd', -, hname', -⟩ := hos.head hj
    obtain rfl : d = d' := Option.some.inj (hd.symm.trans hd')
    exact ⟨List.mem_of_getElem? hj, hname'.trans hname⟩
  · have hdeclares : List.Forall₂ (Schema.Declares ds i) decl.properties own :=
      hgathers.declares.imp fun _ _ hdeclares => hdeclares.2
    refine List.rel_filter (fun p a hdeclares => ?_) hdeclares
    obtain ⟨elem, -, rfl⟩ := hdeclares
    simp

/-! ### A fork in the hierarchy -/

/-- Two objects with one base, which passes on an array and a dictionary, and below them an object
that has the first of them as a base twice. -/
def forkSchema : List Schema.Declaration :=
  [{ name := "Base", isInterface := true
     properties := [{ key := "tags", name := "tags", type := "string", isArray := true },
       { key := "*", name := "rest", type := "shop.Leaf", isDictionary := true }] },
    { name := "Left", isInterface := true, bases := ["Base"] },
    { name := "Right", bases := ["Base"]
      properties := [{ key := "n", name := "count", type := "int" }] },
    { name := "shop.Leaf", bases := ["Left", "Right", "Left"]
      properties := [{ key := "leaves", name := "leaves", type := "shop.Leaf", isArray := true }] }]

def forks (opt : ModelOptions) : Model where
  package := opt.package
  serializer := opt.serializer
  access := opt.access
  objects :=
    let tags (codec : Text) : Field := ⟨"tags", "tags", .array (.scalar .string) codec, 0⟩
    let count : Field := ⟨"n", "count", .single (.scalar .int32), 2⟩
    let leaves : Field := ⟨"leaves", "leaves", .array (.object 3) "LeafLeaves", 3⟩
    let rest : Wildcard := ⟨"rest", .object 3, 0⟩
    [⟨0, "Base", true, [tags []], some rest, []⟩, ⟨1, "Left", true, [tags []], some rest, [0]⟩,
      ⟨2, "Right", false, [tags "RightTags", count], some rest, [0]⟩,
      ⟨3, "shop.Leaf", false, [tags "LeafTags", count, leaves], some rest, [1, 2, 1]⟩]
  arrays := [⟨"RightTags", 2, "tags", .scalar .string⟩, ⟨"LeafTags", 3, "tags", .scalar .string⟩,
    ⟨"LeafLeaves", 3, "leaves", .object 3⟩]
  aggregates := if opt.makeTypes then [0, 1, 2, 3] else []

theorem resolve_forkSchema (opt : ModelOptions) : resolve forkSchema opt = .ok (forks opt) := by
  have hnames : Resolve.checkNames [] forkSchema = .ok () := by decide +kernel
  have hobjects : Resolve.objects forkSchema [] [] forkSchema =
      .ok ((forks {}).objects, (forks {}).arrays) := by decide +kernel
  exact resolve_eq_ok_iff.mpr ⟨hnames, _, _, hobjects, rfl⟩

/-- The object below the fork has each inherited slot once. -/
theorem inheritance_flattened_fork : resolve forkSchema {} = .ok (forks {}) ∧
    ∃ decl, forkSchema[3]? = some decl ∧ ∃ o, (forks {}).objects[3]? = some o ∧ o.name = decl.name ∧
      Flattened forkSchema (forks {}) 3 decl o :=
  ⟨resolve_forkSchema {}, _, rfl, inheritance_flattened (resolve_forkSchema {}) rfl⟩

end Model

end WireSchema
