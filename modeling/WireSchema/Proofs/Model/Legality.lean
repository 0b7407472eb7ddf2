import WireSchema.Proofs.Model.Inheritance

/-!
# Legal schemas

Which declarations can be resolved, said of the declarations alone: `Schema.Legal` speaks neither of
the order in which conflicts are found nor of the objects that resolution builds.
-/

namespace WireSchema

namespace Schema

/-- The name stands for a type: it spells a scalar, or a concrete object has it, declared
anywhere. -/
def NamesType (ds : List Declaration) (t : Text) : Prop :=
  (∃ s ∈ Scalar.spellings, t = s.1) ∨ ∃ d ∈ ds, d.name = t ∧ d.isInterface = false

/-- The declarations make up a legal schema. -/
structure Legal (ds : List Declaration) : Prop where
  names : (ds.map (·.name)).Nodup
  typeNames : (ds.map fun d => Names.lastSegment d.name).Nodup
  identifiers : ∀ d ∈ ds, Names.isIdentifier (Names.lastSegment d.name) = true
  /-- Bases are declared earlier. -/
  bases : ∀ (i : Nat) (d : Declaration), ds[i]? = some d → ∀ name ∈ d.bases,
    ∃ j < i, ∃ b, ds[j]? = some b ∧ b.name = name
  properties : ∀ d ∈ ds, ∀ p ∈ d.properties, p.Proper ∧ NamesType ds p.type
  /-- Of the properties that an object has, on whichever ways it inherits them, no two at different
  places share a key or an exported name. -/
  distinct : ∀ i place place' p p', Reaches ds i place p → Reaches ds i place' p' →
    p.key = p'.key ∨ Names.exported p.name = Names.exported p'.name → place = place'

variable {ds : List Declaration}

theorem exists_denotes_iff {t : Text} : (∃ elem, Denotes ds t elem) ↔ NamesType ds t := by
  constructor
  · rintro ⟨elem, helem⟩
    cases elem with
    | scalar s =>
      obtain ⟨spelling, hfind, -⟩ := Option.map_eq_some_iff.mp helem
      have hname : Text.ofString spelling.1 = t := by simpa using List.find?_some hfind
      exact .inl ⟨spelling, List.mem_of_find?_eq_some hfind, hname.symm⟩
    | object id =>
      obtain ⟨-, d, hd, hname, hconcrete⟩ := helem
      exact .inr ⟨d, List.mem_of_getElem? hd, hname, hconcrete⟩
  · intro h
    cases hscalar : Scalar.ofName? t with
    | some s => exact ⟨.scalar s, hscalar⟩
    | none =>
      rcases h with ⟨spelling, hmem, rfl⟩ | ⟨d, hd, hname, hconcrete⟩
      · rw [Scalar.ofName?, Option.map_eq_none_iff, List.find?_eq_none] at hscalar
        simpa using hscalar spelling hmem
      · obtain ⟨id, hid⟩ := List.mem_iff_getElem?.mp hd
        exact ⟨.object id, hscalar, d, hid, hname, hconcrete⟩

theorem Reaches.lt_length {i : Nat} {place : Nat × Nat} {p : Property} (h : Reaches ds i place p) :
    i < ds.length := by
  obtain ⟨hinherits, hp⟩ := h
  cases hinherits using Relation.ReflTransGen.head_induction_on with
  | refl =>
    obtain ⟨d, hd, -⟩ := Option.bind_eq_some_iff.mp hp
    exact (List.getElem?_eq_some_iff.mp hd).1
  | head hextends _ _ =>
    obtain ⟨d, -, hd, -⟩ := hextends
    exact (List.getElem?_eq_some_iff.mp hd).1

/-- In a legal schema, slots that belong to one object clash only if declared at one place. -/
theorem Legal.place_eq (h : Legal ds) {i : Nat} {place place' : Nat × Nat} {p p' : Property}
    {a a' : Slot} (hp : Reaches ds i place p) (ha : Declares ds place.1 p a)
    (hp' : Reaches ds i place' p') (ha' : Declares ds place'.1 p' a') (hclash : a.Clashes a') :
    place = place' := by
  obtain ⟨elem, -, rfl⟩ := ha
  obtain ⟨elem', -, rfl⟩ := ha'
  exact h.distinct i place place' p p' hp hp' hclash

end Schema

namespace Resolve

open Schema

variable {ds : List Declaration} {os : List Object} {decl : Declaration}

theorem elemType_of_denotes (hnames : (ds.map (·.name)).Nodup) {p : Property} {elem : ElemType}
    (h : Denotes ds p.type elem) (d : Draft) : d.elemType ds p = .ok elem := by
  unfold Draft.elemType
  cases elem with
  | scalar s =>
    have hscalar : Scalar.ofName? p.type = some s := h
    rw [hscalar]
  | object id =>
    obtain ⟨hscalar, b, hb, hname, hconcrete⟩ := h
    have hposition : position? ds p.type = some id := hname ▸ position?_of_name hnames hb
    simp [hscalar, hposition, hb, hconcrete]

theorem Arena.reaches_of_base (hos : Arena ds os) (hnames : (ds.map (·.name)).Nodup)
    (hdecl : ds[os.length]? = some decl) {bases : List Object}
    (hfinds : List.Forall₂ (Finds ds os os.length) decl.bases bases) {a : Slot}
    (ha : a ∈ bases.flatMap Object.slots) :
    ∃ place p, place.1 < os.length ∧ Reaches ds os.length place p ∧ Declares ds place.1 p a := by
  obtain ⟨b, hb, ha⟩ := List.mem_flatMap.mp ha
  obtain ⟨k, hk⟩ := List.mem_iff_getElem?.mp hb
  obtain ⟨name, hname, j, -, hposition, hj⟩ := getElem?_of_forall₂ hfinds.flip hk
  obtain ⟨d, hd, rfl⟩ := position?_eq_some hposition
  obtain ⟨place, p, ⟨hinherits, hp⟩, hdeclares⟩ := hos.reaches_of_mem_slots hj ha
  obtain ⟨c, hc⟩ := hos.exists_of_inherits hnames hj hinherits
  have hextends : Extends ds os.length j := ⟨decl, d, hdecl, hd, List.mem_of_getElem? hname⟩
  exact ⟨place, p, (List.getElem?_eq_some_iff.mp hc).1, ⟨.head hextends hinherits, hp⟩, hdeclares⟩

theorem exists_object_of_legal (hlegal : Legal ds) (hos : Arena ds os)
    (hdecl : ds[os.length]? = some decl) (arrays : List ArrayCodec) :
    ∃ d, object ds os arrays decl = .ok d := by
  have hmem : decl ∈ ds := List.mem_of_getElem? hdecl
  obtain ⟨bases, hfinds⟩ : ∃ bases,
      List.Forall₂ (flip (Finds ds os os.length)) bases decl.bases := by
    refine exists_forall₂ fun name hname => ?_
    obtain ⟨j, hlt, b, hb, rfl⟩ := hlegal.bases _ _ hdecl name hname
    exact ⟨os[j], j, hlt, position?_of_name hlegal.names hb, List.getElem?_eq_getElem hlt⟩
  obtain ⟨own, hown⟩ : ∃ own, List.Forall₂ (fun a p => p.Proper ∧ Declares ds os.length p a)
      own decl.properties := by
    refine exists_forall₂ fun p hp => ?_
    obtain ⟨hproper, htype⟩ := hlegal.properties decl hmem p hp
    obtain ⟨elem, helem⟩ := exists_denotes_iff.mpr htype
    exact ⟨_, hproper, elem, helem, rfl⟩
  have hfinds : List.Forall₂ (Finds ds os os.length) decl.bases bases := hfinds.flip
  have hreaches {k : Nat} {a : Slot} (hk : own[k]? = some a) :
      ∃ p, Reaches ds os.length (os.length, k) p ∧ Declares ds os.length p a := by
    obtain ⟨p, hp, -, hdeclares⟩ := getElem?_of_forall₂ hown hk
    exact ⟨p, ⟨.refl, by simp [propertyAt?, hdecl, hp]⟩, hdeclares⟩
  have hdeclared : List.Forall₂ (fun p a => p.Proper ∧ ∃ elem,
      (∀ d, Draft.elemType ds d p = .ok elem) ∧ a = p.slot os.length elem) decl.properties own := by
    refine hown.flip.imp fun p a hp => ?_
    obtain ⟨hproper, elem, helem, ha⟩ := hp
    exact ⟨hproper, elem, elemType_of_denotes hlegal.names helem, ha⟩
  refine exists_object arrays hos.keyed hfinds hdeclared ?_ ?_ ?_
  · -- Two inherited slots that clash have one place: they came in on two ways.
    intro a ha b hb hclash
    obtain ⟨place, p, -, hp, hdeclares⟩ := hos.reaches_of_base hlegal.names hdecl hfinds ha
    obtain ⟨place', p', -, hp', hdeclares'⟩ := hos.reaches_of_base hlegal.names hdecl hfinds hb
    obtain rfl := hlegal.place_eq hp hdeclares hp' hdeclares' hclash
    obtain rfl : p = p' := Option.some.inj (hp.2.symm.trans hp'.2)
    exact hdeclares.unique hlegal.names hdeclares'
  · -- An inherited slot and an own one: the former is declared earlier.
    intro a ha b hb hclash
    obtain ⟨place, p, hlt, hp, hdeclares⟩ := hos.reaches_of_base hlegal.names hdecl hfinds ha
    obtain ⟨k, hk⟩ := List.mem_iff_getElem?.mp hb
    obtain ⟨p', hp', hdeclares'⟩ := hreaches hk
    obtain rfl := hlegal.place_eq hp hdeclares hp' hdeclares' hclash
    exact Nat.lt_irrefl _ hlt
  · rw [List.pairwise_iff_getElem]
    intro k k' hk hk' hlt hclash
    obtain ⟨p, hp, hdeclares⟩ := hreaches (List.getElem?_eq_getElem hk)
    obtain ⟨p', hp', hdeclares'⟩ := hreaches (List.getElem?_eq_getElem hk')
    have hplace := hlegal.place_eq hp hdeclares hp' hdeclares' hclash
    have : k = k' := congrArg Prod.snd hplace
    omega

theorem exists_objects (hlegal : Legal ds) {decls : List Declaration} (hos : Arena ds os)
    (hdecls : decls = ds.drop os.length) (arrays : List ArrayCodec) :
    ∃ r, objects ds os arrays decls = .ok r := by
  induction decls generalizing os arrays with
  | nil => exact ⟨_, rfl⟩
  | cons decl decls ih =>
    obtain ⟨hdecl, hrest⟩ := next_of_drop hdecls
    obtain ⟨d, hd⟩ := exists_object_of_legal hlegal hos hdecl arrays
    obtain ⟨r, hr⟩ := ih (hos.snoc hdecl hd) (hrest d.object) d.arrays
    refine ⟨r, ?_⟩
    rw [objects, hd]
    exact hr

end Resolve

namespace Model

variable {ds : List Schema.Declaration} {opt : ModelOptions} {m : Model}

theorem legal_of_resolve (h : resolve ds opt = .ok m) : Schema.Legal ds := by
  have hnames := names_nodup h
  obtain ⟨hos, hlength⟩ := arena_of_resolve h
  have hexists {i : Nat} (hi : i < ds.length) : ∃ o, m.objects[i]? = some o :=
    ⟨_, List.getElem?_eq_getElem (hlength ▸ hi)⟩
  refine ⟨hnames, (names_of_resolve h).2, (names_of_resolve h).1, ?_, ?_, ?_⟩
  · intro i d hd name hname
    obtain ⟨o, hi⟩ := hexists (List.getElem?_eq_some_iff.mp hd).1
    obtain ⟨decl, bases, own, hdecl, hgathers⟩ := hos i o hi
    obtain rfl : d = decl := Option.some.inj (hd.symm.trans hdecl)
    obtain ⟨k, hk⟩ := List.mem_iff_getElem?.mp hname
    obtain ⟨b, -, j, hlt, hposition, -⟩ := getElem?_of_forall₂ hgathers.finds hk
    exact ⟨j, hlt, Resolve.position?_eq_some hposition⟩
  · intro d hd p hp
    obtain ⟨j, hj⟩ := List.mem_iff_getElem?.mp hd
    obtain ⟨k, hk⟩ := List.mem_iff_getElem?.mp hp
    obtain ⟨o, ho⟩ := hexists (List.getElem?_eq_some_iff.mp hj).1
    obtain ⟨hproper, -, -, elem, helem, -⟩ :=
      hos.exists_own (k := k) (p := p) ho (by simp [Schema.propertyAt?, hj, hk])
    exact ⟨hproper, Schema.exists_denotes_iff.mp ⟨elem, helem⟩⟩
  · intro i place place' p p' hp hp' hclash
    obtain ⟨o, hi⟩ := hexists hp.lt_length
    have hslot {place p} (hp : Schema.Reaches ds i place p) :
        ∃ a ∈ o.slots, Schema.Declares ds place.1 p a := by
      obtain ⟨b, hb⟩ := hos.exists_of_inherits hnames hi hp.1
      obtain ⟨-, a, -, hdeclares⟩ := hos.exists_own hb hp.2
      exact ⟨a, (hos.mem_slots_iff hnames hi).mpr ⟨place, p, hp, hdeclares⟩, hdeclares⟩
    obtain ⟨a, ha, hdeclares⟩ := hslot hp
    obtain ⟨a', ha', hdeclares'⟩ := hslot hp'
    have heq : a = a' := by
      refine hos.eq_of_clashes hi ha ha' ?_
      obtain ⟨elem, -, rfl⟩ := hdeclares
      obtain ⟨elem', -, rfl⟩ := hdeclares'
      exact hclash
    exact hos.place_unique hnames hi hp hdeclares hp' (heq ▸ hdeclares')

/-- Exactly the legal schemas can be resolved. -/
theorem resolve_succeeds_iff_legal (ds : List Schema.Declaration) (opt : ModelOptions) :
    (∃ m, resolve ds opt = .ok m) ↔ Schema.Legal ds := by
  constructor
  · rintro ⟨m, h⟩
    exact legal_of_resolve h
  · intro hlegal
    have hnames : Resolve.checkNames [] ds = .ok () :=
      Resolve.checkNames_eq_ok_iff.mpr ⟨hlegal.identifiers, by simp, hlegal.typeNames⟩
    have hempty : Resolve.Arena ds [] := fun i o hi => by simp at hi
    obtain ⟨⟨os, cs⟩, hobjects⟩ := Resolve.exists_objects hlegal hempty rfl []
    exact ⟨_, resolve_eq_ok_iff.mpr ⟨hnames, os, cs, hobjects, rfl⟩⟩

end Model

end WireSchema
