import WireSchema.Proofs.Checked.Reading
import WireSchema.Proofs.Model.Inheritance

/-!
# Resolving with every access checked

Objects are registered in an arena before any of them is resolved, and everything refers to them by
their positions there; the fields of an object under way are found through tables of positions. A
position past the end would stop the resolution. It never does: positions come from the list of
declarations, or were in range when they were noted down.
-/

namespace WireSchema.Checked

open Resolve (position? freshCodec Arena)

variable {ε α β : Type}

/-! ## Declared names -/

/-- Checks the names of the declarations in order; `seen` holds those so far with their type
names. -/
def checkNames : (seen : List (Text × Text)) → List Schema.Declaration → Checked ResolveError Unit
  | _, [] => pure ()
  | seen, d :: rest =>
    if seen.any (·.1 == d.name) then throw (.declaredTwice d.name)
    else do
      let type ← lastSegment d.name
      if !Names.isIdentifier type then throw (.typeName d.name type)
      else
        match seen.find? (·.2 == type) with
        | some previous => throw (.typeCollision d.name type previous.1)
        | none => checkNames (seen ++ [(d.name, type)]) rest

theorem checkNames_eq (seen : List Text) (ds : List Schema.Declaration) :
    checkNames (seen.map fun name => (name, Names.lastSegment name)) ds =
      safe (Resolve.checkNames seen ds) := by
  induction ds generalizing seen with
  | nil => rfl
  | cons d ds ih =>
    have hnext := ih (seen ++ [d.name])
    rw [List.map_append, List.map_singleton] at hnext
    unfold checkNames Resolve.checkNames
    simp only [lastSegment_eq, lift_some, pure_bind, List.any_map, List.find?_map,
      Function.comp_def, List.any_beq']
    split
    · rfl
    split
    · rfl
    cases seen.find? fun name => Names.lastSegment name == Names.lastSegment d.name with
    | some previous => rfl
    | none => exact hnext

/-! ## Drafts -/

/-- An object under way, with the positions of its fields by their keys and by their exported
names. -/
structure Draft extends Resolve.Draft where
  byKey : List (Text × Nat) := []
  byName : List (Text × Nat) := []

def table (text : Field → Text) (fields : List Field) : List (Text × Nat) :=
  fields.zipIdx.map fun p => (text p.1, p.2)

def tabled (d : Resolve.Draft) : Draft where
  toDraft := d
  byKey := table Field.key d.object.fields
  byName := table (fun f => Names.exported f.name) d.object.fields

@[simp]
theorem tabled_object (d : Resolve.Draft) : (tabled d).object = d.object := rfl

@[simp]
theorem tabled_arrays (d : Resolve.Draft) : (tabled d).arrays = d.arrays := rfl

theorem tabled_byKey (d : Resolve.Draft) :
    (tabled d).byKey = table Field.key d.object.fields := rfl

theorem tabled_byName (d : Resolve.Draft) :
    (tabled d).byName = table (fun f => Names.exported f.name) d.object.fields := rfl

theorem table_concat (text : Field → Text) (fields : List Field) (f : Field) :
    table text (fields ++ [f]) = table text fields ++ [(text f, fields.length)] := by
  simp [table, List.zipIdx_append]

theorem lookup_table (text : Field → Text) (fields : List Field) (t : Text) :
    (∃ i f, (table text fields).lookup t = some i ∧ fields[i]? = some f ∧
      fields.find? (text · == t) = some f) ∨
      (table text fields).lookup t = none ∧ fields.find? (text · == t) = none := by
  induction fields using List.reverseRecOn with
  | nil => exact .inr ⟨rfl, rfl⟩
  | append_singleton fields f ih =>
    rw [table_concat, List.lookup_append, List.find?_append]
    rcases ih with ⟨i, g, hlookup, hi, hfind⟩ | ⟨hlookup, hfind⟩
    · refine .inl ⟨i, g, by simp [hlookup], ?_, by simp [hfind]⟩
      exact (List.getElem?_append_left (List.getElem?_eq_some_iff.mp hi).1).trans hi
    · rw [hlookup, hfind]
      by_cases hf : text f = t
      · exact .inl ⟨fields.length, f, by simp [hf], by simp, by simp [hf]⟩
      · refine .inr ⟨?_, by simp [hf]⟩
        have hbeq : (t == text f) = false := by simpa using Ne.symm hf
        simp [List.lookup_cons, hbeq]

/-- The origins of an object's fields, and the object itself, are positions below `n`. -/
structure Within (n : Nat) (o : Object) : Prop where
  id : o.id < n
  fields : ∀ f ∈ o.fields, f.origin < n
  wildcard : ∀ w, o.wildcard = some w → w.origin < n

/-- The first computation is not stopped and leads where the second does, to an object within an
arena of `n` objects. -/
def Follows (n : Nat) (x : Checked ResolveError Draft) (y : Except ResolveError Resolve.Draft) :
    Prop :=
  x = safe (y.map tabled) ∧ ∀ d, y = .ok d → Within n d.object

namespace Follows

variable {n : Nat} {x : Checked ResolveError Draft} {y : Except ResolveError Resolve.Draft}
  {d : Resolve.Draft}

theorem ok (h : Within n d.object) : Follows n (pure (tabled d)) (.ok d) :=
  ⟨rfl, fun _ hd => Except.ok.inj hd ▸ h⟩

theorem error (e : ResolveError) : Follows n (throw e) (.error e) := ⟨rfl, fun d h => by cases h⟩

theorem bind {f : Draft → Checked ResolveError Draft}
    {g : Resolve.Draft → Except ResolveError Resolve.Draft} (h : Follows n x y)
    (hnext : ∀ d, Within n d.object → Follows n (f (tabled d)) (g d)) :
    Follows n (x >>= f) (y >>= g) := by
  obtain ⟨rfl, hwithin⟩ := h
  cases y with
  | error e => exact error e
  | ok d => exact hnext d (hwithin d rfl)

theorem foldlM {f : Draft → α → Checked ResolveError Draft}
    {g : Resolve.Draft → α → Except ResolveError Resolve.Draft} {l : List α}
    (hround : ∀ d, Within n d.object → ∀ a ∈ l, Follows n (f (tabled d) a) (g d a))
    (hd : Within n d.object) : Follows n (l.foldlM f (tabled d)) (l.foldlM g d) := by
  induction l generalizing d with
  | nil => exact ok hd
  | cons a l ih =>
    rw [List.foldlM_cons, List.foldlM_cons]
    refine (hround d hd a (by simp)).bind fun d' hd' => ih (fun d hd b hb => ?_) hd'
    exact hround d hd b (by simp [hb])

end Follows

/-! ## One object -/

/-- Refuses a field from `second` for one from `first`, both of which the error names. -/
def conflict (arena : List Object) (d : Draft) (key : Text) (first second : Nat) :
    Checked ResolveError Draft := do
  let a ← fetch arena first
  let b ← fetch arena second
  throw (.conflict d.object.name key a.name b.name)

/-- Is the field already there, from the same declaration? -/
def has (d : Draft) (f : Field) : Option Bool :=
  match d.byKey.lookup f.key with
  | some i => do
    let g ← d.object.fields[i]?
    pure (g.origin == f.origin && g.name == f.name)
  | none => pure false

/-- Puts a field behind the others, and its position into the tables. -/
def push (d : Draft) (f : Field) (name : Text) : Draft :=
  { d with
    object := { d.object with fields := d.object.fields ++ [f] }
    byKey := d.byKey ++ [(f.key, d.object.fields.length)]
    byName := d.byName ++ [(name, d.object.fields.length)] }

/-- Adds a field. Neither its key nor its exported name may be taken. -/
def addField (arena : List Object) (d : Draft) (f : Field) : Checked ResolveError Draft :=
  match d.byKey.lookup f.key with
  | some i => do
    let g ← fetch d.object.fields i
    conflict arena d f.key g.origin f.origin
  | none => do
    let name ← exported f.name
    match d.byName.lookup name with
    | some i =>
      let g ← fetch d.object.fields i
      conflict arena d f.name g.origin f.origin
    | none =>
      match d.object.wildcard with
      | some w =>
        if (← exported w.name) == name then conflict arena d f.name w.origin f.origin
        else pure (push d f name)
      | none => pure (push d f name)

def setWildcard (arena : List Object) (inherited : Bool) (d : Draft) (w : Wildcard) :
    Checked ResolveError Draft :=
  match d.object.wildcard with
  | some v =>
    if inherited && v.origin == w.origin then pure d else conflict arena d "*" v.origin w.origin
  | none => do
    match d.byName.lookup (← exported w.name) with
    | some i =>
      let g ← fetch d.object.fields i
      conflict arena d w.name g.origin w.origin
    | none => pure { d with object := { d.object with wildcard := some w } }

def arrayCodec (d : Draft) (field : Text) (elem : ElemType) : Option (Text × Draft) := do
  if d.object.isInterface then pure ([], d)
  else
    let id := freshCodec (d.arrays.map (·.id)) (d.object.typeName ++ (← exported field))
    pure (id, { d with arrays := d.arrays ++ [⟨id, d.object.id, field, elem⟩] })

/-- Adds a field of a base, unless it has come in by another way already. -/
def inheritField (arena : List Object) (d : Draft) (f : Field) : Checked ResolveError Draft := do
  if ← has d f then pure d
  else
    match f.type with
    | .single _ => addField arena d f
    | .array elem _ =>
      let (id, d) ← arrayCodec d f.name elem
      addField arena d { f with type := .array elem id }

def inheritFrom (arena : List Object) (d : Draft) (base : Object) : Checked ResolveError Draft := do
  let d := { d with object := { d.object with bases := d.object.bases ++ [base.id] } }
  let d ← base.fields.foldlM (inheritField arena) d
  match base.wildcard with
  | some w => setWildcard arena true d w
  | none => pure d

/-- Adds the base with a name; `done` tells which objects have been resolved. -/
def addBase (ds : List Schema.Declaration) (arena : List Object) (done : List Bool) (d : Draft)
    (base : Text) : Checked ResolveError Draft :=
  match position? ds base with
  | none => throw (.unknownBase d.object.name base)
  | some id => do
    if ← fetch done id then inheritFrom arena d (← fetch arena id)
    else throw (.laterBase d.object.name base)

def elemType (ds : List Schema.Declaration) (arena : List Object) (d : Draft)
    (p : Schema.Property) : Checked ResolveError ElemType :=
  match Scalar.ofName? p.type with
  | some s => pure (.scalar s)
  | none =>
    match position? ds p.type with
    | none => throw (.unknownType d.object.name p.name p.type)
    | some id => do
      let o ← fetch arena id
      if o.isInterface then throw (.interfaceType d.object.name p.name p.type)
      else pure (.object id)

def addProperty (ds : List Schema.Declaration) (arena : List Object) (d : Draft)
    (p : Schema.Property) : Checked ResolveError Draft := do
  let bracket (b : UInt8) : Bool := b == 0x5B || b == 0x5D || b == 0x7B || b == 0x7D
  if p.type.any bracket || (p.isArray && p.isDictionary) then
    throw (.nestedContainer d.object.name p.name)
  else if p.isDictionary && p.key != "*" then throw (.dictionaryKey d.object.name p.name)
  else if !p.isDictionary && p.key == "*" then throw (.starKey d.object.name p.name)
  else
    let elem ← elemType ds arena d p
    if p.isDictionary then setWildcard arena false d ⟨p.name, elem, d.object.id⟩
    else if p.isArray then
      let (codec, d) ← arrayCodec d p.name elem
      addField arena d ⟨p.key, p.name, .array elem codec, d.object.id⟩
    else addField arena d ⟨p.key, p.name, .single elem, d.object.id⟩

section Fields

variable {ds : List Schema.Declaration} {arena : List Object} {d : Resolve.Draft}

def Registers (ds : List Schema.Declaration) (arena : List Object) : Prop :=
  arena.map (fun o => (o.name, o.isInterface)) = ds.map fun d => (d.name, d.isInterface)

theorem Registers.exists_at (h : Registers ds arena) {i : Nat} (hi : i < ds.length) :
    ∃ o decl, arena[i]? = some o ∧ ds[i]? = some decl ∧ o.name = decl.name ∧
      o.isInterface = decl.isInterface := by
  have hat := congrArg (·[i]?) h
  simp only [List.getElem?_map, List.getElem?_eq_getElem hi, Option.map_some] at hat
  obtain ⟨o, ho, heq⟩ := Option.map_eq_some_iff.mp hat
  obtain ⟨hname, hinterface⟩ := Prod.mk.inj heq
  exact ⟨o, _, ho, List.getElem?_eq_getElem hi, hname, hinterface⟩

theorem conflict_follows (h : Registers ds arena) (key : Text) {first second : Nat}
    (hfirst : first < ds.length) (hsecond : second < ds.length) :
    Follows ds.length (conflict arena (tabled d) key first second)
      (.error (d.conflict ds key first second)) := by
  obtain ⟨a, da, ha, hda, hname, -⟩ := h.exists_at hfirst
  obtain ⟨b, db, hb, hdb, hname', -⟩ := h.exists_at hsecond
  rw [conflict, fetch_eq ha, fetch_eq hb, Resolve.Draft.conflict, Resolve.nameAt, Resolve.nameAt,
    hda, hdb]
  simp only [pure_bind, hname, hname']
  exact .error _

theorem has_eq (d : Resolve.Draft) (f : Field) : has (tabled d) f = some (d.has f) := by
  unfold has Resolve.Draft.has
  rcases lookup_table Field.key d.object.fields f.key with
    ⟨i, g, hlookup, hi, hfind⟩ | ⟨hlookup, hfind⟩
  · simp [tabled, hlookup, hi, hfind]
  · simp [tabled, hlookup, hfind]

theorem push_tabled (d : Resolve.Draft) (f : Field) : push (tabled d) f (Names.exported f.name) =
    tabled { d with object := { d.object with fields := d.object.fields ++ [f] } } := by
  simp only [push, tabled, table_concat]

theorem addField_follows (h : Registers ds arena) (hd : Within ds.length d.object) {f : Field}
    (hf : f.origin < ds.length) :
    Follows ds.length (addField arena (tabled d) f) (d.addField ds f) := by
  have hpush : Follows ds.length (pure (push (tabled d) f (Names.exported f.name)))
      (.ok { d with object := { d.object with fields := d.object.fields ++ [f] } }) := by
    rw [push_tabled]
    refine .ok ⟨hd.id, ?_, hd.wildcard⟩
    simpa [or_imp, forall_and, hf] using hd.fields
  unfold addField Resolve.Draft.addField
  generalize ({ d with object := { d.object with fields := d.object.fields ++ [f] } } :
    Resolve.Draft) = d' at hpush ⊢
  rw [tabled_byKey, tabled_byName, tabled_object]
  rcases lookup_table Field.key d.object.fields f.key with
    ⟨i, g, hlookup, hi, hfind⟩ | ⟨hlookup, hfind⟩
  · simp only [hlookup, hfind, fetch_eq hi, pure_bind]
    exact conflict_follows h _ (hd.fields g (List.mem_of_getElem? hi)) hf
  simp only [hlookup, hfind, exported_eq, lift_some, pure_bind]
  rcases lookup_table (fun f => Names.exported f.name) d.object.fields (Names.exported f.name) with
    ⟨i, g, hlookup, hi, hfind⟩ | ⟨hlookup, hfind⟩
  · simp only [hlookup, hfind, fetch_eq hi, pure_bind]
    exact conflict_follows h _ (hd.fields g (List.mem_of_getElem? hi)) hf
  simp only [hlookup, hfind]
  cases hwildcard : d.object.wildcard with
  | none => exact hpush
  | some w =>
    rw [Option.filter_some]
    simp only
    split
    · exact conflict_follows h _ (hd.wildcard w hwildcard) hf
    · exact hpush

theorem setWildcard_follows (h : Registers ds arena) (hd : Within ds.length d.object)
    (inherited : Bool) {w : Wildcard} (hw : w.origin < ds.length) :
    Follows ds.length (setWildcard arena inherited (tabled d) w) (d.setWildcard ds inherited w) := by
  have hset : Follows ds.length
      (pure { tabled d with object := { d.object with wildcard := some w } })
      (.ok { d with object := { d.object with wildcard := some w } }) := by
    refine .ok ⟨hd.id, hd.fields, fun v hv => ?_⟩
    obtain rfl := Option.some.inj hv
    exact hw
  unfold setWildcard Resolve.Draft.setWildcard
  rw [tabled_byName, tabled_object]
  cases hwildcard : d.object.wildcard with
  | some v =>
    simp only
    split
    · exact .ok hd
    · exact conflict_follows h _ (hd.wildcard v hwildcard) hw
  | none =>
    simp only [exported_eq, lift_some, pure_bind]
    rcases lookup_table (fun f => Names.exported f.name) d.object.fields (Names.exported w.name) with
      ⟨i, g, hlookup, hi, hfind⟩ | ⟨hlookup, hfind⟩
    · simp only [hlookup, hfind, fetch_eq hi, pure_bind]
      exact conflict_follows h _ (hd.fields g (List.mem_of_getElem? hi)) hw
    · simp only [hlookup, hfind]
      exact hset

theorem arrayCodec_eq (d : Resolve.Draft) (field : Text) (elem : ElemType) :
    arrayCodec (tabled d) field elem =
      some ((d.arrayCodec field elem).1, tabled (d.arrayCodec field elem).2) := by
  unfold arrayCodec Resolve.Draft.arrayCodec
  rw [exported_eq, tabled_object]
  cases d.object.isInterface <;> rfl

theorem arrayCodec_within (hd : Within ds.length d.object) (field : Text) (elem : ElemType) :
    Within ds.length (d.arrayCodec field elem).2.object := by
  rwa [Resolve.Draft.arrayCodec_object]

theorem inheritField_follows (h : Registers ds arena) (hd : Within ds.length d.object) {f : Field}
    (hf : f.origin < ds.length) :
    Follows ds.length (inheritField arena (tabled d) f) (d.inheritField ds f) := by
  unfold inheritField Resolve.Draft.inheritField
  rw [has_eq, lift_some, pure_bind]
  split
  · exact .ok hd
  cases f.type with
  | single elem => exact addField_follows h hd hf
  | array elem codec =>
    simp only [arrayCodec_eq, lift_some, pure_bind]
    exact addField_follows h (arrayCodec_within hd _ _) hf

theorem inheritFrom_follows (h : Registers ds arena) (hd : Within ds.length d.object) {base : Object}
    (hbase : Within ds.length base) :
    Follows ds.length (inheritFrom arena (tabled d) base) (d.inheritFrom ds base) := by
  have hloop : Follows ds.length
      (base.fields.foldlM (inheritField arena) (tabled (d.noteBase base.id)))
      (base.fields.foldlM (Resolve.Draft.inheritField ds) (d.noteBase base.id)) :=
    .foldlM (fun d hd f hf => inheritField_follows h hd (hbase.fields f hf))
      ⟨hd.id, hd.fields, hd.wildcard⟩
  refine hloop.bind fun d hd => ?_
  cases hwildcard : base.wildcard with
  | none => exact .ok hd
  | some w => exact setWildcard_follows h hd true (hbase.wildcard w hwildcard)

theorem elemType_eq (h : Registers ds arena) (d : Resolve.Draft) (p : Schema.Property) :
    elemType ds arena (tabled d) p = safe (d.elemType ds p) := by
  unfold elemType Resolve.Draft.elemType
  cases Scalar.ofName? p.type with
  | some s => rfl
  | none =>
    cases hid : position? ds p.type with
    | none => rfl
    | some id =>
      obtain ⟨decl, hdecl, -⟩ := Resolve.position?_eq_some hid
      obtain ⟨o, decl', ho, hdecl', -, hinterface⟩ :=
        h.exists_at (List.getElem?_eq_some_iff.mp hdecl).1
      simp only [fetch_eq ho, pure_bind, hdecl', hinterface, Option.map_some, Option.getD_some]
      exact (apply_ite safe ..).symm

theorem addProperty_follows (h : Registers ds arena) (hd : Within ds.length d.object)
    (p : Schema.Property) :
    Follows ds.length (addProperty ds arena (tabled d) p) (d.addProperty ds p) := by
  unfold addProperty Resolve.Draft.addProperty
  simp only [elemType_eq h, tabled_object]
  split
  · exact .error _
  split
  · exact .error _
  split
  · exact .error _
  cases d.elemType ds p with
  | error e => exact .error e
  | ok elem =>
    simp only [safe_ok, pure_bind, arrayCodec_eq, lift_some, tabled_object]
    change Follows _ _ (if p.isDictionary = true then _ else if p.isArray = true then _ else _)
    split
    · exact setWildcard_follows h hd false hd.id
    split
    · have hwithin := arrayCodec_within hd p.name elem
      exact addField_follows h hwithin hwithin.id
    · exact addField_follows h hd hd.id

end Fields

/-! ## All objects -/

/-- Every object as it is registered, before any is resolved. -/
def registered (ds : List Schema.Declaration) : List Object :=
  ds.mapIdx fun i d => { id := i, name := d.name, isInterface := d.isInterface }

/-- Puts a value at a position, which must be in range. -/
def store (l : List α) (i : Nat) (a : α) : Checked ε (List α) :=
  ExceptT.lift (if i < l.length then some (l.set i a) else none)

def object (ds : List Schema.Declaration) (arena : List Object) (done : List Bool)
    (arrays : List ArrayCodec) (decl : Schema.Declaration) : Checked ResolveError Draft := do
  let o ← fetch arena ((position? ds decl.name).getD 0)
  let d ← decl.bases.foldlM (addBase ds arena done) { object := o, arrays }
  decl.properties.foldlM (addProperty ds arena) d

def objects (ds : List Schema.Declaration) : (i : Nat) → List Object → List Bool →
    List ArrayCodec → List Schema.Declaration → Checked ResolveError (List Object × List ArrayCodec)
  | _, arena, _, arrays, [] => pure (arena, arrays)
  | i, arena, done, arrays, decl :: rest => do
    let d ← object ds arena done arrays decl
    let arena ← store arena d.object.id d.object
    let done ← store done i true
    objects ds (i + 1) arena done d.arrays rest

def resolve (ds : List Schema.Declaration) (opt : ModelOptions) : Checked ResolveError Model := do
  checkNames [] ds
  let (objects, arrays) ← objects ds 0 (registered ds) (List.replicate ds.length false) [] ds
  pure {
    package := opt.package
    serializer := opt.serializer
    access := opt.access
    objects
    arrays
    aggregates := if opt.makeTypes then objects.map (·.id) else [] }

theorem store_eq {l : List α} {i : Nat} (h : i < l.length) (a : α) :
    (store l i a : Checked ε (List α)) = pure (l.set i a) := by
  rw [store, if_pos h]
  rfl

section Objects

variable {ds : List Schema.Declaration} {resolved : List Object} {d : Resolve.Draft}

/-- The arena once the first objects are resolved. -/
def arenaAfter (ds : List Schema.Declaration) (resolved : List Object) : List Object :=
  resolved ++ (registered ds).drop resolved.length

/-- Which of the objects are resolved, once the first `k` are. -/
def doneAfter (ds : List Schema.Declaration) (k : Nat) : List Bool :=
  (List.range ds.length).map fun i => decide (i < k)

theorem getElem?_registered {i : Nat} {decl : Schema.Declaration} (h : ds[i]? = some decl) :
    (registered ds)[i]? =
      some { id := i, name := decl.name, isInterface := decl.isInterface } := by
  rw [registered, List.getElem?_mapIdx, h]
  rfl

@[simp]
theorem length_doneAfter (k : Nat) : (doneAfter ds k).length = ds.length := by simp [doneAfter]

theorem getElem?_doneAfter {i : Nat} (h : i < ds.length) (k : Nat) :
    (doneAfter ds k)[i]? = some (decide (i < k)) := by
  simp [doneAfter, h]

theorem registers_arenaAfter (h : Arena ds resolved) : Registers ds (arenaAfter ds resolved) := by
  refine List.ext_getElem? fun i => ?_
  rw [List.getElem?_map, List.getElem?_map, arenaAfter]
  rcases Nat.lt_or_ge i resolved.length with hi | hi
  · obtain ⟨decl, hdecl, -, hname, hinterface⟩ := h.head (List.getElem?_eq_getElem hi)
    rw [List.getElem?_append_left hi, List.getElem?_eq_getElem hi, hdecl]
    simp [hname, hinterface]
  · rw [List.getElem?_append_right hi, List.getElem?_drop, Nat.add_sub_cancel' hi, registered,
      List.getElem?_mapIdx, Option.map_map]
    rfl

theorem set_arenaAfter (h : resolved.length < ds.length) (o : Object) :
    (arenaAfter ds resolved).set resolved.length o = arenaAfter ds (resolved ++ [o]) := by
  have hlt : resolved.length < (registered ds).length := by simpa [registered] using h
  rw [arenaAfter, arenaAfter, List.set_append_right _ _ le_rfl, Nat.sub_self,
    List.drop_eq_getElem_cons hlt, List.set_cons_zero, List.length_append, List.append_assoc]
  rfl

theorem set_doneAfter {k : Nat} (h : k < ds.length) :
    (doneAfter ds k).set k true = doneAfter ds (k + 1) := by
  refine List.ext_getElem? fun i => ?_
  rw [List.getElem?_set, length_doneAfter]
  rcases Nat.lt_or_ge i ds.length with hi | hi
  · rw [getElem?_doneAfter hi, getElem?_doneAfter hi]
    split
    · simp_all
    · simp
      omega
  · rw [if_neg (by omega), List.getElem?_eq_none (by simpa using hi),
      List.getElem?_eq_none (by simpa using hi)]

theorem addBase_follows (h : Registers ds (arenaAfter ds resolved))
    (hresolved : ∀ b ∈ resolved, Within ds.length b) (hd : Within ds.length d.object) (base : Text) :
    Follows ds.length
      (addBase ds (arenaAfter ds resolved) (doneAfter ds resolved.length) (tabled d) base)
      (d.addBase ds resolved base) := by
  unfold addBase Resolve.Draft.addBase
  cases hid : position? ds base with
  | none => exact .error _
  | some id =>
    obtain ⟨decl, hdecl, -⟩ := Resolve.position?_eq_some hid
    have hlt : id < ds.length := (List.getElem?_eq_some_iff.mp hdecl).1
    simp only [fetch_eq (getElem?_doneAfter hlt _), pure_bind, decide_eq_true_eq]
    rcases Nat.lt_or_ge id resolved.length with hi | hi
    · have hat : (arenaAfter ds resolved)[id]? = some resolved[id] := by
        rw [arenaAfter, List.getElem?_append_left hi, List.getElem?_eq_getElem hi]
      simp only [if_pos hi, fetch_eq hat, pure_bind, List.getElem?_eq_getElem hi]
      exact inheritFrom_follows h hd (hresolved _ (List.getElem_mem hi))
    · simp only [if_neg (Nat.not_lt.mpr hi), List.getElem?_eq_none hi]
      exact .error _

theorem object_follows (hnames : (ds.map (·.name)).Nodup) (h : Arena ds resolved)
    (hresolved : ∀ b ∈ resolved, Within ds.length b) {decl : Schema.Declaration}
    (hdecl : ds[resolved.length]? = some decl) (arrays : List ArrayCodec) :
    Follows ds.length
      (object ds (arenaAfter ds resolved) (doneAfter ds resolved.length) arrays decl)
      (Resolve.object ds resolved arrays decl) := by
  have hlt : resolved.length < ds.length := (List.getElem?_eq_some_iff.mp hdecl).1
  have hregisters := registers_arenaAfter h
  have hat : (arenaAfter ds resolved)[resolved.length]? =
      some { id := resolved.length, name := decl.name, isInterface := decl.isInterface } := by
    rw [arenaAfter, List.getElem?_append_right le_rfl, List.getElem?_drop, Nat.sub_self]
    exact getElem?_registered hdecl
  unfold object Resolve.object
  rw [Resolve.position?_of_name hnames hdecl, Option.getD_some, fetch_eq hat, pure_bind]
  refine .bind (.foldlM (fun d hd base _ => addBase_follows hregisters hresolved hd base) ?_)
    fun d hd => .foldlM (fun d hd p _ => addProperty_follows hregisters hd p) hd
  exact ⟨hlt, by simp, by simp⟩

theorem objects_eq (hnames : (ds.map (·.name)).Nodup) {decls : List Schema.Declaration}
    (hdecls : decls = ds.drop resolved.length) (h : Arena ds resolved)
    (hresolved : ∀ b ∈ resolved, Within ds.length b) (arrays : List ArrayCodec) :
    objects ds resolved.length (arenaAfter ds resolved) (doneAfter ds resolved.length) arrays decls =
      safe (Resolve.objects ds resolved arrays decls) := by
  induction decls generalizing resolved arrays with
  | nil =>
    have hall : ds.length ≤ resolved.length := List.drop_eq_nil_iff.mp hdecls.symm
    have harena : arenaAfter ds resolved = resolved := by
      rw [arenaAfter, List.drop_eq_nil_iff.mpr (by simpa [registered] using hall), List.append_nil]
    rw [objects, harena]
    rfl
  | cons decl decls ih =>
    obtain ⟨hdecl, hrest⟩ := Resolve.next_of_drop hdecls
    have hlt : resolved.length < ds.length := (List.getElem?_eq_some_iff.mp hdecl).1
    obtain ⟨hobject, hwithin⟩ := object_follows hnames h hresolved hdecl arrays
    rw [objects, hobject, Resolve.objects]
    cases hd : Resolve.object ds resolved arrays decl with
    | error e => rfl
    | ok d =>
      obtain ⟨⟨bases, own, hgathers⟩, -⟩ := Resolve.gathers_of_object h.keyed hd
      have hid : d.object.id = resolved.length := hgathers.head_eq.1
      have harena : (arenaAfter ds resolved).length = ds.length := by
        simpa using congrArg List.length (registers_arenaAfter h)
      have hnext := ih (hrest d.object) (h.snoc hdecl hd)
        (by simpa [or_imp, forall_and, hwithin d hd] using hresolved) d.arrays
      rw [List.length_append, List.length_singleton] at hnext
      simp only [Except.map, safe_ok, pure_bind, tabled_object, tabled_arrays, hid,
        store_eq (harena ▸ hlt), store_eq (length_doneAfter resolved.length ▸ hlt),
        set_arenaAfter hlt, set_doneAfter hlt]
      exact hnext

end Objects

theorem resolve_eq (ds : List Schema.Declaration) (opt : ModelOptions) :
    resolve ds opt = safe (Model.resolve ds opt) := by
  have hstart : List.replicate ds.length false = doneAfter ds 0 := by simp [doneAfter]
  rw [resolve, Model.resolve, hstart]
  refine (congrArg (· >>= _) (checkNames_eq [] ds)).trans (safe_bind fun _ hnames => ?_)
  have hnodup : (ds.map (·.name)).Nodup := by
    refine .of_map Names.lastSegment ?_
    rw [List.map_map]
    exact (Resolve.checkNames_eq_ok_iff.mp hnames).2.2
  have hobjects := objects_eq hnodup (show ds = ds.drop ([] : List Object).length from rfl)
    (fun i o hi => by simp at hi) (by simp) []
  exact (congrArg (· >>= _) hobjects).trans (safe_bind fun _ _ => rfl)

end WireSchema.Checked
