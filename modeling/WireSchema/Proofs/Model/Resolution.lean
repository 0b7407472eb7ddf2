import Mathlib.Data.List.Forall2
import Mathlib.Data.List.Induction
import WireSchema.Model.Resolve
import WireSchema.Proofs.Lists
import WireSchema.Proofs.Model.Slots

/-!
# How objects are resolved

An object is resolved by going through slots, first those of its bases and then those that its
properties declare: an inherited one that is there already is passed over, any other must not clash
with those before it. `Draft.Gains` says all that taking in a slot does to a draft, `Gathers` what
becomes of a declaration, and `Arena` that every object of a model came about in this way.
-/

namespace WireSchema

namespace Resolve

/-- The base of that name is among the objects before position `i`. -/
def Finds (ds : List Schema.Declaration) (os : List Object) (i : Nat) (name : Text) (b : Object) :
    Prop :=
  ∃ j < i, position? ds name = some j ∧ os[j]? = some b

/-! ## Operations on drafts -/

namespace Draft

/-- Takes in a slot: as the dictionary, or as a field, which gets a codec if it is an array. -/
def addSlot (ds : List Schema.Declaration) (d : Draft) (a : Slot) :
    Except ResolveError Draft :=
  match a.shape with
  | .single => d.addField ds ⟨a.key, a.name, .single a.elem, a.origin⟩
  | .array =>
    let issued := d.arrayCodec a.name a.elem
    issued.2.addField ds ⟨a.key, a.name, .array a.elem issued.1, a.origin⟩
  | .dictionary => d.setWildcard ds false ⟨a.name, a.elem, a.origin⟩

/-- Has the slot come in already, from the same declaration? -/
def hasSlot (d : Draft) (a : Slot) : Bool :=
  if a.isDictionary then d.object.wildcard.any (·.origin == a.origin)
  else
    match d.object.fields.find? (·.key == a.key) with
    | some g => g.origin == a.origin && g.name == a.name
    | none => false

def noteBase (d : Draft) (id : Nat) : Draft :=
  { d with object := { d.object with bases := d.object.bases ++ [id] } }

def inherit (ds : List Schema.Declaration) (d : Draft) (a : Slot) :
    Except ResolveError Draft :=
  if d.hasSlot a then .ok d else d.addSlot ds a

variable {ds : List Schema.Declaration} {d d' : Draft} {a : Slot}

@[simp]
theorem arrayCodec_object (field : Text) (elem : ElemType) :
    (d.arrayCodec field elem).2.object = d.object := by
  unfold arrayCodec
  split <;> rfl

theorem inheritField_eq (f : Field) : d.inheritField ds f = d.inherit ds f.slot := by
  obtain ⟨key, name, type, origin⟩ := f
  cases type <;> rfl

theorem setWildcard_inherited (w : Wildcard) :
    d.setWildcard ds true w = d.inherit ds w.slot := by
  have hadd : d.addSlot ds w.slot = d.setWildcard ds false w := rfl
  unfold inherit hasSlot
  rw [hadd]
  unfold setWildcard
  cases hw : d.object.wildcard with
  | none => simp
  | some v => simp

theorem inheritFrom_eq (base : Object) :
    d.inheritFrom ds base = base.slots.foldlM (inherit ds) (d.noteBase base.id) := by
  unfold inheritFrom noteBase Object.slots
  rw [List.foldlM_append, List.foldlM_map]
  simp only [← inheritField_eq]
  congr 1
  funext d₁
  cases base.wildcard with
  | none => rfl
  | some w =>
    simp only [setWildcard_inherited, Option.toList_some, List.map_cons, List.map_nil,
      List.foldlM_cons, List.foldlM_nil, bind_pure]

theorem denotes_of_elemType {p : Schema.Property} {elem : ElemType}
    (h : d.elemType ds p = .ok elem) :
    Schema.Denotes ds p.type elem := by
  unfold elemType at h
  split at h
  · cases h
    assumption
  rename_i hscalar
  split at h
  · cases h
  rename_i id hid
  obtain ⟨hlt, hname, -⟩ := List.findIdx?_eq_some_iff_getElem.mp hid
  rw [List.getElem?_eq_getElem hlt] at h
  split at h
  · cases h
  rename_i hinterface
  cases h
  exact ⟨hscalar, ds[id], List.getElem?_eq_getElem hlt, by simpa using hname,
    by simpa using hinterface⟩

theorem addSlot_declared (p : Schema.Property) (elem : ElemType) :
    d.addSlot ds (p.slot d.object.id elem) =
      if p.isDictionary then d.setWildcard ds false ⟨p.name, elem, d.object.id⟩
      else if p.isArray then
        let (codec, d) := d.arrayCodec p.name elem
        d.addField ds ⟨p.key, p.name, .array elem codec, d.object.id⟩
      else d.addField ds ⟨p.key, p.name, .single elem, d.object.id⟩ := by
  unfold addSlot Schema.Property.slot Schema.Property.shape
  cases p.isDictionary <;> cases p.isArray <;> simp

theorem mem_brackets {b : UInt8} : b ∈ Text.ofString "[]\x7b\x7d" ↔
    (b == 0x5B || b == 0x5D || b == 0x7B || b == 0x7D) = true := by
  rw [show Text.ofString "[]\x7b\x7d" = [0x5B, 0x5D, 0x7B, 0x7D] from rfl]
  simp only [Bool.or_eq_true, beq_iff_eq, List.mem_cons, List.not_mem_nil, or_false, or_assoc]

theorem proper_of_addProperty {p : Schema.Property} (h : d.addProperty ds p = .ok d') :
    p.Proper := by
  unfold addProperty at h
  simp only at h
  split at h
  · cases h
  rename_i hplain
  split at h
  · cases h
  rename_i hdictionary
  split at h
  · cases h
  rename_i hstar
  rw [Bool.not_eq_true, Bool.or_eq_false_iff] at hplain
  obtain ⟨hplain, hone⟩ := hplain
  refine ⟨fun b hb hmem => ?_, by simpa using hone, fun hd => ?_, fun hkey => ?_⟩
  · exact List.any_eq_false.mp hplain b hb (mem_brackets.mp hmem)
  · simpa [hd] using hdictionary
  · simpa [hkey] using hstar

theorem addProperty_eq {p : Schema.Property} (h : p.Proper) :
    d.addProperty ds p =
      d.elemType ds p >>= fun elem => d.addSlot ds (p.slot d.object.id elem) := by
  obtain ⟨hplain, hone, hstar⟩ := h
  have hplain : (p.type.any fun b => b == 0x5B || b == 0x5D || b == 0x7B || b == 0x7D) = false := by
    rw [List.any_eq_false]
    exact fun b hb => mem_brackets.not.mp (hplain b hb)
  unfold addProperty
  simp only [hplain, addSlot_declared]
  cases hd : p.isDictionary with
  | false =>
    have hkey : p.key ≠ "*" := fun hkey => by simp [hstar.mpr hkey] at hd
    simp [hkey]
  | true =>
    simp [hstar.mp hd, hd] at hone ⊢
    simp [hone]

/-! ## What taking in a slot does -/

theorem addField_eq_ok_iff {f : Field} :
    d.addField ds f = .ok d' ↔ (∀ g ∈ d.object.fields, g.key ≠ f.key) ∧
      (∀ g ∈ d.object.fields, Names.exported g.name ≠ Names.exported f.name) ∧
      (∀ w, d.object.wildcard = some w → Names.exported w.name ≠ Names.exported f.name) ∧
      d' = { d with object := { d.object with fields := d.object.fields ++ [f] } } := by
  constructor
  · intro h
    unfold addField at h
    split at h
    · cases h
    rename_i hkey
    split at h
    · cases h
    rename_i hname
    split at h
    · cases h
    rename_i hwildcard
    cases h
    refine ⟨by simpa using hkey, by simpa using hname, fun w hw => ?_, rfl⟩
    simpa [hw] using hwildcard
  · rintro ⟨hkey, hname, hwildcard, rfl⟩
    have hkey : d.object.fields.find? (·.key == f.key) = none := by simpa using hkey
    have hname : d.object.fields.find? (Names.exported ·.name == Names.exported f.name) = none := by
      simpa using hname
    have hwildcard :
        d.object.wildcard.filter (Names.exported ·.name == Names.exported f.name) = none := by
      simpa using hwildcard
    simp only [addField, hkey, hname, hwildcard]

theorem setWildcard_eq_ok_iff {w : Wildcard} :
    d.setWildcard ds false w = .ok d' ↔ d.object.wildcard = none ∧
      (∀ g ∈ d.object.fields, Names.exported g.name ≠ Names.exported w.name) ∧
      d' = { d with object := { d.object with wildcard := some w } } := by
  constructor
  · intro h
    unfold setWildcard at h
    split at h
    · cases h
    rename_i hnone
    split at h
    · cases h
    rename_i hname
    cases h
    exact ⟨hnone, by simpa using hname, rfl⟩
  · rintro ⟨hnone, hname, rfl⟩
    have hname : d.object.fields.find? (Names.exported ·.name == Names.exported w.name) = none := by
      simpa using hname
    simp only [setWildcard, hnone, hname]

/-- The array codecs once a field has the codec that it needs. -/
def Issues (d : Draft) (f : Field) (arrays : List ArrayCodec) : Prop :=
  match f.type with
  | .single _ => arrays = d.arrays
  | .array elem codec =>
    codec = (d.arrayCodec f.name elem).1 ∧ arrays = (d.arrayCodec f.name elem).2.arrays

/-- All that becomes of a draft that takes in a slot, and what has been checked. -/
inductive Gains (d : Draft) (a : Slot) : Draft → Prop
  | field {f : Field} {arrays : List ArrayCodec} (hslot : f.slot = a) (hissues : d.Issues f arrays)
      (hkey : ∀ g ∈ d.object.fields, g.key ≠ f.key)
      (hname : ∀ g ∈ d.object.fields, Names.exported g.name ≠ Names.exported f.name)
      (hwildcard : ∀ w, d.object.wildcard = some w →
        Names.exported w.name ≠ Names.exported f.name) :
      Gains d a ⟨{ d.object with fields := d.object.fields ++ [f] }, arrays⟩
  | wildcard {w : Wildcard} (hslot : w.slot = a) (hnone : d.object.wildcard = none)
      (hname : ∀ g ∈ d.object.fields, Names.exported g.name ≠ Names.exported w.name) :
      Gains d a { d with object := { d.object with wildcard := some w } }

/-- What can be done to a draft at once. -/
inductive Step (d : Draft) : Draft → Prop
  | base (id : Nat) : Step d (d.noteBase id)
  | slot {a : Slot} {d' : Draft} (h : d.Gains a d') : Step d d'

/-- What can be done to a draft one after another. -/
abbrev Steps : Draft → Draft → Prop := Relation.ReflTransGen Step

theorem gains_of_addSlot (ha : a.Keyed) (h : d.addSlot ds a = .ok d') : d.Gains a d' := by
  obtain ⟨key, name, shape, elem, origin⟩ := a
  cases shape with
  | single =>
    obtain ⟨hkey, hname, hwildcard, rfl⟩ := addField_eq_ok_iff.mp h
    exact .field rfl rfl hkey hname hwildcard
  | array =>
    obtain ⟨hkey, hname, hwildcard, rfl⟩ := addField_eq_ok_iff.mp h
    simp only [arrayCodec_object] at hkey hname hwildcard ⊢
    exact .field rfl ⟨rfl, rfl⟩ hkey hname hwildcard
  | dictionary =>
    obtain ⟨hnone, hname, rfl⟩ := setWildcard_eq_ok_iff.mp h
    obtain rfl : key = "*" := ha.mp rfl
    exact .wildcard rfl hnone hname

theorem exists_addSlot (ds : List Schema.Declaration) (ha : a.Keyed)
    (h : ∀ b ∈ d.object.slots, ¬b.Clashes a) : ∃ d', d.addSlot ds a = .ok d' := by
  have hfield (f : Field) (hf : f ∈ d.object.fields) :
      f.key ≠ a.key ∧ Names.exported f.name ≠ Names.exported a.name := by
    have := h f.slot (List.mem_append_left _ (List.mem_map_of_mem hf))
    simpa [Slot.Clashes] using this
  have hwildcard (w : Wildcard) (hw : d.object.wildcard = some w) :
      "*" ≠ a.key ∧ Names.exported w.name ≠ Names.exported a.name := by
    have := h w.slot (List.mem_append_right _ (by simp [hw]))
    simpa [Slot.Clashes] using this
  obtain ⟨key, name, shape, elem, origin⟩ := a
  cases shape with
  | single =>
    exact ⟨_, addField_eq_ok_iff.mpr ⟨fun g hg => (hfield g hg).1, fun g hg => (hfield g hg).2,
      fun w hw => (hwildcard w hw).2, rfl⟩⟩
  | array =>
    refine ⟨_, addField_eq_ok_iff.mpr ⟨?_, ?_, ?_, rfl⟩⟩
    all_goals rw [arrayCodec_object]
    · exact fun g hg => (hfield g hg).1
    · exact fun g hg => (hfield g hg).2
    · exact fun w hw => (hwildcard w hw).2
  | dictionary =>
    obtain rfl : key = "*" := ha.mp rfl
    have hnone : d.object.wildcard = none :=
      Option.eq_none_iff_forall_ne_some.mpr fun w hw => (hwildcard w hw).1 rfl
    exact ⟨_, setWildcard_eq_ok_iff.mpr ⟨hnone, fun g hg => (hfield g hg).2, rfl⟩⟩

/-! ## The slots of a draft -/

theorem Gains.head (h : d.Gains a d') : d'.object.head = d.object.head := by cases h <;> rfl

theorem Gains.not_clashes {as : List Slot} (h : d.Gains a d') (hd : d.object.Has as)
    (ha : a.Keyed) :
    ∀ b ∈ as, ¬b.Clashes a := by
  intro b hb hclash
  have hkeyed := hd.keyed b hb
  rw [← hd.mem_slots, Object.slots, List.mem_append, List.mem_map, List.mem_map] at hb
  cases h with
  | field hslot _ hkey hname hwildcard =>
    subst hslot
    rcases hb with ⟨g, hg, rfl⟩ | ⟨w, hw, rfl⟩ <;> rcases hclash with hclash | hclash
    · exact hkey g hg (by simpa using hclash)
    · exact hname g hg (by simpa using hclash)
    · simpa using ha.mpr hclash.symm
    · exact hwildcard w (by simpa using hw) (by simpa using hclash)
  | wildcard hslot hnone hname =>
    subst hslot
    rcases hb with ⟨g, hg, rfl⟩ | ⟨w, hw, rfl⟩
    · rcases hclash with hclash | hclash
      · simpa using hkeyed.mpr hclash
      · exact hname g hg (by simpa using hclash)
    · simp [hnone] at hw

theorem Gains.has {as : List Slot} (h : d.Gains a d') (hd : d.object.Has as) (ha : a.Keyed) :
    d'.object.Has (as ++ [a]) := by
  have hdistinct := h.not_clashes hd ha
  obtain ⟨hfields, hwildcard, hkeyed, hpairwise⟩ := hd
  refine ⟨?_, ?_, ?_, ?_⟩
  · cases h with
    | field hslot => simp [← hslot, hfields]
    | wildcard hslot => simp [← hslot, hfields]
  · cases h with
    | field hslot => simp [← hslot, hwildcard]
    | wildcard hslot hnone =>
      rw [hnone] at hwildcard
      simp [← hslot, ← hwildcard, List.filter_cons]
  · simpa [or_imp, forall_and] using ⟨hkeyed, ha⟩
  · rw [List.pairwise_append]
    exact ⟨hpairwise, List.pairwise_singleton _ _, by simpa using hdistinct⟩

theorem hasSlot_of_mem {as : List Slot} (hd : d.object.Has as) (ha : a ∈ as) :
    d.hasSlot a = true := by
  have hslots := hd.mem_slots.mpr ha
  rw [Object.slots, List.mem_append, List.mem_map, List.mem_map] at hslots
  unfold hasSlot
  rcases hslots with ⟨f, hf, rfl⟩ | ⟨w, hw, rfl⟩
  · obtain ⟨g, hfind⟩ : ∃ g, d.object.fields.find? (·.key == f.key) = some g :=
      Option.isSome_iff_exists.mp (List.find?_isSome.mpr ⟨f, hf, by simp⟩)
    have hg : g.slot = f.slot := by
      refine hd.eq_of_clashes (hd.mem_slots.mp ?_) ha (.inl ?_)
      · exact List.mem_append_left _ (List.mem_map_of_mem (List.mem_of_find?_eq_some hfind))
      · simpa using List.find?_some hfind
    have hname : g.name = f.name := by simpa using congrArg Slot.name hg
    have horigin : g.origin = f.origin := by simpa using congrArg Slot.origin hg
    simp [hfind, hname, horigin]
  · have hw : d.object.wildcard = some w := by simpa using hw
    simp [hw]

theorem any_same_of_hasSlot {as : List Slot} (hd : d.object.Has as) (ha : a.Keyed)
    (h : d.hasSlot a = true) : as.any a.same = true := by
  have hmem {b : Slot} (hb : b ∈ d.object.slots) (horigin : b.origin = a.origin)
      (hkey : b.key = a.key) : as.any a.same = true :=
    List.any_eq_true.mpr ⟨b, hd.mem_slots.mp hb, by simp [Slot.same, horigin, hkey]⟩
  unfold hasSlot at h
  split at h
  · rename_i hdict
    obtain ⟨w, hw, horigin⟩ := (Option.any_eq_true _ _).mp h
    refine hmem (List.mem_append_right _ (List.mem_map_of_mem (by simpa using hw))) ?_
      (ha.mp hdict).symm
    simpa using horigin
  · split at h
    · rename_i g hfind
      simp only [Bool.and_eq_true, beq_iff_eq] at h
      refine hmem (List.mem_append_left _
        (List.mem_map_of_mem (List.mem_of_find?_eq_some hfind))) ?_ ?_
      · simpa using h.1
      · simpa using List.find?_some hfind
    · cases h

theorem has_of_inherit {as : List Slot} (hd : d.object.Has as) (ha : a.Keyed)
    (h : d.inherit ds a = .ok d') :
    d'.object.Has (if as.any a.same then as else as ++ [a]) ∧ d'.object.head = d.object.head ∧
      Steps d d' := by
  unfold inherit at h
  split at h
  · rename_i hhas
    cases h
    rw [if_pos (any_same_of_hasSlot hd ha hhas)]
    exact ⟨hd, rfl, .refl⟩
  · have hgains := gains_of_addSlot ha h
    have hnew : ¬as.any a.same = true := by
      rw [List.any_eq_true]
      rintro ⟨b, hb, hsame⟩
      exact hgains.not_clashes hd ha b hb (Slot.Clashes.of_same hsame).symm
    rw [if_neg hnew]
    exact ⟨hgains.has hd ha, hgains.head, .single (.slot hgains)⟩

theorem exists_inherit (ds : List Schema.Declaration) {as : List Slot} (hd : d.object.Has as)
    (ha : a.Keyed) (h : ∀ b ∈ as, b.Clashes a → b = a) : ∃ d', d.inherit ds a = .ok d' := by
  unfold inherit
  split
  · exact ⟨d, rfl⟩
  rename_i hnew
  refine exists_addSlot ds ha fun b hb hclash => hnew ?_
  have hb := hd.mem_slots.mp hb
  exact hasSlot_of_mem hd (h b hb hclash ▸ hb)

/-! ## A whole object -/

theorem has_of_foldlM_inherit {seen as : List Slot} (hd : d.object.Has (seen.eraseDupsBy Slot.same))
    (has : ∀ a ∈ as, a.Keyed) (h : as.foldlM (inherit ds) d = .ok d') :
    d'.object.Has ((seen ++ as).eraseDupsBy Slot.same) ∧ d'.object.head = d.object.head ∧
      Steps d d' := by
  induction as generalizing d seen with
  | nil =>
    cases h
    exact ⟨by simpa using hd, rfl, .refl⟩
  | cons a as ih =>
    rw [List.foldlM_cons] at h
    obtain ⟨d₁, ha, h⟩ := bind_eq_ok_iff.mp h
    obtain ⟨hd₁, hhead₁, hsteps₁⟩ := has_of_inherit hd (has a (by simp)) ha
    rw [← eraseDupsBy_concat] at hd₁
    obtain ⟨hd', hhead, hsteps⟩ := ih hd₁ (fun b hb => has b (by simp [hb])) h
    rw [List.append_assoc] at hd'
    exact ⟨hd', hhead.trans hhead₁, hsteps₁.trans hsteps⟩

theorem exists_foldlM_inherit (ds : List Schema.Declaration) {seen as : List Slot}
    (hd : d.object.Has (seen.eraseDupsBy Slot.same)) (has : ∀ a ∈ as, a.Keyed)
    (h : ∀ a ∈ seen ++ as, ∀ b ∈ seen ++ as, a.Clashes b → a = b) :
    ∃ d', as.foldlM (inherit ds) d = .ok d' := by
  induction as generalizing d seen with
  | nil => exact ⟨d, rfl⟩
  | cons a as ih =>
    obtain ⟨d₁, ha⟩ := exists_inherit ds hd (has a (by simp)) fun b hb =>
      h b (by simp [mem_of_mem_eraseDupsBy hb]) a (by simp)
    have hd₁ := (has_of_inherit hd (has a (by simp)) ha).1
    rw [← eraseDupsBy_concat] at hd₁
    rw [List.foldlM_cons, ha]
    exact ih hd₁ (fun b hb => has b (by simp [hb])) (by simpa using h)

theorem addBase_eq_ok_iff {resolved : List Object} {name : Text} :
    d.addBase ds resolved name = .ok d' ↔
      ∃ b, Finds ds resolved resolved.length name b ∧ d.inheritFrom ds b = .ok d' := by
  unfold addBase
  cases hposition : position? ds name with
  | none => simp [Finds, hposition]
  | some id =>
    cases hid : resolved[id]? with
    | none => simp [Finds, hposition, hid]
    | some b =>
      have hlt := (List.getElem?_eq_some_iff.mp hid).1
      simp [Finds, hposition, hlt]

theorem noteBase_has {as : List Slot} (hd : d.object.Has as) (id : Nat) :
    (d.noteBase id).object.Has as :=
  ⟨hd.fields, hd.wildcard, hd.keyed, hd.distinct⟩

theorem has_of_addBases {resolved : List Object} (hkeyed : ∀ b ∈ resolved, ∀ a ∈ b.slots, a.Keyed)
    {seen : List Slot} (hd : d.object.Has (seen.eraseDupsBy Slot.same)) {names : List Text}
    (h : names.foldlM (addBase ds resolved) d = .ok d') :
    ∃ bases, List.Forall₂ (Finds ds resolved resolved.length) names bases ∧
      d'.object.Has ((seen ++ bases.flatMap Object.slots).eraseDupsBy Slot.same) ∧
      d'.object.head = (d.object.id, d.object.name, d.object.isInterface,
        d.object.bases ++ bases.map Object.id) ∧
      Steps d d' := by
  induction names generalizing d seen with
  | nil =>
    cases h
    exact ⟨[], .nil, by simpa using hd, by simp [Object.head], .refl⟩
  | cons name names ih =>
    rw [List.foldlM_cons] at h
    obtain ⟨d₁, hname, h⟩ := bind_eq_ok_iff.mp h
    obtain ⟨b, hfinds, hname⟩ := addBase_eq_ok_iff.mp hname
    have hb : b ∈ resolved := List.mem_of_getElem? hfinds.choose_spec.2.2
    rw [inheritFrom_eq] at hname
    obtain ⟨hd₁, hhead₁, hsteps₁⟩ :=
      has_of_foldlM_inherit (noteBase_has hd b.id) (hkeyed b hb) hname
    obtain ⟨bases, hbases, hd', hhead, hsteps⟩ := ih hd₁ h
    refine ⟨b :: bases, .cons hfinds hbases, by simpa using hd', ?_,
      .head (.base b.id) (hsteps₁.trans hsteps)⟩
    simp only [Object.head, Prod.mk.injEq] at hhead₁ hhead ⊢
    simp only [hhead, hhead₁, noteBase, List.append_assoc, List.map_cons, List.cons_append,
      List.nil_append, and_self]

theorem exists_addBases {resolved : List Object} (hkeyed : ∀ b ∈ resolved, ∀ a ∈ b.slots, a.Keyed)
    {seen : List Slot} (hd : d.object.Has (seen.eraseDupsBy Slot.same)) {names : List Text}
    {bases : List Object} (hbases : List.Forall₂ (Finds ds resolved resolved.length) names bases)
    (hclash : ∀ a ∈ seen ++ bases.flatMap Object.slots, ∀ b ∈ seen ++ bases.flatMap Object.slots,
      a.Clashes b → a = b) :
    ∃ d', names.foldlM (addBase ds resolved) d = .ok d' ∧
      d'.object.Has ((seen ++ bases.flatMap Object.slots).eraseDupsBy Slot.same) ∧
      d'.object.id = d.object.id := by
  induction hbases generalizing d seen with
  | nil => exact ⟨d, rfl, by simpa using hd, rfl⟩
  | @cons name b names bases hfinds _ ih =>
    have hb := hkeyed b (List.mem_of_getElem? hfinds.choose_spec.2.2)
    rw [List.flatMap_cons, ← List.append_assoc] at hclash ⊢
    obtain ⟨d₁, hinherit⟩ := exists_foldlM_inherit ds (noteBase_has hd b.id) hb fun a ha c hc =>
      hclash a (List.mem_append_left _ ha) c (List.mem_append_left _ hc)
    have hname : d.addBase ds resolved name = .ok d₁ :=
      addBase_eq_ok_iff.mpr ⟨b, hfinds, (inheritFrom_eq b).trans hinherit⟩
    obtain ⟨hd₁, hhead₁, -⟩ := has_of_foldlM_inherit (noteBase_has hd b.id) hb hinherit
    obtain ⟨d', h, hd', hid⟩ := ih hd₁ hclash
    refine ⟨d', ?_, hd', hid.trans (congrArg Prod.fst hhead₁)⟩
    rw [List.foldlM_cons, hname]
    exact h

theorem has_of_addProperties {as : List Slot} (hd : d.object.Has as) {ps : List Schema.Property}
    (h : ps.foldlM (addProperty ds) d = .ok d') :
    ∃ own, List.Forall₂ (fun p a => p.Proper ∧ Schema.Declares ds d.object.id p a) ps own ∧
      d'.object.Has (as ++ own) ∧ d'.object.head = d.object.head ∧ Steps d d' := by
  induction ps generalizing d as with
  | nil =>
    cases h
    exact ⟨[], .nil, by simpa using hd, rfl, .refl⟩
  | cons p ps ih =>
    rw [List.foldlM_cons] at h
    obtain ⟨d₁, hp, h⟩ := bind_eq_ok_iff.mp h
    have hproper := proper_of_addProperty hp
    rw [addProperty_eq hproper] at hp
    obtain ⟨elem, helem, hp⟩ := bind_eq_ok_iff.mp hp
    have hgains := gains_of_addSlot (hproper.keyed _ _) hp
    obtain ⟨own, hown, hd', hhead, hsteps⟩ := ih (hgains.has hd (hproper.keyed _ _)) h
    have hid : d₁.object.id = d.object.id := congrArg Prod.fst hgains.head
    rw [hid] at hown
    exact ⟨_, .cons ⟨hproper, elem, denotes_of_elemType helem, rfl⟩ hown, by simpa using hd',
      hhead.trans hgains.head, .head (.slot hgains) hsteps⟩

theorem exists_addProperties {as own : List Slot} (hd : d.object.Has as) {ps : List Schema.Property}
    (hown : List.Forall₂ (fun p a => p.Proper ∧ ∃ elem, (∀ d, elemType ds d p = .ok elem) ∧
      a = p.slot d.object.id elem) ps own)
    (hdistinct : (as ++ own).Pairwise fun a b => ¬a.Clashes b) :
    ∃ d', ps.foldlM (addProperty ds) d = .ok d' := by
  generalize hid : d.object.id = id at hown
  induction hown generalizing d as with
  | nil => exact ⟨d, rfl⟩
  | @cons p a ps own hp _ ih =>
    obtain ⟨hproper, elem, helem, rfl⟩ := hp
    have hkeyed := hproper.keyed id elem
    have hnew : ∀ b ∈ d.object.slots, ¬b.Clashes (p.slot id elem) := fun b hb =>
      (List.pairwise_append.mp hdistinct).2.2 b (hd.mem_slots.mp hb) _ (by simp)
    obtain ⟨d₁, hadd⟩ := exists_addSlot ds hkeyed hnew
    have hgains := gains_of_addSlot hkeyed hadd
    have hp : d.addProperty ds p = .ok d₁ := by
      rw [addProperty_eq hproper, helem, hid]
      exact hadd
    rw [List.foldlM_cons, hp]
    exact ih (hgains.has hd hkeyed) (by simpa using hdistinct)
      ((congrArg Prod.fst hgains.head).trans hid)

end Draft

open Draft

/-- What resolving the declaration at position `i` gives: the bases that are found and the slots
that its properties declare, and from both the slots of the object. -/
structure Gathers (ds : List Schema.Declaration) (os : List Object) (i : Nat)
    (decl : Schema.Declaration) (bases : List Object) (own : List Slot) (o : Object) : Prop where
  head : o.head = (i, decl.name, decl.isInterface, bases.map Object.id)
  finds : List.Forall₂ (Finds ds os i) decl.bases bases
  declares : List.Forall₂ (fun p a => p.Proper ∧ Schema.Declares ds i p a) decl.properties own
  has : o.Has ((bases.flatMap Object.slots).eraseDupsBy Slot.same ++ own)

theorem Gathers.head_eq {ds : List Schema.Declaration} {os : List Object} {i : Nat}
    {decl : Schema.Declaration} {bases : List Object} {own : List Slot} {o : Object}
    (h : Gathers ds os i decl bases own o) :
    o.id = i ∧ o.name = decl.name ∧ o.isInterface = decl.isInterface ∧
      o.bases = bases.map Object.id := by
  simpa only [Object.head, Prod.mk.injEq] using h.head

section Objects

variable {ds : List Schema.Declaration} {resolved : List Object} {arrays : List ArrayCodec}
  {decl : Schema.Declaration}

theorem gathers_of_object {d : Draft} (hkeyed : ∀ b ∈ resolved, ∀ a ∈ b.slots, a.Keyed)
    (h : object ds resolved arrays decl = .ok d) :
    (∃ bases own, Gathers ds resolved resolved.length decl bases own d.object) ∧
      Steps ⟨{ id := resolved.length, name := decl.name, isInterface := decl.isInterface }, arrays⟩
        d := by
  obtain ⟨d₁, hbases, h⟩ := bind_eq_ok_iff.mp h
  have hempty : Object.Has
      { id := resolved.length, name := decl.name, isInterface := decl.isInterface }
      (List.eraseDupsBy Slot.same []) := ⟨rfl, rfl, by simp, by simp⟩
  obtain ⟨bases, hfinds, hd₁, hhead₁, hsteps₁⟩ := has_of_addBases hkeyed hempty hbases
  obtain ⟨own, hown, hd, hhead, hsteps⟩ := has_of_addProperties hd₁ h
  have hid : d₁.object.id = resolved.length := congrArg Prod.fst hhead₁
  rw [hid] at hown
  exact ⟨⟨bases, own, hhead.trans hhead₁, hfinds, hown, hd⟩, hsteps₁.trans hsteps⟩

/-- A declaration can be resolved if its bases are found, its properties declare slots, and slots
clash only where they are one and the same inherited slot. -/
theorem exists_object {bases : List Object} {own : List Slot} (arrays : List ArrayCodec)
    (hkeyed : ∀ b ∈ resolved, ∀ a ∈ b.slots, a.Keyed)
    (hfinds : List.Forall₂ (Finds ds resolved resolved.length) decl.bases bases)
    (hown : List.Forall₂ (fun p a => p.Proper ∧ ∃ elem, (∀ d, elemType ds d p = .ok elem) ∧
      a = p.slot resolved.length elem) decl.properties own)
    (hinherited : ∀ a ∈ bases.flatMap Object.slots, ∀ b ∈ bases.flatMap Object.slots,
      a.Clashes b → a = b)
    (hnew : ∀ a ∈ bases.flatMap Object.slots, ∀ b ∈ own, ¬a.Clashes b)
    (hdistinct : own.Pairwise fun a b => ¬a.Clashes b) :
    ∃ d, object ds resolved arrays decl = .ok d := by
  let empty : Draft :=
    ⟨{ id := resolved.length, name := decl.name, isInterface := decl.isInterface }, arrays⟩
  have hempty : empty.object.Has (List.eraseDupsBy Slot.same []) := ⟨rfl, rfl, by simp, by simp⟩
  obtain ⟨d₁, hbases, hd₁, hid⟩ := exists_addBases hkeyed hempty hfinds (by simpa using hinherited)
  rw [← show d₁.object.id = resolved.length from hid] at hown
  have hall : (((bases.flatMap Object.slots).eraseDupsBy Slot.same) ++ own).Pairwise
      fun a b => ¬a.Clashes b :=
    List.pairwise_append.mpr
      ⟨hd₁.distinct, hdistinct, fun a ha => hnew a (mem_of_mem_eraseDupsBy ha)⟩
  obtain ⟨d, hproperties⟩ := exists_addProperties hd₁ hown hall
  refine ⟨d, ?_⟩
  unfold object
  simp only
  rw [hbases]
  exact hproperties

theorem next_of_drop {decls : List Schema.Declaration}
    (h : decl :: decls = ds.drop resolved.length) : ds[resolved.length]? = some decl ∧
      ∀ o : Object, decls = ds.drop (resolved ++ [o]).length := by
  constructor
  · rw [← List.head?_drop, ← h, List.head?_cons]
  · intro o
    rw [List.length_append, List.length_singleton, ← List.tail_drop, ← h, List.tail_cons]

theorem objects_induct {P : List Object → List ArrayCodec → Prop} {decls : List Schema.Declaration}
    {os : List Object} {cs : List ArrayCodec} (hdecls : decls = ds.drop resolved.length)
    (h : objects ds resolved arrays decls = .ok (os, cs)) (hP : P resolved arrays)
    (hstep : ∀ {resolved arrays decl d}, P resolved arrays → ds[resolved.length]? = some decl →
      object ds resolved arrays decl = .ok d → P (resolved ++ [d.object]) d.arrays) :
    P os cs ∧ ds.length ≤ os.length := by
  induction decls generalizing resolved arrays with
  | nil =>
    cases h
    exact ⟨hP, List.drop_eq_nil_iff.mp hdecls.symm⟩
  | cons decl decls ih =>
    obtain ⟨d, hd, h⟩ := bind_eq_ok_iff.mp h
    obtain ⟨hdecl, hrest⟩ := next_of_drop hdecls
    exact ih (hrest d.object) h (hstep hP hdecl hd)

/-- Every object came about from its declaration and the objects before it. -/
def Arena (ds : List Schema.Declaration) (os : List Object) : Prop :=
  ∀ i o, os[i]? = some o → ∃ decl bases own, ds[i]? = some decl ∧ Gathers ds os i decl bases own o

theorem Arena.keyed {os : List Object} (h : Arena ds os) : ∀ o ∈ os, ∀ a ∈ o.slots, a.Keyed := by
  intro o ho a ha
  obtain ⟨i, hi⟩ := List.mem_iff_getElem?.mp ho
  obtain ⟨decl, bases, own, -, hgathers⟩ := h i o hi
  exact hgathers.has.keyed a (hgathers.has.mem_slots.mp ha)

theorem Finds.append {os : List Object} {i : Nat} {name : Text} {b : Object}
    (h : Finds ds os i name b) (o : Object) : Finds ds (os ++ [o]) i name b := by
  obtain ⟨j, hlt, hj, hb⟩ := h
  refine ⟨j, hlt, hj, ?_⟩
  rw [List.getElem?_append_left (List.getElem?_eq_some_iff.mp hb).1]
  exact hb

theorem Arena.snoc {os : List Object} (hos : Arena ds os) (hdecl : ds[os.length]? = some decl)
    {d : Draft} (h : object ds os arrays decl = .ok d) : Arena ds (os ++ [d.object]) := by
  obtain ⟨⟨bases, own, hgathers⟩, -⟩ := gathers_of_object hos.keyed h
  have hmono {i : Nat} {decl bases own o} (h : Gathers ds os i decl bases own o) :
      Gathers ds (os ++ [d.object]) i decl bases own o :=
    ⟨h.head, h.finds.imp fun _ _ hfinds => hfinds.append d.object, h.declares, h.has⟩
  intro i o hi
  rcases Nat.lt_trichotomy i os.length with hlt | rfl | hgt
  · rw [List.getElem?_append_left hlt] at hi
    obtain ⟨decl, bases, own, hdecl, h⟩ := hos i o hi
    exact ⟨decl, bases, own, hdecl, hmono h⟩
  · obtain rfl : d.object = o := by simpa using hi
    exact ⟨decl, bases, own, hdecl, hmono hgathers⟩
  · rw [List.getElem?_eq_none (by simp; omega)] at hi
    cases hi

theorem checkNames_cons_eq_ok_iff {seen : List Text} {d : Schema.Declaration}
    {ds : List Schema.Declaration} :
    checkNames seen (d :: ds) = .ok () ↔
      Names.isIdentifier (Names.lastSegment d.name) = true ∧
      (∀ name ∈ seen, Names.lastSegment name ≠ Names.lastSegment d.name) ∧
      checkNames (seen ++ [d.name]) ds = .ok () := by
  rw [checkNames]
  split
  · rename_i hseen
    simp only [reduceCtorEq, false_iff]
    rintro ⟨-, hnew, -⟩
    exact hnew d.name (by simpa using hseen) rfl
  split
  · rename_i hidentifier
    simp only [reduceCtorEq, false_iff]
    rintro ⟨hidentifier', -⟩
    simp [hidentifier'] at hidentifier
  rename_i hidentifier
  split
  · rename_i previous hprevious
    simp only [reduceCtorEq, false_iff]
    rintro ⟨-, hnew, -⟩
    exact hnew previous (List.mem_of_find?_eq_some hprevious)
      (by simpa using List.find?_some hprevious)
  · rename_i hnone
    exact ⟨fun h => ⟨by simpa using hidentifier, by simpa using hnone, h⟩, fun h => h.2.2⟩

theorem checkNames_eq_ok_iff {seen : List Text} {ds : List Schema.Declaration} :
    checkNames seen ds = .ok () ↔
      (∀ d ∈ ds, Names.isIdentifier (Names.lastSegment d.name) = true) ∧
      (∀ d ∈ ds, ∀ name ∈ seen, Names.lastSegment name ≠ Names.lastSegment d.name) ∧
      (ds.map fun d => Names.lastSegment d.name).Nodup := by
  induction ds generalizing seen with
  | nil => simp [checkNames]
  | cons d ds ih =>
    rw [checkNames_cons_eq_ok_iff, ih]
    constructor
    · rintro ⟨hidentifier, hnone, hall, hnew, hnodup⟩
      refine ⟨List.forall_mem_cons.mpr ⟨hidentifier, hall⟩, List.forall_mem_cons.mpr ⟨hnone, ?_⟩,
        List.nodup_cons.mpr ⟨fun hmem => ?_, hnodup⟩⟩
      · exact fun d' hd' name hname => hnew d' hd' name (by simp [hname])
      · obtain ⟨d', hd', heq⟩ := List.mem_map.mp hmem
        exact hnew d' hd' d.name (by simp) heq.symm
    · rintro ⟨hall, hnew, hnodup⟩
      rw [List.map_cons, List.nodup_cons] at hnodup
      refine ⟨hall d (by simp), hnew d (by simp), fun d' hd' => hall d' (by simp [hd']),
        fun d' hd' name hname => ?_, hnodup.2⟩
      rcases List.mem_append.mp hname with hname | hname
      · exact hnew d' (by simp [hd']) name hname
      · obtain rfl : name = d.name := by simpa using hname
        exact fun heq => hnodup.1 (List.mem_map.mpr ⟨d', hd', heq.symm⟩)

end Objects

end Resolve

namespace Model

variable {ds : List Schema.Declaration} {opt : ModelOptions} {m : Model}

theorem resolve_eq_ok_iff : resolve ds opt = .ok m ↔ Resolve.checkNames [] ds = .ok () ∧
    ∃ objects arrays, Resolve.objects ds [] [] ds = .ok (objects, arrays) ∧
      m = ⟨opt.package, opt.serializer, opt.access, objects, arrays,
        if opt.makeTypes then objects.map (·.id) else []⟩ := by
  unfold resolve
  cases Resolve.checkNames [] ds with
  | error e => simp [bind, Except.bind]
  | ok _ =>
    cases Resolve.objects ds [] [] ds with
    | error e => simp [bind, Except.bind]
    | ok r =>
      obtain ⟨os, cs⟩ := r
      constructor
      · intro h
        cases h
        exact ⟨rfl, os, cs, rfl, rfl⟩
      · rintro ⟨-, os, cs, h, rfl⟩
        cases h
        rfl

theorem arena_of_resolve (h : resolve ds opt = .ok m) :
    Resolve.Arena ds m.objects ∧ m.objects.length = ds.length := by
  obtain ⟨-, os, cs, hobjects, rfl⟩ := resolve_eq_ok_iff.mp h
  obtain ⟨harena, hlength⟩ := Resolve.objects_induct (P := fun os _ => Resolve.Arena ds os) rfl
    hobjects (fun i o hi => by simp at hi) fun harena hdecl hd => harena.snoc hdecl hd
  refine ⟨harena, Nat.le_antisymm (Nat.not_lt.mp fun hlt => ?_) hlength⟩
  obtain ⟨decl, -, -, hdecl, -⟩ := harena ds.length _ (List.getElem?_eq_getElem hlt)
  simp at hdecl

theorem names_of_resolve (h : resolve ds opt = .ok m) :
    (∀ d ∈ ds, Names.isIdentifier (Names.lastSegment d.name) = true) ∧
      (ds.map fun d => Names.lastSegment d.name).Nodup := by
  obtain ⟨hall, -, hnodup⟩ := Resolve.checkNames_eq_ok_iff.mp (resolve_eq_ok_iff.mp h).1
  exact ⟨hall, hnodup⟩

theorem keys_nodup (h : resolve ds opt = .ok m) {o : Object} (ho : o ∈ m.objects) :
    (o.fields.map (·.key)).Nodup := by
  obtain ⟨i, hi⟩ := List.mem_iff_getElem?.mp ho
  obtain ⟨decl, bases, own, -, hgathers⟩ := (arena_of_resolve h).1 i o hi
  exact hgathers.has.keys_nodup

end Model

end WireSchema
