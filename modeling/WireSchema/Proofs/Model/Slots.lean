import Mathlib.Data.List.Pairwise
import Mathlib.Logic.Relation
import WireSchema.Model.Basic
import WireSchema.Schema.Basic

/-!
# Slots

What a field or a dictionary of an object is, apart from the codec of its array, is a slot. This
module says which slots an object has, which slot a property declares, and which declarations an
object inherits from.
-/

namespace WireSchema

/-! ## Slots -/

inductive Shape where
  | single
  | array
  | dictionary
  deriving DecidableEq, Repr

/-- What a field or a dictionary is, apart from the codec of an array. -/
structure Slot where
  key : Text
  name : Text
  shape : Shape
  elem : ElemType
  origin : Nat
  deriving DecidableEq, Repr

namespace Slot

def isDictionary (a : Slot) : Bool := a.shape == .dictionary

/-- Dictionaries, and nothing else, have the key `*`. -/
def Keyed (a : Slot) : Prop := a.isDictionary = true ↔ a.key = "*"

/-- One object cannot have both: they share a key, or the name of a struct field. -/
def Clashes (a b : Slot) : Prop :=
  a.key = b.key ∨ Names.exported a.name = Names.exported b.name

/-- Are both declared by the same object under the same key? -/
def same (a b : Slot) : Bool := a.origin == b.origin && a.key == b.key

theorem Clashes.symm {a b : Slot} (h : a.Clashes b) : b.Clashes a := h.imp Eq.symm Eq.symm

instance : Std.Symm fun a b : Slot => ¬a.Clashes b := ⟨fun _ _ h hba => h hba.symm⟩

theorem key_of_same {a b : Slot} (h : a.same b = true) : a.key = b.key := by
  simp only [same, Bool.and_eq_true, beq_iff_eq] at h
  exact h.2

theorem Keyed.isDictionary_eq {a b : Slot} (ha : a.Keyed) (hb : b.Keyed) (h : a.key = b.key) :
    a.isDictionary = b.isDictionary := by
  rw [Keyed] at ha hb
  rw [Bool.eq_iff_iff, ha, hb, h]

theorem Clashes.of_same {a b : Slot} (h : a.same b = true) : a.Clashes b := .inl (key_of_same h)

end Slot

def Field.slot (f : Field) : Slot :=
  match f.type with
  | .single elem => ⟨f.key, f.name, .single, elem, f.origin⟩
  | .array elem _ => ⟨f.key, f.name, .array, elem, f.origin⟩

def Wildcard.slot (w : Wildcard) : Slot := ⟨"*", w.name, .dictionary, w.elem, w.origin⟩

/-- The slots of an object: its fields, and last its dictionary. -/
def Object.slots (o : Object) : List Slot :=
  o.fields.map Field.slot ++ o.wildcard.toList.map Wildcard.slot

/-- What an object is besides its slots. -/
def Object.head (o : Object) : Nat × Text × Bool × List Nat :=
  (o.id, o.name, o.isInterface, o.bases)

namespace Field

@[simp]
theorem slot_key (f : Field) : f.slot.key = f.key := by unfold slot; split <;> rfl

@[simp]
theorem slot_name (f : Field) : f.slot.name = f.name := by unfold slot; split <;> rfl

@[simp]
theorem slot_origin (f : Field) : f.slot.origin = f.origin := by
  unfold slot
  split <;> rfl

@[simp]
theorem slot_isDictionary (f : Field) : f.slot.isDictionary = false := by
  unfold slot
  split <;> rfl

end Field

namespace Wildcard

@[simp]
theorem slot_key (w : Wildcard) : w.slot.key = "*" := rfl

@[simp]
theorem slot_name (w : Wildcard) : w.slot.name = w.name := rfl

@[simp]
theorem slot_origin (w : Wildcard) : w.slot.origin = w.origin := rfl

@[simp]
theorem slot_isDictionary (w : Wildcard) : w.slot.isDictionary = true := rfl

end Wildcard

theorem Object.filter_slots (o : Object) :
    o.slots.filter (!·.isDictionary) = o.fields.map Field.slot := by
  rw [slots, List.filter_append, List.filter_eq_self.mpr, List.filter_eq_nil_iff.mpr,
    List.append_nil]
  · simp
  · simp

/-- The object has exactly these slots: its fields are those that are no dictionaries, in this
order, and no two clash. -/
structure Object.Has (o : Object) (as : List Slot) : Prop where
  fields : o.fields.map Field.slot = as.filter (!·.isDictionary)
  wildcard : o.wildcard.toList.map Wildcard.slot = as.filter (·.isDictionary)
  keyed : ∀ a ∈ as, a.Keyed
  distinct : as.Pairwise fun a b => ¬a.Clashes b

namespace Object.Has

variable {o : Object} {as : List Slot}

theorem perm (h : o.Has as) : o.slots.Perm as := by
  rw [slots, h.fields, h.wildcard]
  exact List.perm_append_comm.trans (List.filter_append_perm _ _)

theorem mem_slots (h : o.Has as) {a : Slot} : a ∈ o.slots ↔ a ∈ as := h.perm.mem_iff

theorem eq_of_clashes (h : o.Has as) {a b : Slot} (ha : a ∈ as) (hb : b ∈ as)
    (hab : a.Clashes b) : a = b := by
  by_contra hne
  exact h.distinct.forall ha hb hne hab

theorem pairwise (h : o.Has as) : o.slots.Pairwise fun a b => ¬a.Clashes b :=
  (h.perm.pairwise_iff fun hab hba => hab hba.symm).mpr h.distinct

theorem keys_nodup (h : o.Has as) : (o.fields.map (·.key)).Nodup := by
  have hfields := (List.pairwise_append.mp h.pairwise).1
  rw [List.pairwise_map] at hfields
  exact List.pairwise_map.mpr (hfields.imp fun hab hkey => hab (.inl (by simpa using hkey)))

end Object.Has

/-! ## Declarations -/

namespace Schema

def Property.shape (p : Property) : Shape :=
  if p.isDictionary then .dictionary else if p.isArray then .array else .single

/-- The slot that a property declares for an object, once its type is known. -/
def Property.slot (p : Property) (origin : Nat) (elem : ElemType) : Slot :=
  ⟨p.key, p.name, p.shape, elem, origin⟩

/-- Is the property written as it should be: no brackets left in the type, not array and dictionary
at once, and a dictionary exactly under the key `*`? -/
structure Property.Proper (p : Property) : Prop where
  plain : ∀ b ∈ p.type, b ∉ Text.ofString "[]\x7b\x7d"
  one : ¬(p.isArray = true ∧ p.isDictionary = true)
  star : p.isDictionary = true ↔ p.key = "*"

/-- What a type name stands for: a scalar if it spells one, otherwise the concrete object of that
name, wherever it is declared. -/
def Denotes (ds : List Declaration) (t : Text) : ElemType → Prop
  | .scalar s => Scalar.ofName? t = some s
  | .object id =>
    Scalar.ofName? t = none ∧ ∃ d, ds[id]? = some d ∧ d.name = t ∧ d.isInterface = false

/-- The property declares the slot for the object at a position. -/
def Declares (ds : List Declaration) (origin : Nat) (p : Property) (a : Slot) : Prop :=
  ∃ elem, Denotes ds p.type elem ∧ a = p.slot origin elem

@[simp]
theorem Property.slot_isDictionary (p : Property) (origin : Nat) (elem : ElemType) :
    (p.slot origin elem).isDictionary = p.isDictionary := by
  unfold slot Slot.isDictionary shape
  cases p.isDictionary <;> cases p.isArray <;> rfl

theorem Property.Proper.keyed {p : Property} (h : p.Proper) (origin : Nat) (elem : ElemType) :
    (p.slot origin elem).Keyed := by
  rw [Slot.Keyed, Property.slot_isDictionary]
  exact h.star

variable (ds : List Declaration)

/-- The object at position `i` has the one at position `j` among its bases. -/
def Extends (i j : Nat) : Prop :=
  ∃ d b, ds[i]? = some d ∧ ds[j]? = some b ∧ b.name ∈ d.bases

/-- The object at position `j` is the one at position `i` or among its bases, direct or not. -/
def Inherits : Nat → Nat → Prop := Relation.ReflTransGen (Extends ds)

/-- The property at a place: the position of its declaration, and its own position there. -/
def propertyAt? (place : Nat × Nat) : Option Property :=
  ds[place.1]?.bind (·.properties[place.2]?)

/-- The property at that place belongs to the object at position `i`, which declares or inherits
it. -/
def Reaches (i : Nat) (place : Nat × Nat) (p : Property) : Prop :=
  Inherits ds i place.1 ∧ propertyAt? ds place = some p

end Schema

end WireSchema
