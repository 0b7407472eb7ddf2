import WireSchema.Codec.Value
import WireSchema.Proofs.Json.Writing
import WireSchema.Proofs.Number.DecimalText

/-!
# Values as documents

The JSON document that a value is, and that the text written for a value spells it, compact or with
any indentation by blanks. What cannot be written are floats that are no numbers and texts that are not
well formed.
-/

namespace WireSchema

open Json (Tree)

namespace Value

/-! ## The document of a value -/

mutual

def tree : Value → Tree
  | .bool b => .bool b
  | .integer n => .number (Text.ofInt n)
  | .float f x => .number (x.toText f)
  | .decimal d => .number d.toText
  | .text t => .string t
  | .array items => .array (itemTrees items)
  | .object fields extra => .object (fieldTrees fields ++ entryTrees extra)

def optionTree : Option Value → Tree
  | none => .null
  | some v => tree v

def itemTrees : List (Option Value) → List Tree
  | [] => []
  | v :: rest => optionTree v :: itemTrees rest

/-- The fields of an object as members; those that are absent are left out. -/
def fieldTrees : List (Text × Option Value) → List (Text × Tree)
  | [] => []
  | (_, none) :: rest => fieldTrees rest
  | (key, some v) :: rest => (key, tree v) :: fieldTrees rest

/-- The entries of a dictionary as members. -/
def entryTrees : List (Text × Option Value) → List (Text × Tree)
  | [] => []
  | (key, v) :: rest => (key, optionTree v) :: entryTrees rest

end

def present (fields : List (Text × Option Value)) : List (Text × Option Value) :=
  fields.filter (·.2.isSome)

theorem fieldTrees_eq (fields : List (Text × Option Value)) :
    fieldTrees fields = entryTrees (present fields) := by
  induction fields with
  | nil => rfl
  | cons f fields ih =>
    obtain ⟨key, _ | v⟩ := f
    · simpa [fieldTrees, present] using ih
    · simpa [fieldTrees, present, entryTrees, optionTree] using ih

theorem entryTrees_append (es es' : List (Text × Option Value)) :
    entryTrees (es ++ es') = entryTrees es ++ entryTrees es' := by
  induction es with
  | nil => rfl
  | cons e es ih => simp [entryTrees, ih]

theorem fieldEvents_eq (fields : List (Text × Option Value)) :
    fieldEvents fields = entryEvents (present fields) := by
  induction fields with
  | nil => rfl
  | cons f fields ih =>
    obtain ⟨key, _ | v⟩ := f
    · simpa [fieldEvents, present] using ih
    · simpa [fieldEvents, present, entryEvents, optionEvents] using ih

theorem entryEvents_append (es es' : List (Text × Option Value)) :
    entryEvents (es ++ es') = entryEvents es ++ entryEvents es' := by
  induction es with
  | nil => rfl
  | cons e es ih => simp [entryEvents, ih]

/-- The value can be written: its floats are finite, and its texts and names are well formed. -/
inductive Writable : Value → Prop
  | bool (b : Bool) : Writable (.bool b)
  | integer (n : Int) : Writable (.integer n)
  | float {f : BinaryFormat} {x : Binary} :
      x.isFinite = true → Json.IsNumber (x.toText f) → Writable (.float f x)
  | decimal (d : Decimal) : Writable (.decimal d)
  | text {t : Text} : t.isUtf8 = true → Writable (.text t)
  | array {items : List (Option Value)} :
      (∀ v, some v ∈ items → Writable v) → Writable (.array items)
  | object {fields extra : List (Text × Option Value)} :
      (∀ e ∈ present fields ++ extra, e.1.isUtf8 = true) →
      (∀ key v, (key, some v) ∈ present fields ++ extra → Writable v) →
      Writable (.object fields extra)

/-! ## The text of a value -/

section Writing

open Json (Blank)

variable {indent : Text}

theorem blank_nil : Blank [] := nofun

/-- Wherever the value is written, the text written for it spells its document. -/
def WritesTree (indent : Text) (v : Option Value) : Prop :=
  Json.Writer.WritesTree indent (optionEvents v) (optionTree v)

theorem writesTree_scalar {v : Option Value} {e : Write} {t : Text} (he : optionEvents v = [e])
    (ht : Json.Writer.event e = Json.Writer.scalar t) (hs : (optionTree v).Spells t) :
    WritesTree indent v := by
  rw [WritesTree, he]
  exact Json.Writer.writesTree_scalar ht hs

def item (v : Option Value) : List Write × Tree := (optionEvents v, optionTree v)

def entry (e : Text × Option Value) : Json.Writer.Entry := (e.1, item e.2)

theorem itemEvents_eq (items : List (Option Value)) :
    itemEvents items = (items.map item).flatMap (·.1) := by
  induction items with
  | nil => rfl
  | cons v items ih => rw [itemEvents, ih]; rfl

theorem itemTrees_eq (items : List (Option Value)) : itemTrees items = (items.map item).map (·.2) := by
  induction items with
  | nil => rfl
  | cons v items ih => rw [itemTrees, ih]; rfl

theorem entryEvents_eq (es : List (Text × Option Value)) :
    entryEvents es = (es.map entry).flatMap Json.Writer.Entry.events := by
  induction es with
  | nil => rfl
  | cons e es ih => rw [entryEvents, ih]; rfl

theorem entryTrees_eq {es : List (Text × Option Value)} (h : ∀ e ∈ es, e.1.isUtf8 = true) :
    entryTrees es = (es.map entry).map Json.Writer.Entry.member := by
  induction es with
  | nil => rfl
  | cons e es ih =>
    obtain ⟨hkey, hes⟩ := List.forall_mem_cons.mp h
    rw [entryTrees, ih hes, List.map_cons, List.map_cons, Json.Writer.Entry.member, entry,
      Json.mended_eq hkey]
    rfl

theorem Writable.writesTree (hi : Blank indent) {v : Value} (h : Writable v) :
    WritesTree indent (some v) := by
  induction h with
  | bool b => exact writesTree_scalar rfl rfl rfl
  | integer n => exact writesTree_scalar rfl rfl ⟨rfl, Integer.isNumber_ofInt n⟩
  | float hfinite hnumber => exact writesTree_scalar rfl (if_pos hfinite) ⟨rfl, hnumber⟩
  | decimal d => exact writesTree_scalar rfl rfl ⟨rfl, d.isNumber_toText⟩
  | text ht => exact writesTree_scalar rfl rfl (Json.spells_stringText ht)
  | @array items _ ih =>
    have hitems : ∀ v ∈ items, WritesTree indent v := by
      rintro (_ | v) hv
      · exact writesTree_scalar rfl rfl rfl
      · exact ih v hv
    have hparts : ∀ part ∈ items.map item, Json.Writer.WritesTree indent part.1 part.2 :=
      List.forall_mem_map.mpr hitems
    have harray := Json.Writer.writesTree_array hi hparts
    rwa [← itemEvents_eq, ← itemTrees_eq] at harray
  | @object fields extra hkeys _ ih =>
    have hentries : ∀ e ∈ present fields ++ extra, WritesTree indent e.2 := by
      rintro ⟨key, _ | v⟩ he
      · exact writesTree_scalar rfl rfl rfl
      · exact ih key v he
    have hparts : ∀ part ∈ (present fields ++ extra).map entry,
        Json.Writer.WritesTree indent part.2.1 part.2.2 := List.forall_mem_map.mpr hentries
    have hobject := Json.Writer.writesTree_object hi hparts
    rw [← entryEvents_eq, ← entryTrees_eq hkeys, entryEvents_append, entryTrees_append,
      ← fieldEvents_eq, ← fieldTrees_eq] at hobject
    exact hobject

end Writing

end Value

end WireSchema
