import WireSchema.Codec.Encode
import WireSchema.Proofs.Codec.Document
import WireSchema.Proofs.Codec.Meaning
import WireSchema.Proofs.Json.LenientReading
import WireSchema.Proofs.Model.Resolution
import WireSchema.Proofs.Number.BinaryText

/-!
# Codecs round trip

A value of an object of a resolved model is written as JSON, compact or indented, and read back from
the text. Nothing changes but the form of decimals. The writer and the reader meet at the document of
the value: the text spells it, and its meaning to the codec is the value.
-/

namespace WireSchema

open Json (Tree)

/-! ## Values that are the same -/

namespace Value

mutual

/-- The values are the same: decimals as numbers, and all else as it is. -/
def Same : Value → Value → Prop
  | .bool a, .bool b => a = b
  | .integer a, .integer b => a = b
  | .float f x, .float g y => f = g ∧ x = y
  | .decimal a, .decimal b => a.value = b.value
  | .text s, .text t => s = t
  | .array xs, .array ys => SameItems xs ys
  | .object fields extra, .object fields' extra' =>
    SameEntries fields fields' ∧ SameEntries extra extra'
  | _, _ => False
termination_by structural v => v

/-- The same values, or both absent. -/
def SameOption : Option Value → Option Value → Prop
  | none, none => True
  | some v, some w => Same v w
  | _, _ => False
termination_by structural v => v

def SameItems : List (Option Value) → List (Option Value) → Prop
  | [], [] => True
  | v :: vs, w :: ws => SameOption v w ∧ SameItems vs ws
  | _, _ => False
termination_by structural vs => vs

/-- The same names in the same order, with the same values. -/
def SameEntries : List (Text × Option Value) → List (Text × Option Value) → Prop
  | [], [] => True
  | (key, v) :: es, (key', w) :: es' => key = key' ∧ SameOption v w ∧ SameEntries es es'
  | _, _ => False
termination_by structural es => es

end

/-! ## Values of a type -/

/-- The fields and the dictionary have the shape of an object: its keys in order, and a dictionary only
if the object has one, with distinct names that are none of the keys and without absent values. -/
structure Fits (o : Object) (fields extra : List (Text × Option Value)) : Prop where
  keys : fields.map (·.1) = o.fields.map (·.key)
  utf8 : ∀ f ∈ o.fields, f.key.isUtf8 = true
  noDictionary : o.wildcard = none → extra = []
  nodup : (extra.map (·.1)).Nodup
  undeclared : ∀ e ∈ extra, e.1 ∉ o.fields.map (·.key)
  extraUtf8 : ∀ e ∈ extra, e.1.isUtf8 = true
  isSome : ∀ e ∈ extra, e.2.isSome = true

/-- The value is one of a type. Numbers are in range, floats finite, and texts well formed; an array
has absent elements only among objects. -/
inductive HasType (m : Model) : FieldType → Value → Prop
  | bool (b : Bool) : HasType m (.single (.scalar .bool)) (.bool b)
  | int32 {n : Int} : -(Integer.half 32 : Int) ≤ n → n < Integer.half 32 →
      HasType m (.single (.scalar .int32)) (.integer n)
  | int64 {n : Int} : -(Integer.half 64 : Int) ≤ n → n < Integer.half 64 →
      HasType m (.single (.scalar .int64)) (.integer n)
  | decimal {d : Decimal} : Decimal.exponentFits d.exponent = true →
      HasType m (.single (.scalar .decimal)) (.decimal d)
  | float {significand : Nat} {exponent : Int} (negative : Bool) :
      Binary.Canonical .single significand exponent →
      HasType m (.single (.scalar .float)) (.float .single (.finite negative significand exponent))
  | double {significand : Nat} {exponent : Int} (negative : Bool) :
      Binary.Canonical .double significand exponent →
      HasType m (.single (.scalar .double)) (.float .double (.finite negative significand exponent))
  | string {t : Text} : t.isUtf8 = true → HasType m (.single (.scalar .string)) (.text t)
  | array {elem : ElemType} {codec : Text} {items : List (Option Value)} :
      (none ∈ items → ∃ id, elem = .object id) →
      (∀ v, some v ∈ items → HasType m (.single elem) v) →
      HasType m (.array elem codec) (.array items)
  | object {id : Nat} {o : Object} {fields extra : List (Text × Option Value)} :
      m.object? id = some o → Fits o fields extra →
      (∀ f key v, (f, key, some v) ∈ o.fields.zip fields → HasType m f.type v) →
      (∀ w, o.wildcard = some w → ∀ key v, (key, some v) ∈ extra → HasType m (.single w.elem) v) →
      HasType m (.single (.object id)) (.object fields extra)

theorem mem_zip_of_keys {fs : List Field} {es : List (Text × Option Value)}
    (h : es.map (·.1) = fs.map (·.key)) {key : Text} {v : Option Value} (he : (key, v) ∈ es) :
    ∃ f, (f, key, v) ∈ fs.zip es ∧ f.key = key := by
  induction es generalizing fs with
  | nil => simp at he
  | cons e' es ih =>
    obtain ⟨f, fs, rfl⟩ : ∃ f fs', fs = f :: fs' :=
      List.exists_cons_of_ne_nil fun hnil => by simp [hnil] at h
    obtain ⟨hkey, h⟩ := List.cons.inj h
    rcases List.mem_cons.mp he with rfl | he
    · exact ⟨f, by simp, hkey.symm⟩
    · obtain ⟨f', hf', hkey'⟩ := ih h he
      exact ⟨f', List.mem_cons_of_mem _ hf', hkey'⟩

theorem HasType.writable {m : Model} {type : FieldType} {v : Value} (h : HasType m type v) :
    Writable v := by
  induction h with
  | bool b => exact .bool b
  | int32 | int64 => exact .integer _
  | decimal => exact .decimal _
  | float negative hc => exact .float rfl (Binary.isNumber_toText negative Binary.bounded_single hc)
  | double negative hc => exact .float rfl (Binary.isNumber_toText negative Binary.bounded_double hc)
  | string ht => exact .text ht
  | array _ _ ih => exact .array ih
  | @object id o fields extra _ hfits _ _ ihf ihe =>
    refine .object (fun e he => ?_) fun key v he => ?_
    · rcases List.mem_append.mp he with he | he
      · obtain ⟨f, hf, hkey⟩ := mem_zip_of_keys hfits.keys (List.mem_of_mem_filter he)
        exact hkey ▸ hfits.utf8 f (List.of_mem_zip hf).1
      · exact hfits.extraUtf8 e he
    · rcases List.mem_append.mp he with he | he
      · obtain ⟨f, hf, -⟩ := mem_zip_of_keys hfits.keys (List.mem_of_mem_filter he)
        exact ihf f key v hf
      · cases hw : o.wildcard with
        | none => simp [hfits.noDictionary hw] at he
        | some w => exact ihe w hw key v he

theorem head_tree_ne_null (v : Value) : v.tree.head ≠ .null := by
  cases v <;> simp [tree, Tree.head]

end Value

namespace Codec

open Value

/-! ## The meaning of a value's document -/

/-- As a value of the type, the document of a value means the same value again. -/
def Restores (m : Model) : FieldType → Value → Prop
  | .single type, v => ∀ label, ∃ v', Meaning.ofTree m label type v.tree = .value v' ∧ Same v v'
  | .array elem _, v => ∀ label, ∃ items, Meaning.ofArray m label elem v.tree = some (none, items) ∧
      Same v (.array items)

variable {m : Model} {o : Object}

theorem ofField_restores {f : Field} {v : Value} (h : Restores m f.type v) (target : Target) :
    ∃ v', Meaning.ofField m target f v.tree = (none, target.set f.key (some v')) ∧ Same v v' := by
  rw [Meaning.ofField, if_neg v.head_tree_ne_null]
  cases htype : f.type with
  | single type =>
    rw [htype] at h
    obtain ⟨v', hv, hsame⟩ := h (Names.exported f.name)
    exact ⟨v', by simp only [hv, Meaning.settle], hsame⟩
  | array elem codec =>
    rw [htype] at h
    obtain ⟨items, hi, hsame⟩ := h (Names.exported f.name)
    exact ⟨.array items, by simp only [hi], hsame⟩

theorem set_of_not_mem {fields : List (Text × Option Value)} {key : Text} (w : Option Value)
    (h : key ∉ fields.map (·.1)) :
    fields.map (fun f => if f.1 == key then (key, w) else f) = fields := by
  rw [List.map_congr_left fun f hf => if_neg ?_, List.map_id']
  rw [beq_iff_eq]
  rintro rfl
  exact h (List.mem_map_of_mem hf)

theorem set_middle {done rest : List (Text × Option Value)} {key : Text}
    (hdone : key ∉ done.map (·.1)) (hrest : key ∉ rest.map (·.1)) (v w : Option Value)
    (extra : Dict (Option Value)) :
    Target.set ⟨done ++ (key, v) :: rest, extra⟩ key w = ⟨done ++ (key, w) :: rest, extra⟩ := by
  simp only [Target.set, List.map_append, List.map_cons, set_of_not_mem w hdone,
    set_of_not_mem w hrest, beq_self_eq_true, if_true]

/-- The documents of fields, taken in order, set the fields one after another. -/
theorem ofMembers_fields (done : List (Text × Option Value)) {todo : List (Text × Option Value)}
    (hkeys : ((done ++ todo).map (·.1)).Nodup)
    (h : ∀ key v, (key, some v) ∈ todo →
      ∃ f, o.fields.find? (·.key == key) = some f ∧ f.key = key ∧ Restores m f.type v)
    (extra : Dict (Option Value)) (more : List (Text × Tree)) :
    ∃ todo', SameEntries todo todo' ∧
      Meaning.ofMembers m o ⟨done ++ todo.map (fun e => (e.1, none)), extra⟩
          (fieldTrees todo ++ more) =
        Meaning.ofMembers m o ⟨done ++ todo', extra⟩ more := by
  induction todo generalizing done with
  | nil => exact ⟨[], trivial, rfl⟩
  | cons e todo ih =>
    obtain ⟨key, v⟩ := e
    have htodo := fun key v he => h key v (List.mem_cons_of_mem _ he)
    cases v with
    | none =>
      obtain ⟨todo', hsame, hm⟩ := ih (done ++ [(key, none)]) (by simpa using hkeys) htodo
      exact ⟨(key, none) :: todo', ⟨rfl, trivial, hsame⟩, by simpa [fieldTrees] using hm⟩
    | some v =>
      obtain ⟨f, hfind, rfl, hrestores⟩ := h key v (by simp)
      obtain ⟨v', hfield, hv⟩ := ofField_restores hrestores
        ⟨done ++ (f.key, none) :: todo.map (fun e => (e.1, none)), extra⟩
      obtain ⟨todo', hsame, hm⟩ := ih (done ++ [(f.key, some v')]) (by simpa using hkeys) htodo
      rw [List.map_append, List.nodup_append] at hkeys
      rw [set_middle (fun hmem => hkeys.2.2 _ hmem _ (by simp) rfl)
        (by simpa using (List.nodup_cons.mp hkeys.2.1).1)] at hfield
      refine ⟨(f.key, some v') :: todo', ⟨rfl, hv, hsame⟩, ?_⟩
      simp only [List.map_cons, fieldTrees, List.cons_append, Meaning.ofMembers, Meaning.ofMember, hfind,
        hfield]
      simpa using hm

/-- The documents of entries, taken in order, come to the end of the dictionary. -/
theorem ofMembers_entries {w : Wildcard} (hw : o.wildcard = some w)
    (done : List (Text × Option Value)) {todo : List (Text × Option Value)}
    (hkeys : ((done ++ todo).map (·.1)).Nodup)
    (hnone : ∀ e ∈ todo, o.fields.find? (·.key == e.1) = none)
    (h : ∀ e ∈ todo, ∃ v, e.2 = some v ∧ Restores m (.single w.elem) v)
    (fields : List (Text × Option Value)) :
    ∃ todo', SameEntries todo todo' ∧
      Meaning.ofMembers m o ⟨fields, ⟨done⟩⟩ (entryTrees todo) = (none, ⟨fields, ⟨done ++ todo'⟩⟩) := by
  induction todo generalizing done with
  | nil => exact ⟨[], trivial, by simp [entryTrees, Meaning.ofMembers]⟩
  | cons e todo ih =>
    obtain ⟨key, v⟩ := e
    obtain ⟨v, rfl, hrestores⟩ := h (key, v) (by simp)
    obtain ⟨v', hv, hsame⟩ := hrestores (Names.exported w.name)
    obtain ⟨todo', hsame', hm⟩ := ih (done ++ [(key, some v')]) (by simpa using hkeys)
      (List.forall_mem_cons.mp hnone).2 (List.forall_mem_cons.mp h).2
    have hnew : key ∉ done.map (·.1) := by
      rw [List.map_append, List.nodup_append] at hkeys
      exact fun hmem => hkeys.2.2 _ hmem _ (by simp) rfl
    refine ⟨(key, some v') :: todo', ⟨rfl, hsame, hsame'⟩, ?_⟩
    simp only [entryTrees, optionTree, Meaning.ofMembers, Meaning.ofMember, hnone (key, some v) (by simp),
      hw, Meaning.ofEntry, if_neg v.head_tree_ne_null, hv, Meaning.settle, Target.insert, Dict.set]
    rw [Dict.setEntry_of_not_mem _ hnew]
    simpa using hm

/-- The documents of elements mean the elements. -/
theorem ofItems_restores (label : Text) {elem : ElemType} {items : List (Option Value)}
    (hnone : none ∈ items → ∃ id, elem = .object id)
    (h : ∀ v, some v ∈ items → Restores m (.single elem) v) :
    ∃ items', Meaning.ofItems m label elem (itemTrees items) = (none, items') ∧
      SameItems items items' := by
  induction items with
  | nil => exact ⟨[], by rw [itemTrees, Meaning.ofItems], trivial⟩
  | cons v items ih =>
    obtain ⟨items', hi, hsame⟩ := ih (fun hmem => hnone (by simp [hmem]))
      fun v hv => h v (by simp [hv])
    cases v with
    | none =>
      obtain ⟨id, rfl⟩ := hnone (by simp)
      refine ⟨none :: items', ?_, trivial, hsame⟩
      rw [itemTrees, optionTree, Meaning.ofItems, hi]
    | some v =>
      obtain ⟨v', hv, hsame'⟩ := h v (by simp) label
      refine ⟨some v' :: items', ?_, hsame', hsame⟩
      have hne : v.tree ≠ .null := fun h => v.head_tree_ne_null (by rw [h]; rfl)
      rw [itemTrees, optionTree, Meaning.ofItems_of_ne_null hne, hv, hi]

theorem find?_of_mem {fs : List Field} (hkeys : (fs.map (·.key)).Nodup) {f : Field} (hf : f ∈ fs) :
    fs.find? (·.key == f.key) = some f := by
  induction fs with
  | nil => simp at hf
  | cons g fs ih =>
    obtain ⟨hg, hkeys⟩ := List.nodup_cons.mp hkeys
    rcases List.mem_cons.mp hf with rfl | hf
    · simp
    · have hne : (g.key == f.key) = false := by
        rw [beq_eq_false_iff_ne]
        exact fun heq => hg (List.mem_map.mpr ⟨f, hf, heq.symm⟩)
      rw [List.find?_cons, hne]
      exact ih hkeys hf

theorem ofMembers_restores {fields extra : List (Text × Option Value)} (hfits : Fits o fields extra)
    (hkeys : (o.fields.map (·.key)).Nodup)
    (hf : ∀ f key v, (f, key, some v) ∈ o.fields.zip fields → Restores m f.type v)
    (he : ∀ w, o.wildcard = some w → ∀ key v, (key, some v) ∈ extra →
      Restores m (.single w.elem) v) :
    ∃ target, Meaning.ofMembers m o (Target.empty o) (fieldTrees fields ++ entryTrees extra) =
        (none, target) ∧ Same (.object fields extra) target.value := by
  have hfield : ∀ key v, (key, some v) ∈ fields →
      ∃ f, o.fields.find? (·.key == key) = some f ∧ f.key = key ∧ Restores m f.type v := by
    intro key v hv
    obtain ⟨f, hmem, hkey⟩ := mem_zip_of_keys hfits.keys hv
    exact ⟨f, hkey ▸ find?_of_mem hkeys (List.of_mem_zip hmem).1, hkey, hf f key v hmem⟩
  have hempty : Target.empty o = ⟨[] ++ fields.map (fun e => (e.1, none)), {}⟩ := by
    have := congrArg (List.map fun key : Text => (key, (none : Option Value))) hfits.keys
    simpa [Target.empty, Function.comp_def] using this.symm
  obtain ⟨fields', hsame, hm⟩ := ofMembers_fields [] (by simpa [hfits.keys] using hkeys) hfield {}
    (entryTrees extra)
  rw [hempty, hm, List.nil_append]
  cases hw : o.wildcard with
  | none =>
    obtain rfl := hfits.noDictionary hw
    exact ⟨⟨fields', {}⟩, by rw [entryTrees, Meaning.ofMembers], hsame, trivial⟩
  | some w =>
    have hnone : ∀ e ∈ extra, o.fields.find? (·.key == e.1) = none := by
      intro e hmem
      refine List.find?_eq_none.mpr fun f hf hkey => hfits.undeclared e hmem ?_
      exact List.mem_map.mpr ⟨f, hf, by simpa using hkey⟩
    have hentry : ∀ e ∈ extra, ∃ v, e.2 = some v ∧ Restores m (.single w.elem) v := by
      rintro ⟨key, v⟩ hmem
      obtain ⟨v, rfl⟩ := Option.isSome_iff_exists.mp (hfits.isSome _ hmem)
      exact ⟨v, rfl, he w hw key v hmem⟩
    obtain ⟨extra', hsame', hm'⟩ := ofMembers_entries hw [] hfits.nodup hnone hentry fields'
    exact ⟨⟨fields', ⟨extra'⟩⟩, hm', hsame, hsame'⟩

theorem restores_scalar {s : Scalar} {v : Value} (v' : Value) (hsame : Same v v')
    (h : ∀ label, Meaning.ofScalar label s v.tree = .value v') :
    Restores m (.single (.scalar s)) v :=
  fun label => ⟨v', by rw [Meaning.ofTree, h], hsame⟩

theorem restores_of_hasType (hkeys : ∀ o ∈ m.objects, (o.fields.map (·.key)).Nodup)
    {type : FieldType} {v : Value} (h : HasType m type v) : Restores m type v := by
  induction h with
  | bool b => exact restores_scalar (.bool b) rfl fun _ => rfl
  | @string t _ => exact restores_scalar (.text t) rfl fun _ => rfl
  | @int32 n hlow hhigh =>
    refine restores_scalar (.integer n) rfl fun label => ?_
    simp only [tree, Meaning.ofScalar, Integer.parse_ofInt (by decide) hlow hhigh, numeral]
  | @int64 n hlow hhigh =>
    refine restores_scalar (.integer n) rfl fun label => ?_
    simp only [tree, Meaning.ofScalar, Integer.parse_ofInt (by decide) hlow hhigh, numeral]
  | decimal hfits =>
    obtain ⟨d', hparse, hvalue⟩ := Decimal.parse_toText hfits
    refine restores_scalar (.decimal d') hvalue.symm fun label => ?_
    simp only [tree, Meaning.ofScalar, readDecimal, hparse, Except.mapError, numeral]
  | @float significand exponent negative hc =>
    refine restores_scalar (.float .single (.finite negative significand exponent)) ⟨rfl, rfl⟩
      fun label => ?_
    simp only [tree, Meaning.ofScalar, Binary.parse_toText negative Binary.bounded_single hc, numeral]
  | @double significand exponent negative hc =>
    refine restores_scalar (.float .double (.finite negative significand exponent)) ⟨rfl, rfl⟩
      fun label => ?_
    simp only [tree, Meaning.ofScalar, Binary.parse_toText negative Binary.bounded_double hc, numeral]
  | array hnone _ ih =>
    intro label
    obtain ⟨items', hi, hsame⟩ := ofItems_restores label hnone ih
    exact ⟨items', by rw [tree, Meaning.ofArray, hi], hsame⟩
  | @object id o fields extra ho hfits _ _ ihf ihe =>
    intro label
    obtain ⟨target, hm, hsame⟩ :=
      ofMembers_restores hfits (hkeys o (List.mem_of_getElem? ho)) ihf ihe
    exact ⟨target.value, by simp only [tree, Meaning.ofTree, ho, hm], hsame⟩

/-! ## Writing and reading -/

/-- The text of an object that can be written spells its document. -/
theorem marshal_spells {target : Target} {indent : Text} (hi : Json.Blank indent)
    (h : target.value.Writable) :
    ∃ t, marshal indent (some target) = .ok t ∧ target.value.tree.Spells t := by
  obtain ⟨t, hspells, hwrites⟩ := h.writesTree hi ([], false)
  obtain ⟨w, hw, -, -, -, htext⟩ := hwrites { indent } rfl rfl rfl
  refine ⟨t, ?_, hspells⟩
  rw [marshal, events, Option.map_some, hw]
  simpa [Json.Writer.lead, Sink.text] using htext

theorem unmarshal_spelled {members : List (Text × Tree)} {t : Text}
    (h : (Tree.object members).Spells t) (target : Target) :
    ∃ r, unmarshal m o {} t (some target) =
      ⟨(Meaning.ofMembers m o target members).1, some (Meaning.ofMembers m o target members).2, r⟩ := by
  have hemits : (Json.Lenient.standing t []).Emits (.beginObject :: (Tree.object members).tail)
      (Json.Lenient.standing [] []) := by
    have hawaits : Json.Lenient.AwaitsValue [] := by simp [Json.Lenient.AwaitsValue]
    have hends : Json.Lenient.Ends [] := by simp [Json.Lenient.Ends]
    have hnone : List.all [] Json.Lenient.isSkipped = true := rfl
    have := Json.Lenient.readsTree (.object members) hnone h hawaits hends
    rwa [List.nil_append, List.append_nil] at this
  obtain ⟨offset, s, hn, htail⟩ := Source.Emits.cons_iff.mp hemits
  obtain ⟨r, hr⟩ : ∃ r : Reader, { source := .lenient { rest := t } } = r := ⟨_, rfl⟩
  have hnext : r.next = (.ok .beginObject, r.on s .beginObject) := by
    rw [← hr]
    exact Reader.next_on hn
  have hsize := htail.length_le
  simp only [Tree.tail, List.length_append, List.length_singleton] at hsize
  obtain ⟨r', hd, -⟩ := readsMembers m members o target (steps (r.on s .beginObject))
    (r.on s .beginObject) _ (by simp only [steps, Reader.on_source]; omega) htail
  refine ⟨r', ?_⟩
  rw [unmarshal, hr, Reader.enforce, if_pos (by decide), decode, hnext]
  exact hd

/-- **Codecs round trip through JSON text.** For every object of a resolved model and every value of it,
writing succeeds, compact and with any indentation by spaces and tabs, and reading the text into an
empty object succeeds and gives the same value. -/
theorem unmarshal_marshal {ds : List Schema.Declaration} {opt : ModelOptions} {m : Model}
    (hm : Model.resolve ds opt = .ok m) {id : Nat} {o : Object} (ho : m.object? id = some o)
    {target : Target} (h : HasType m (.single (.object id)) target.value) {indent : Text}
    (hi : ∀ b ∈ indent, b = 0x20 ∨ b = 0x09) :
    ∃ t target' r, marshal indent (some target) = .ok t ∧
      unmarshal m o {} t (some (Target.empty o)) = ⟨none, some target', r⟩ ∧
      Same target.value target'.value := by
  obtain ⟨t, hmarshal, hspells⟩ := marshal_spells (fun b hb => (hi b hb).imp_right .inl) h.writable
  obtain ⟨r, hunmarshal⟩ := unmarshal_spelled (m := m) (o := o) hspells (Target.empty o)
  obtain ⟨v, hv, hsame⟩ := restores_of_hasType (fun o ho => Model.keys_nodup hm ho) h []
  rw [Target.value, tree, Meaning.ofTree, ho] at hv
  simp only at hv
  split at hv
  · rename_i target' hmembers
    cases hv
    exact ⟨t, target', r, hmarshal, by rw [hunmarshal, hmembers], hsame⟩
  · cases hv

/-- Invoices with lines, a weight, an invoice that follows, and notes under any other name. -/
def invoiceSchema : List Schema.Declaration :=
  [{ name := "Item", properties := [{ key := "name", name := "name", type := "string" },
      { key := "price", name := "price", type := "decimal" }] },
    { name := "Invoice", properties := [{ key := "id", name := "id", type := "long" },
      { key := "lines", name := "lines", type := "Item", isArray := true },
      { key := "weight", name := "weight", type := "double" },
      { key := "next", name := "next", type := "Invoice" },
      { key := "*", name := "notes", type := "string", isDictionary := true }] }]

/-- The line of an invoice. -/
def itemObject : Object :=
  { id := 0, name := "Item", isInterface := false
    fields := [⟨"name", "name", .single (.scalar .string), 0⟩,
      ⟨"price", "price", .single (.scalar .decimal), 0⟩] }

def invoiceObject : Object :=
  { id := 1, name := "Invoice", isInterface := false
    fields := [⟨"id", "id", .single (.scalar .int64), 1⟩,
      ⟨"lines", "lines", .array (.object 0) "InvoiceLines", 1⟩,
      ⟨"weight", "weight", .single (.scalar .double), 1⟩, ⟨"next", "next", .single (.object 1), 1⟩]
    wildcard := some ⟨"notes", .scalar .string, 1⟩ }

def invoices : Model :=
  { package := [], serializer := [], access := .anyone, objects := [itemObject, invoiceObject]
    arrays := [⟨"InvoiceLines", 1, "lines", .object 0⟩], aggregates := [] }

/-- An invoice with the least number, a line of price `1.50` and an absent one, the weight nearest to
`0.1`, nothing that follows, and one note. -/
def invoice : Target :=
  ⟨[("id", some (.integer (-9223372036854775808))),
      ("lines", some (.array [some (.object [("name", some (.text "\"tea\"")),
        ("price", some (.decimal ⟨150, -2⟩))] []), none])),
      ("weight", some (.float .double (.finite false 7205759403792794 (-56)))), ("next", none)],
    ⟨[("é", some (.text "<\n>"))]⟩⟩

theorem resolve_invoiceSchema : Model.resolve invoiceSchema {} = .ok invoices := by
  have h : (match Model.resolve invoiceSchema {} with
      | .ok m => decide (m = invoices)
      | .error _ => false) = true := by decide +kernel
  split at h
  · rename_i m hm
    rw [hm, of_decide_eq_true h]
  · cases h

theorem hasType_invoice : HasType invoices (.single (.object 1)) invoice.value := by
  have hitem : HasType invoices (.single (.object 0)) (.object [("name", some (.text "\"tea\"")),
      ("price", some (.decimal ⟨150, -2⟩))] []) := by
    refine .object (o := itemObject) rfl ⟨rfl, ?_, fun _ => rfl, by decide, nofun, nofun, nofun⟩ ?_
      nofun
    · simp [itemObject, Text.isUtf8_ofString]
    · simp only [itemObject, List.zip_cons_cons, List.zip_nil_right, List.mem_cons, Prod.mk.injEq,
        List.not_mem_nil, or_false]
      rintro f key v (⟨rfl, -, ⟨⟩⟩ | ⟨rfl, -, ⟨⟩⟩)
      · exact .string (Text.isUtf8_ofString _)
      · exact .decimal rfl
  rw [Target.value, invoice]
  refine .object (o := invoiceObject) rfl ⟨rfl, ?_, nofun, by decide, by decide, ?_, by decide⟩ ?_ ?_
  · simp [invoiceObject, Text.isUtf8_ofString]
  · simp [Text.isUtf8_ofString]
  · simp only [invoiceObject, List.zip_cons_cons, List.zip_nil_right, List.mem_cons, Prod.mk.injEq,
      List.not_mem_nil, or_false]
    rintro f key v (⟨rfl, -, ⟨⟩⟩ | ⟨rfl, -, ⟨⟩⟩ | ⟨rfl, -, ⟨⟩⟩ | ⟨rfl, -, ⟨⟩⟩)
    · exact .int64 (by decide) (by decide)
    · refine .array (fun _ => ⟨0, rfl⟩) fun v hv => ?_
      rw [show v = _ by simpa using hv]
      exact hitem
    · exact .double false ⟨by decide, by decide, by decide, by decide⟩
  · rintro _ ⟨⟩ key v hv
    simp only [List.mem_singleton, Prod.mk.injEq, Option.some.injEq] at hv
    rw [hv.2]
    exact .string (Text.isUtf8_ofString _)

/-- The invoice comes back from text that is indented by a tab. -/
theorem unmarshal_marshal_invoice :
    Model.resolve invoiceSchema {} = .ok invoices ∧
    HasType invoices (.single (.object 1)) invoice.value ∧
    ∃ t target' r, marshal "\t" (some invoice) = .ok t ∧
      unmarshal invoices invoiceObject {} t (some (Target.empty invoiceObject)) =
        ⟨none, some target', r⟩ ∧
      Same invoice.value target'.value := by
  have hindent : ∀ b ∈ ("\t" : Text), b = 0x20 ∨ b = 0x09 := by
    have htab : ("\t" : Text) = [0x09] := rfl
    simp [htab]
  exact ⟨resolve_invoiceSchema, hasType_invoice,
    unmarshal_marshal resolve_invoiceSchema rfl hasType_invoice hindent⟩

end Codec

end WireSchema
