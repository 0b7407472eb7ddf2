import Mathlib.Data.Option.Basic
import WireSchema.Proofs.Model.Inheritance
import WireSchema.Proofs.Source.Packages
import WireSchema.Proofs.Text.Cutting
import WireSchema.Proofs.Text.Literals

/-!
# Keys in generated code

The keys under which fields are written stand in generated code as string literals: as labels where
the method that reads a member tells the fields apart, and as arguments where the method that writes
an object puts a name before each value. Both methods name the same keys in the same order, and Go
reads each literal as the key that the schema gives.
-/

namespace WireSchema

namespace Source

/-! ## Labels -/

def Clause.label? : Clause → Option Text
  | .case label _ => some label.text
  | .default _ => none

def Stmt.labels : Stmt → List Text
  | .switch _ clauses => clauses.filterMap Clause.label?
  | _ => []

/-- The labels of the switches in the body of a method, but not of those inside their clauses. -/
def Decl.labels : Decl → List Text
  | .method _ _ _ _ body => body.flatMap Stmt.labels
  | _ => []

theorem labels_decodeFieldDecl (m : Model) (o : Object) :
    (decodeFieldDecl m o).labels = o.fields.map fun f => (Code.literal f.key).text := by
  have hother (w : Option Wildcard) : (dispatchOther m w).label? = none := by cases w <;> rfl
  have hfields : (o.fields.map (dispatchField m)).filterMap Clause.label? =
      o.fields.map fun f => (Code.literal f.key).text := by
    rw [List.filterMap_map, ← List.filterMap_eq_map]
    rfl
  simp only [decodeFieldDecl, Decl.labels]
  split
  · rename_i hnone
    rw [Bool.and_eq_true, List.isEmpty_iff] at hnone
    rw [hnone.1]
    rfl
  · simp only [List.flatMap_cons, Stmt.labels, List.filterMap_append, hfields, List.filterMap_cons,
      hother, List.filterMap_nil, List.flatMap_nil, List.append_nil]

/-! ## Names written -/

/-- The argument of a call that writes the name of a member, if a line makes such a call. -/
def fieldName? (t : Text) : Option Text :=
  (Text.dropStart? t "if err := w.WriteFieldName(").bind (Text.dropEnd? · "); err != nil")

def namesIn (lines : List Code) : List Text := lines.filterMap fun c => fieldName? c.text

/-- The names that a method writes, as it writes them. -/
def Decl.namesWritten (d : Decl) : List Text := namesIn d.lines

theorem namesIn_cons (c : Code) (l : List Code) :
    namesIn (c :: l) = (fieldName? c.text).toList ++ namesIn l := by
  unfold namesIn
  rw [List.filterMap_cons]
  cases fieldName? c.text <;> rfl

theorem namesIn_stmtsLines (l : List Stmt) :
    namesIn (stmtsLines l) = l.flatMap fun s => namesIn s.lines := by
  induction l with
  | nil => rfl
  | cons s l ih =>
    rw [stmtsLines, namesIn, List.filterMap_append, ← namesIn, ← namesIn, ih, List.flatMap_cons]

theorem namesIn_block (head : Code) (body : List Stmt) : namesIn (Stmt.block head body).lines =
    (fieldName? head.text).toList ++ body.flatMap fun s => namesIn s.lines := by
  rw [Stmt.lines, namesIn_cons, namesIn_stmtsLines]

theorem namesWritten_method (doc : List Text) (receiver name : Text) (signature : Code)
    (body : List Stmt) : (Decl.method doc receiver name signature body).namesWritten =
      body.flatMap fun s => namesIn s.lines := by
  rw [Decl.namesWritten, Decl.lines, namesIn_cons, namesIn_stmtsLines]
  rfl

theorem namesIn_writeFieldName (c : Code) :
    namesIn (checked ("w.WriteFieldName(" ++ c ++ ")") "err").lines = [c.text] := by
  have htext : Code.text ("if err := " ++ ("w.WriteFieldName(" ++ c ++ ")") ++ "; err != nil") =
      Text.ofString "if err := w.WriteFieldName(" ++ (c.text ++ Text.ofString "); err != nil") := by
    simp only [Code.text_append, List.append_assoc]
    rfl
  have hname : fieldName? (Code.text
      ("if err := " ++ ("w.WriteFieldName(" ++ c ++ ")") ++ "; err != nil")) = some c.text := by
    have hstart (t : Text) : Text.dropStart? (Text.ofString "if err := w.WriteFieldName(" ++ t)
        "if err := w.WriteFieldName(" = some t := rfl
    rw [htext, fieldName?, hstart, Option.bind_some, Text.dropEnd?_append]
  rw [checked, namesIn_block, hname]
  rfl

theorem namesIn_writeElem (m : Model) (elem : ElemType) (expr : Code) :
    namesIn (writeElem m elem expr).lines = [] := by
  cases elem with
  | scalar s => cases s <;> rfl
  | object id => rfl

theorem namesIn_writeField (m : Model) (type : FieldType) (expr : Code) :
    namesIn (writeField m type expr).lines = [] := by
  cases type with
  | single elem =>
    cases elem with
    | scalar s => exact namesIn_writeElem m (.scalar s) ("*" ++ expr)
    | object id => exact namesIn_writeElem m (.object id) expr
  | array elem codec => rfl

theorem namesIn_encodeMember (m : Model) (f : Field) :
    namesIn (encodeMember m f).lines = [(Code.literal f.key).text] := by
  rw [encodeMember, namesIn_block, List.flatMap_cons, List.flatMap_cons, namesIn_writeFieldName,
    namesIn_writeField]
  rfl

theorem namesIn_encodeWildcard (m : Model) (w : Wildcard) :
    namesIn (encodeWildcard m w).lines = [("key" : Text)] := by
  have hname : namesIn (checked "w.WriteFieldName(key)" "err").lines = [("key" : Text)] := by
    decide +kernel
  rw [encodeWildcard, namesIn_block, List.flatMap_cons, List.flatMap_cons, hname, namesIn_writeElem]
  rfl

theorem namesWritten_encodeDecl (m : Model) (o : Object) : (encodeDecl m o).namesWritten =
    (o.fields.map fun f => (Code.literal f.key).text) ++
      o.wildcard.toList.map fun _ => ("key" : Text) := by
  have hfields : (o.fields.map (encodeMember m)).flatMap (fun s => namesIn s.lines) =
      o.fields.map fun f => (Code.literal f.key).text := by
    rw [List.flatMap_map, List.map_eq_flatMap]
    simp only [namesIn_encodeMember]
  have hwildcard : (o.wildcard.map (encodeWildcard m)).toList.flatMap (fun s => namesIn s.lines) =
      o.wildcard.toList.map fun _ => ("key" : Text) := by
    cases o.wildcard with
    | none => rfl
    | some w => exact (List.append_nil _).trans (namesIn_encodeWildcard m w)
  rw [encodeDecl, namesWritten_method, List.flatMap_append, List.flatMap_append,
    List.flatMap_append, hfields, hwildcard]
  -- the statements around those for the members write no names
  exact List.append_nil _

/-! ## Keys -/

section Keys

variable {ds : List Schema.Declaration} {opt : ModelOptions} {m : Model}

theorem keys_of_declares {i : Nat} {ps : List Schema.Property} {own : List Slot}
    (h : List.Forall₂ (fun p a => p.Proper ∧ Schema.Declares ds i p a) ps own) :
    (own.filter (!·.isDictionary)).map (·.key) = (ps.filter (!·.isDictionary)).map (·.key) := by
  induction h with
  | nil => rfl
  | @cons p a ps own hdeclares hrest ih =>
    obtain ⟨-, elem, -, rfl⟩ := hdeclares
    have hkey : (p.slot i elem).key = p.key := rfl
    rw [List.filter_cons, List.filter_cons, Schema.Property.slot_isDictionary]
    split
    · rw [List.map_cons, List.map_cons, ih, hkey]
    · exact ih

/-- The keys that an object inherits come first, then those of its own properties as declared. -/
def KeysInOrder (ds : List Schema.Declaration) (m : Model) (o : Object) : Prop :=
  ∃ decl inherited, ds[o.id]? = some decl ∧
    o.fields.map (·.key) = inherited ++ (decl.properties.filter (!·.isDictionary)).map (·.key) ∧
    ∀ key ∈ inherited, ∃ b ∈ m.objects, b.id ∈ o.bases ∧ key ∈ b.fields.map (·.key)

theorem keysInOrder_of_resolve (h : Model.resolve ds opt = .ok m) {o : Object} (ho : o ∈ m.objects) :
    KeysInOrder ds m o := by
  obtain ⟨i, hi⟩ := List.mem_iff_getElem?.mp ho
  obtain ⟨decl, bases, own, hdecl, hgathers⟩ := (Model.arena_of_resolve h).1 i o hi
  obtain ⟨hid, -, -, hbases⟩ := hgathers.head_eq
  have hkeys (fs : List Field) : fs.map (·.key) = (fs.map Field.slot).map (·.key) := by
    simp [Function.comp_def]
  have hsplit : o.fields.map (·.key) =
      (((bases.flatMap Object.slots).eraseDupsBy Slot.same).filter (!·.isDictionary)).map (·.key) ++
        (decl.properties.filter (!·.isDictionary)).map (·.key) := by
    rw [hkeys, hgathers.has.fields, List.filter_append, List.map_append,
      keys_of_declares hgathers.declares]
  refine ⟨decl, _, hid ▸ hdecl, hsplit, ?_⟩
  intro key hkey
  obtain ⟨a, ha, rfl⟩ := List.mem_map.mp hkey
  obtain ⟨ha, hfield⟩ := List.mem_filter.mp ha
  obtain ⟨b, hb, ha⟩ := List.mem_flatMap.mp (mem_of_mem_eraseDupsBy ha)
  obtain ⟨k, hk⟩ := List.mem_iff_getElem?.mp hb
  obtain ⟨name, -, j, -, -, hj⟩ := getElem?_of_forall₂ hgathers.finds.flip hk
  refine ⟨b, List.mem_of_getElem? hj, hbases ▸ List.mem_map_of_mem hb, ?_⟩
  rw [hkeys, ← Object.filter_slots]
  exact List.mem_map_of_mem (List.mem_filter.mpr ⟨ha, hfield⟩)

structure KeyedBy (ds : List Schema.Declaration) (m : Model) (o : Object) : Prop where
  /-- The labels of the dispatch are literals of the keys, in the order of the fields. -/
  labels : (decodeFieldDecl m o).labels.map Text.unquoted? = o.fields.map fun f => some f.key
  /-- That is the order of the declaration, after the keys that are inherited. -/
  order : KeysInOrder ds m o
  /-- No two labels stand for one key. -/
  distinct : ((decodeFieldDecl m o).labels.map Text.unquoted?).Nodup
  /-- The names written are the same literals. A dictionary is written after the fields, by a loop over
  its entries, whose variable holds the name. -/
  written : (encodeDecl m o).namesWritten =
    (decodeFieldDecl m o).labels ++ o.wildcard.toList.map fun _ => ("key" : Text)
  /-- Both methods are in the file, unless the object is an interface. -/
  declared : o.isInterface = false → ∀ source,
    decodeFieldDecl m o ∈ (file m source).decls ∧ encodeDecl m o ∈ (file m source).decls

theorem objectDecls_subset_decls {o : Object} (ho : o ∈ m.objects)
    (hconcrete : o.isInterface = false) : ∀ d ∈ objectDecls m o, d ∈ decls m := by
  intro d hd
  unfold decls
  refine .tail _ (List.mem_append_left _ (List.mem_append_right _ ?_))
  exact List.mem_flatMap.mpr ⟨o, by simp [ho, hconcrete], hd⟩

theorem unquoted?_literal (k : Text) : Text.unquoted? (Code.literal k).text = some k := by
  have htext : (Code.literal k).text = Text.quoted k := List.append_nil _
  rw [htext, Text.unquoted?_quoted]

/-- **Keys in generated code.** Go reads the literal for a text as that text, whatever its bytes are.
So in the file of a resolved schema the labels by which the fields of an object are told apart stand
for its keys, in order and each once, and its values are written under the same keys. -/
theorem keys_of_resolve : (∀ k : Text, Text.unquoted? (Code.literal k).text = some k) ∧
    ∀ (ds : List Schema.Declaration) (opt : ModelOptions) (m : Model),
      Model.resolve ds opt = .ok m → ∀ o ∈ m.objects, KeyedBy ds m o := by
  refine ⟨unquoted?_literal, fun ds opt m h o ho => ?_⟩
  have hlabels : (decodeFieldDecl m o).labels.map Text.unquoted? =
      o.fields.map fun f => some f.key := by
    rw [labels_decodeFieldDecl, List.map_map]
    exact List.map_congr_left fun f _ => unquoted?_literal f.key
  refine ⟨hlabels, keysInOrder_of_resolve h ho, ?_, ?_, fun hconcrete source => ⟨?_, ?_⟩⟩
  · have hkeys : (o.fields.map fun f => some f.key) = (o.fields.map (·.key)).map some :=
      List.map_map.symm
    rw [hlabels, hkeys]
    exact (Model.keys_nodup h ho).map (Option.some_injective _)
  · rw [namesWritten_encodeDecl, labels_decodeFieldDecl]
  · exact objectDecls_subset_decls ho hconcrete _ (by simp [objectDecls])
  · exact objectDecls_subset_decls ho hconcrete _ (by simp [objectDecls])

end Keys

/-! ## Keys that need escapes -/

/-- A path with backslashes, a byte that is no character, and a key with a tab. -/
def oddSchema : List Schema.Declaration :=
  [{ name := "Odd"
     properties :=
      [{ key := "C:\\tmp", name := "path", type := "string", line := 2 },
        { key := [0xFF], name := "stray", type := "int", line := 3 },
        { key := "a\tb", name := "tab", type := "bool", line := 4 }]
     line := 1 }]

def oddObject : Object :=
  ⟨0, "Odd", false, [⟨"C:\\tmp", "path", .single (.scalar .string), 0⟩,
    ⟨[0xFF], "stray", .single (.scalar .int32), 0⟩, ⟨"a\tb", "tab", .single (.scalar .bool), 0⟩],
    none, []⟩

def odds : Model where
  package := []
  serializer := []
  access := .anyone
  objects := [oddObject]
  arrays := []
  aggregates := []

theorem resolve_oddSchema : Model.resolve oddSchema {} = .ok odds := by
  have hnames : Resolve.checkNames [] oddSchema = .ok () := by decide +kernel
  have hobjects : Resolve.objects oddSchema [] [] oddSchema = .ok (odds.objects, odds.arrays) := by
    decide +kernel
  exact Model.resolve_eq_ok_iff.mpr ⟨hnames, _, _, hobjects, rfl⟩

/-- All three keys come back from the labels. -/
theorem keys_of_resolve_odd : Model.resolve oddSchema {} = .ok odds ∧ oddObject ∈ odds.objects ∧
    KeyedBy oddSchema odds oddObject ∧ (decodeFieldDecl odds oddObject).labels.map Text.unquoted? =
      [some (Text.ofString "C:\\tmp"), some [0xFF], some (Text.ofString "a\tb")] := by
  have hmem : oddObject ∈ odds.objects := .head _
  have hkeyed := keys_of_resolve.2 oddSchema {} odds resolve_oddSchema oddObject hmem
  exact ⟨resolve_oddSchema, hmem, hkeyed, hkeyed.labels⟩

end Source

end WireSchema
