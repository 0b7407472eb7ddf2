import WireSchema.Source.Emit

/-!
# Methods that a file refers to

Which methods of the serializer the declarations of a generated file refer to: those for the objects
and the arrays that an object or an array consists of, and those of the object itself.
-/

namespace WireSchema.Source

/-! ## References -/

/-- The methods of the serializer that code refers to. -/
def Code.references (c : Code) : List Text :=
  c.filterMap fun
    | .method name => some name
    | _ => none

mutual
/-- The methods that a statement refers to. -/
def Stmt.references : Stmt → List Text
  | .line code => code.references
  | .block head body => head.references ++ stmtsReferences body
  | .switch head clauses => head.references ++ clausesReferences clauses
/-- The methods that statements refer to. -/
def stmtsReferences : List Stmt → List Text
  | [] => []
  | s :: rest => s.references ++ stmtsReferences rest
def Clause.references : Clause → List Text
  | .case label body => label.references ++ stmtsReferences body
  | .default body => stmtsReferences body
def clausesReferences : List Clause → List Text
  | [] => []
  | c :: rest => c.references ++ clausesReferences rest
end

/-- The methods that a declaration refers to. -/
def Decl.references : Decl → List Text
  | .marker _ _ => []
  | .interface _ _ methods => methods.flatMap (·.type.references)
  | .struct _ _ fields => fields.flatMap (·.type.references)
  | .getter _ _ result _ => result.references
  | .variable _ _ value members => value.references ++ members.flatMap Code.references
  | .method _ _ _ signature body => signature.references ++ stmtsReferences body

namespace Code

@[simp]
theorem references_nil : references [] = [] := rfl

@[simp]
theorem references_cons_raw (t : Text) (c : Code) : references (.raw t :: c) = references c := rfl

@[simp]
theorem references_append (c c' : Code) : references (c ++ c') = references c ++ references c' :=
  List.filterMap_append

@[simp]
theorem references_word (t : Text) : references (word t) = [] := rfl

@[simp]
theorem references_runtime (name : String) : references (runtime name) = [] := rfl

@[simp]
theorem references_literal (value : Text) : references (literal value) = [] := rfl

@[simp]
theorem references_method (name : Text) : references (method name) = [name] := rfl

end Code

attribute [simp] Stmt.references stmtsReferences Clause.references clausesReferences

@[simp]
theorem stmtsReferences_append (l l' : List Stmt) :
    stmtsReferences (l ++ l') = stmtsReferences l ++ stmtsReferences l' := by
  induction l with
  | nil => rfl
  | cons s l ih => simp [ih]

@[simp]
theorem clausesReferences_append (l l' : List Clause) :
    clausesReferences (l ++ l') = clausesReferences l ++ clausesReferences l' := by
  induction l with
  | nil => rfl
  | cons c l ih => simp [ih]

theorem stmtsReferences_map {α : Type} (f : α → Stmt) (l : List α) :
    stmtsReferences (l.map f) = l.flatMap fun a => (f a).references := by
  induction l with
  | nil => rfl
  | cons a l ih => simp [ih]

theorem clausesReferences_map {α : Type} (f : α → Clause) (l : List α) :
    clausesReferences (l.map f) = l.flatMap fun a => (f a).references := by
  induction l with
  | nil => rfl
  | cons a l ih => simp [ih]

/-! ## What each declaration refers to -/

def elemCallees (onObject : Nat → Text) : ElemType → List Text
  | .scalar _ => []
  | .object id => [onObject id]

def fieldCallees (onObject : Nat → Text) (onArray : Text → Text) : FieldType → List Text
  | .single elem => elemCallees onObject elem
  | .array _ codec => [onArray codec]

def callees (onObject : Nat → Text) (onArray : Text → Text) (o : Object) : List Text :=
  (o.fields.flatMap fun f => fieldCallees onObject onArray f.type) ++
    o.wildcard.toList.flatMap fun w => elemCallees onObject w.elem

variable (m : Model)

@[simp]
theorem references_scalarType (s : Scalar) : (scalarType s).references = [] := by cases s <;> rfl

@[simp]
theorem references_elemCode (elem : ElemType) : (elemCode m elem).references = [] := by
  cases elem <;> simp [elemCode]

@[simp]
theorem references_fieldCode (type : FieldType) : (fieldCode m type).references = [] := by
  unfold fieldCode
  split <;> simp

@[simp]
theorem references_dictCode (elem : ElemType) : (dictCode m elem).references = [] := by
  simp [dictCode]

@[simp]
theorem references_checked (call results : Code) :
    (checked call results).references = call.references ++ results.references := by
  simp [checked]

@[simp]
theorem references_returnOnError (results : Code) :
    (returnOnError results).references = results.references := by
  simp [returnOnError]

@[simp]
theorem references_nextToken (results : Code) :
    stmtsReferences (nextToken results) = results.references := by
  simp [nextToken]

@[simp]
theorem references_refuseMember (name : Text) : (refuseMember name).references = [] := by
  simp [refuseMember]

@[simp]
theorem references_storeField (type : FieldType) (target expr : Code) :
    stmtsReferences (storeField type target expr) = target.references ++ expr.references := by
  unfold storeField
  split <;> simp

@[simp]
theorem references_writeElem (elem : ElemType) (expr : Code) :
    (writeElem m elem expr).references = elemCallees m.encodeName elem ++ expr.references := by
  cases elem with
  | scalar s => cases s <;> simp [writeElem, writeMethod, elemCallees]
  | object id => simp [writeElem, elemCallees]

@[simp]
theorem references_writeField (type : FieldType) (expr : Code) :
    (writeField m type expr).references =
      fieldCallees m.encodeName Model.encodeArrayName type ++ expr.references := by
  unfold writeField
  split <;> simp [fieldCallees]

theorem references_readElem (elem : ElemType) (label : Text) (failed : Code → Code)
    (store : Code → List Stmt) (hfailed : ∀ c, (failed c).references = c.references)
    (hstore : ∀ c, stmtsReferences (store c) = c.references) :
    (readElem m elem label failed store).references = elemCallees m.decodeName elem := by
  cases elem with
  | scalar s =>
    cases s <;> simp [readElem, scalarTokens, readFunction, elemCallees, hfailed, hstore]
  | object id => simp [readElem, elemCallees, hfailed, hstore]

theorem references_readField (f : Field) :
    (readField m f).references = fieldCallees m.decodeName Model.decodeArrayName f.type := by
  unfold readField
  cases f.type with
  | single elem => exact references_readElem m elem _ _ _ (by simp) (by simp)
  | array elem codec => simp [fieldCallees]

theorem references_dataDecls {o : Object} {d : Decl} (hd : d ∈ dataDecls m o) :
    d.references = [] := by
  have hmembers : ∀ x ∈ members m o, x.2.1.references = [] := by
    unfold members
    cases o.wildcard <;> simp [or_imp, forall_and]
  unfold dataDecls at hd
  cases hinterface : o.isInterface with
  | true =>
    simp only [hinterface, if_true, List.mem_singleton] at hd
    rw [hd, Decl.references, List.flatMap_map, List.flatMap_eq_nil_iff]
    exact hmembers
  | false =>
    simp only [hinterface, Bool.false_eq_true, if_false, List.mem_cons, List.mem_map,
      List.mem_filter] at hd
    rcases hd with rfl | ⟨x, ⟨hx, -⟩, rfl⟩
    · rw [Decl.references, List.flatMap_map, List.flatMap_eq_nil_iff]
      exact hmembers
    · exact hmembers x hx

theorem references_codecDecl (o : Object) :
    (codecDecl m o).references = [m.encodeName o.id, m.decodeName o.id] := by
  simp [codecDecl, Decl.references]

theorem references_encodeDecl (o : Object) :
    (encodeDecl m o).references = callees m.encodeName Model.encodeArrayName o := by
  have hmember (f : Field) : (encodeMember m f).references =
      fieldCallees m.encodeName Model.encodeArrayName f.type := by
    simp [encodeMember]
  have hwildcard (w : Wildcard) : (encodeWildcard m w).references =
      elemCallees m.encodeName w.elem := by
    simp [encodeWildcard]
  cases hw : o.wildcard with
  | none => simp [encodeDecl, Decl.references, callees, stmtsReferences_map, hmember, hw]
  | some w =>
    simp [encodeDecl, Decl.references, callees, stmtsReferences_map, hmember, hwildcard, hw]

theorem references_decodeDecl (o : Object) :
    (decodeDecl m o).references = [m.decodeFieldName o.id] := by
  simp [decodeDecl, Decl.references]

theorem references_decodeFieldDecl (o : Object) :
    (decodeFieldDecl m o).references = callees m.decodeName Model.decodeArrayName o := by
  have hfield (f : Field) : (dispatchField m f).references =
      fieldCallees m.decodeName Model.decodeArrayName f.type := by
    simp [dispatchField, references_readField]
  have hother : (dispatchOther m o.wildcard).references =
      o.wildcard.toList.flatMap fun w => elemCallees m.decodeName w.elem := by
    cases o.wildcard with
    | none => simp [dispatchOther]
    | some w => simp [dispatchOther, references_readElem]
  by_cases hempty : (o.fields.isEmpty && o.wildcard.isNone) = true
  · have hnone : o.fields = [] ∧ o.wildcard = none := by simpa using hempty
    simp [decodeFieldDecl, Decl.references, callees, hnone]
  · simp only [decodeFieldDecl, if_neg hempty]
    cases o.wildcard.isSome <;>
      simp [Decl.references, callees, clausesReferences_map, hfield, hother]

theorem references_readDecl (o : Object) : (readDecl m o).references = [m.decodeName o.id] := by
  simp [readDecl, Decl.references]

theorem references_encodeArrayDecl (a : ArrayCodec) :
    (encodeArrayDecl m a).references = elemCallees m.encodeName a.elem := by
  simp [encodeArrayDecl, Decl.references]

theorem references_decodeArrayDecl (a : ArrayCodec) :
    (decodeArrayDecl m a).references = elemCallees m.decodeName a.elem := by
  have hnull : (nullElement a).references = [] := by
    unfold nullElement
    split <;> simp
  have hread := references_readElem m a.elem (Model.memberName a.field)
    (fun e => "nil, " ++ e) (fun expr => [.line ("dst = append(dst, " ++ expr ++ ")")])
    (by simp) (by simp)
  simp only [decodeArrayDecl, Decl.references, stmtsReferences, Stmt.references,
    stmtsReferences_append, clausesReferences, Clause.references, hread, hnull]
  simp

end WireSchema.Source
