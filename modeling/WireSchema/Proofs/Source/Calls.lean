import WireSchema.Proofs.Lists
import WireSchema.Proofs.Source.Depth
import WireSchema.Proofs.Source.Lines
import WireSchema.Source.Generate

/-!
# What is written for a model

The code writer is called for a model exactly as the declarations of the model's file are written
down, one after the other. So the calls of every emission function are balanced.
-/

namespace WireSchema.Source

open Layout (Step Balanced Placed)

namespace Code

@[simp]
theorem text_runtime (name : String) : text (runtime name) = Calls.runtime name :=
  List.append_nil _

@[simp]
theorem text_literal (value : Text) : text (literal value) = Text.quoted value := List.append_nil _

@[simp]
theorem text_method (name : Text) : text (method name) = name := List.append_nil _

end Code

@[simp]
theorem stmtsCalls_append (l l' : List Stmt) :
    stmtsCalls (l ++ l') = stmtsCalls l ++ stmtsCalls l' := by
  induction l with
  | nil => rfl
  | cons s l ih => simp [stmtsCalls, ih]

@[simp]
theorem clausesCalls_append (l l' : List Clause) :
    clausesCalls (l ++ l') = clausesCalls l ++ clausesCalls l' := by
  induction l with
  | nil => rfl
  | cons c l ih => simp [clausesCalls, ih]

theorem stmtsCalls_map {α : Type} (f : α → Stmt) (l : List α) :
    stmtsCalls (l.map f) = (l.map fun a => (f a).calls).flatten := by
  induction l with
  | nil => rfl
  | cons a l ih => simp [stmtsCalls, ih]

theorem clausesCalls_map {α : Type} (f : α → Clause) (l : List α) :
    clausesCalls (l.map f) = (l.map fun a => (f a).calls).flatten := by
  induction l with
  | nil => rfl
  | cons a l ih => simp [clausesCalls, ih]

attribute [local simp] Stmt.calls stmtsCalls Clause.calls clausesCalls

namespace Naming

variable (m : Model)

@[simp]
theorem serializer_ofModel : (ofModel m).serializer.run = m.serializerName := rfl

@[simp]
theorem typeName_ofModel (id : Nat) : ((ofModel m).typeName id).run = m.typeName id := rfl

@[simp]
theorem codecVar_ofModel (id : Nat) : ((ofModel m).codecVar id).run = m.codecVar id := rfl

@[simp]
theorem encode_ofModel (id : Nat) : ((ofModel m).encode id).run = m.encodeName id := rfl

@[simp]
theorem decode_ofModel (id : Nat) : ((ofModel m).decode id).run = m.decodeName id := rfl

@[simp]
theorem read_ofModel (id : Nat) : ((ofModel m).read id).run = m.readName id := rfl

@[simp]
theorem decodeField_ofModel (id : Nat) : ((ofModel m).decodeField id).run = m.decodeFieldName id := rfl

@[simp]
theorem member_ofModel (name : Text) : ((ofModel m).member name).run = Model.memberName name := rfl

@[simp]
theorem isInterface_ofModel (id : Nat) : ((ofModel m).isInterface id).run = fromInterface m id := rfl

@[simp]
theorem aggregated_ofModel : (ofModel m).aggregated.run = m.aggregates.filterMap m.object? := rfl

end Naming

namespace Calls

/-! ## Parts of methods -/

@[simp]
theorem checked_calls (call results : Code) :
    (checked call results).calls = checkReturning call.text results.text := by
  simp [checked, checkReturning]

@[simp]
theorem returnOnError_calls (results : Code) :
    (Source.returnOnError results).calls = returnOnError results.text := by
  simp [Source.returnOnError, returnOnError]

@[simp]
theorem nextToken_calls (results : Code) :
    stmtsCalls (Source.nextToken results) = nextToken results.text := by
  simp [Source.nextToken, nextToken]

variable (m : Model)

theorem elemType_run (elem : ElemType) :
    (elemType (.ofModel m) elem).run = (elemCode m elem).text := by
  cases elem with
  | scalar s => rfl
  | object id => simp [elemType, elemCode]

theorem fieldType_run (type : FieldType) :
    (fieldType (.ofModel m) type).run = (fieldCode m type).text := by
  unfold fieldType fieldCode
  split
  · simp [elemType_run, elemCode]
  · simp [elemType_run]
  · simp [elemType_run]

theorem dictType_run (elem : ElemType) :
    (dictType (.ofModel m) elem).run = (dictCode m elem).text := by
  simp [dictType, dictCode, elemType_run]

theorem writeElem_run (elem : ElemType) (expr : Code) :
    (writeElem (.ofModel m) elem expr.text).run = (Source.writeElem m elem expr).calls := by
  cases elem with
  | scalar s => simp [writeElem, Source.writeElem, check]
  | object id => simp [writeElem, Source.writeElem, check]

theorem writeField_run (type : FieldType) (expr : Code) :
    (writeField (.ofModel m) type expr.text).run = (Source.writeField m type expr).calls := by
  unfold writeField Source.writeField
  split
  · simp [← writeElem_run]
  · simp [← writeElem_run]
  · simp [check]

def usesVariable : ElemType → Bool
  | .scalar .bool | .scalar .string => false
  | _ => true

theorem readElem_run (elem : ElemType) (label : Text) {failed : Code → Code} {failedText : Text → Text}
    {store : Code → List Stmt} {storeCalls : Text → Bool → Id (List Step)}
    (hfailed : ∀ c : Code, failedText c.text = (failed c).text)
    (hstore : ∀ c : Code, (storeCalls c.text (usesVariable elem)).run = stmtsCalls (store c)) :
    (readElem (.ofModel m) elem label failedText storeCalls).run =
      (Source.readElem m elem label failed store).calls := by
  -- all but truth values and texts are read into a variable before they are stored
  have hvar (h : usesVariable elem = true) : (storeCalls "x" true).run = stmtsCalls (store "x") := by
    simpa [h] using hstore "x"
  cases elem with
  | scalar s =>
    cases s with
    | bool =>
      have h := hstore ("kind == " ++ Code.runtime "TokenTrue")
      simpa [readElem, Source.readElem, usesVariable] using h
    | string =>
      have h := hstore "r.Text()"
      simpa [readElem, Source.readElem, usesVariable] using h
    | int32 | int64 | decimal | float | double =>
      simp [readElem, Source.readElem, ← hfailed, hvar rfl]
  | object id => simp [readElem, Source.readElem, ← hfailed, hvar rfl]

/-! ## Objects -/

theorem encodeMember_run (f : Field) :
    (encodeMember (.ofModel m) f).run = (Source.encodeMember m f).calls := by
  have hwrite := writeField_run m f.type (Code.word ("v." ++ Model.memberName f.name))
  rw [Code.text_word] at hwrite
  simp [encodeMember, Source.encodeMember, check, ← hwrite]

theorem encodeWildcard_run (w : Wildcard) :
    (encodeWildcard (.ofModel m) w).run = (Source.encodeWildcard m w).calls := by
  have hwrite := writeElem_run m w.elem "value"
  simp [encodeWildcard, Source.encodeWildcard, check, ← hwrite]

theorem encodeObject_run (o : Object) :
    (encodeObject (.ofModel m) o).run = (encodeDecl m o).calls := by
  simp [encodeObject, encodeDecl, Decl.calls, encodeMember_run, encodeWildcard_run, stmtsCalls_map,
    Option.toList_map, check]

theorem decodeObject_run (o : Object) :
    (decodeObject (.ofModel m) o).run = (decodeDecl m o).calls := by
  simp [decodeObject, decodeDecl, Decl.calls, check]

theorem storeField_calls (elem : ElemType) (target expr : Code) :
    stmtsCalls (Source.storeField (.single elem) target expr) =
      storeField (.single elem) target.text expr.text (usesVariable elem) := by
  cases elem with
  | scalar s => cases s <;> simp [Source.storeField, storeField, usesVariable]
  | object id => simp [Source.storeField, storeField]

theorem readField_run (f : Field) :
    (readField (.ofModel m) f.type (Model.memberName f.name) ("v." ++ Model.memberName f.name)
      fun expr isVariable =>
        pure (storeField f.type ("v." ++ Model.memberName f.name) expr isVariable)).run =
      (Source.readField m f).calls := by
  unfold readField Source.readField
  cases f.type with
  | single elem =>
    refine readElem_run m elem _ (fun c => rfl) fun c => ?_
    simp [storeField_calls]
  | array elem codec => simp [storeField, Source.storeField]

theorem dispatchField_run (f : Field) :
    (dispatchField (.ofModel m) f).run = (Source.dispatchField m f).calls := by
  simp [dispatchField, Source.dispatchField, readField_run, Source.refuseMember, refuseMember]

theorem dispatchOther_run (w : Option Wildcard) :
    (dispatchOther (.ofModel m) w).run = (Source.dispatchOther m w).calls := by
  cases w with
  | none => simp [dispatchOther, Source.dispatchOther]
  | some w =>
    let target := Code.word ("v." ++ Model.memberName w.name)
    have hread : (readElem (.ofModel m) w.elem (Model.memberName w.name) id fun expr _ =>
          storeEntry (.ofModel m) w.elem target.text expr).run =
        (Source.readElem m w.elem (Model.memberName w.name) id fun expr => [
          .block ("if " ++ target ++ " == nil")
            [.line (target ++ " = " ++ Code.runtime "NewDict" ++ "[" ++ elemCode m w.elem ++ "]()")],
          .line (target ++ ".Set(name, " ++ expr ++ ")")]).calls :=
      readElem_run m w.elem _ (fun _ => rfl) fun expr => by simp [storeEntry, elemType_run]
    simpa [dispatchOther, Source.dispatchOther, Source.refuseMember, refuseMember, target] using hread

theorem decodeObjectField_run (o : Object) :
    (decodeObjectField (.ofModel m) o).run = (decodeFieldDecl m o).calls := by
  unfold decodeObjectField decodeFieldDecl
  split
  · simp [Decl.calls]
  · cases o.wildcard with
    | none => simp [Decl.calls, dispatchField_run, dispatchOther_run, clausesCalls_map]
    | some w => simp [Decl.calls, dispatchField_run, dispatchOther_run, clausesCalls_map]

theorem readObject_run (o : Object) :
    (readObject (.ofModel m) o).run = (readDecl m o).calls := by
  simp [readObject, readDecl, Decl.calls]

theorem objectCodec_run (o : Object) :
    (objectCodec (.ofModel m) o).run = (objectDecls m o).flatMap Decl.calls := by
  simp [objectCodec, objectDecls, encodeObject_run, decodeObject_run, decodeObjectField_run,
    readObject_run, codecDecl, Decl.calls]

/-! ## Arrays -/

theorem encodeArray_run (a : ArrayCodec) :
    (encodeArray (.ofModel m) a).run = (encodeArrayDecl m a).calls := by
  have hwrite := writeElem_run m a.elem "item"
  simp [encodeArray, encodeArrayDecl, Decl.calls, elemType_run, ← hwrite, check]

theorem nullItem_eq (a : ArrayCodec) :
    nullItem a.elem (Model.memberName a.field) = (nullElement a).text := by
  unfold nullItem nullElement
  cases a.elem <;> simp

theorem decodeArray_run (a : ArrayCodec) :
    (decodeArray (.ofModel m) a).run = (decodeArrayDecl m a).calls := by
  have hread : (readElem (.ofModel m) a.elem (Model.memberName a.field) (fun e => "nil, " ++ e)
        fun expr _ => pure [.line ("dst = append(dst, " ++ expr ++ ")")]).run =
      (Source.readElem m a.elem (Model.memberName a.field) (fun e => "nil, " ++ e)
        fun expr => [.line ("dst = append(dst, " ++ expr ++ ")")]).calls :=
    readElem_run m a.elem _ (fun _ => by simp) fun expr => by simp
  simpa [decodeArray, decodeArrayDecl, Decl.calls, elemType_run, nullItem_eq] using hread

theorem arrayCodec_run (a : ArrayCodec) : (arrayCodec (.ofModel m) a).run =
    [encodeArrayDecl m a, decodeArrayDecl m a].flatMap Decl.calls := by
  simp [arrayCodec, encodeArray_run, decodeArray_run]

/-! ## Data types -/

theorem members_run (o : Object) : (members (.ofModel m) o).run =
    (Source.members m o).map fun x => (Model.memberName x.1, x.2.1.text, x.2.2) := by
  unfold Source.members
  cases h : o.wildcard with
  | none => simp [members, fieldType_run, h]
  | some w => simp [members, fieldType_run, dictType_run, h]

theorem getter_run (type : Text) (x : Text × Code × Nat) :
    (getter (.ofModel m) type (Model.memberName x.1, x.2.1.text, x.2.2)).run =
      if fromInterface m x.2.2 then
        (Decl.getter type (Model.getterName x.1) x.2.1 (Model.memberName x.1)).calls
      else [] := by
  cases h : fromInterface m x.2.2 with
  | true => simp [getter, h, Decl.calls, Model.getterName, Model.memberName]
  | false => simp [getter, h]

theorem aggregate_run (o : Object) :
    (aggregate (.ofModel m) o).run = (dataDecls m o).flatMap Decl.calls := by
  unfold aggregate dataDecls
  cases h : o.isInterface with
  | true =>
    simp [members_run, Decl.calls, dataDoc, h, Function.comp_def, Model.getterName, Model.memberName]
  | false =>
    simp [members_run, Decl.calls, dataDoc, h, Function.comp_def, getter_run, flatten_map_ite,
      List.flatMap_map]

/-! ## The file -/

/-- What is written below the head of a file is its declarations, in order. -/
theorem body_run : (body (.ofModel m) m).run = (decls m).flatMap Decl.calls := by
  have hserializer : (serializerDecl m).calls = [.blank, .comment (m.serializerName
        ++ " encodes and decodes the declared types. The zero value is ready to use."),
      .line ("type " ++ m.serializerName ++ " struct\x7b\x7d")] := by
    simp [serializerDecl, Decl.calls]
  simp [body, decls, hserializer, aggregate_run, objectCodec_run, arrayCodec_run,
    ← List.flatMap_def, List.flatMap_assoc]

theorem balanced_head (source : Text) : Balanced (head m source) := by
  refine Balanced.append (fun _ => rfl) ?_
  split
  · exact .nil
  · exact (Balanced.append (fun _ => rfl) (.map (fun _ _ => rfl) _)).append fun _ => rfl

/-- The calls of every emission function have their places. -/
structure AllPlaced (source : Text) : Prop where
  head : Placed (head m source)
  body : Placed (body (.ofModel m) m).run
  aggregate : ∀ o, Placed (aggregate (.ofModel m) o).run
  objectCodec : ∀ o, Placed (objectCodec (.ofModel m) o).run
  encodeObject : ∀ o, Placed (encodeObject (.ofModel m) o).run
  decodeObject : ∀ o, Placed (decodeObject (.ofModel m) o).run
  decodeObjectField : ∀ o, Placed (decodeObjectField (.ofModel m) o).run
  readObject : ∀ o, Placed (readObject (.ofModel m) o).run
  arrayCodec : ∀ a, Placed (arrayCodec (.ofModel m) a).run
  encodeArray : ∀ a, Placed (encodeArray (.ofModel m) a).run
  decodeArray : ∀ a, Placed (decodeArray (.ofModel m) a).run

theorem allPlaced (source : Text) : AllPlaced m source where
  head := (balanced_head m source).placed
  body := body_run m ▸ (Balanced.flatMap Decl.balanced_calls _).placed
  aggregate o := aggregate_run m o ▸ (Balanced.flatMap Decl.balanced_calls _).placed
  objectCodec o := objectCodec_run m o ▸ (Balanced.flatMap Decl.balanced_calls _).placed
  encodeObject o := encodeObject_run m o ▸ (Decl.balanced_calls _).placed
  decodeObject o := decodeObject_run m o ▸ (Decl.balanced_calls _).placed
  decodeObjectField o := decodeObjectField_run m o ▸ (Decl.balanced_calls _).placed
  readObject o := readObject_run m o ▸ (Decl.balanced_calls _).placed
  arrayCodec a := arrayCodec_run m a ▸ (Balanced.flatMap Decl.balanced_calls _).placed
  encodeArray a := encodeArray_run m a ▸ (Decl.balanced_calls _).placed
  decodeArray a := decodeArray_run m a ▸ (Decl.balanced_calls _).placed

end Calls

/-! ## Generation -/

theorem exists_written {calls : List Step} (h : Placed calls) : ∃ text, written calls = .ok text := by
  obtain ⟨l, hl, -⟩ := h.final
  exact ⟨l.text, by rw [written, hl]⟩

/-- All that is written for a model without clashes has a place, and the formatter has the last word. -/
theorem generate_of_clash?_eq_none {m : Model} {source : Text}
    (hserializer : (m.access == .anyone && m.serializer.isEmpty) = false)
    (hclash : Model.clash? [] m.reservedNames = none) : generate m source = formatted m source := by
  obtain ⟨body, hbody⟩ := exists_written (Calls.allPlaced m source).body
  obtain ⟨head, hhead⟩ := exists_written (Calls.allPlaced m source).head
  simp only [generate, hserializer, hclash, hbody, hhead]
  rfl

theorem File.render_ne_nil (f : File) : f.render ≠ [] := by
  have hblank : Line.text .blank ≠ [] := by decide
  simp [render, format, headFormat, hblank]

end WireSchema.Source
