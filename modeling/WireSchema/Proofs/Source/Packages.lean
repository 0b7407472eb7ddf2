import Mathlib.Tactic.SplitIfs
import WireSchema.Proofs.Lists
import WireSchema.Proofs.Source.Lines
import WireSchema.Source.Emit

/-!
# Packages that a file refers to

Which of the two imported packages each line of code of a file refers to. Codecs and arrays refer to
the runtime package, and so do dictionaries in data types. The decimal type is named where a data
type, an array or a new dictionary holds decimals; a plain field is read and written without it.
-/

namespace WireSchema.Source

/-! ## Packages -/

/-- The packages that a file may import. -/
inductive Package where
  | runtime
  | decimal
  deriving DecidableEq

namespace Package

def path : Package → Text
  | .runtime => "github.com/reoring/codecgen"
  | .decimal => "github.com/shopspring/decimal"

end Package

/-- The package that a piece of code refers to. -/
def Atom.package? : Atom → Option Package
  | .runtime _ => some .runtime
  | .decimalType => some .decimal
  | _ => none

namespace Code

def packages (c : Code) : List Package := c.filterMap Atom.package?

@[simp]
theorem packages_nil : packages [] = [] := rfl

@[simp]
theorem packages_cons_raw (t : Text) (c : Code) : packages (.raw t :: c) = packages c := rfl

@[simp]
theorem packages_append (c c' : Code) : packages (c ++ c') = packages c ++ packages c' :=
  List.filterMap_append

@[simp]
theorem packages_word (t : Text) : packages (word t) = [] := rfl

@[simp]
theorem packages_runtime (name : String) : packages (runtime name) = [.runtime] := rfl

@[simp]
theorem packages_literal (value : Text) : packages (literal value) = [] := rfl

@[simp]
theorem packages_method (name : Text) : packages (method name) = [] := rfl

end Code

def Mentions (p : Package) (lines : List Code) : Prop := ∃ c ∈ lines, p ∈ c.packages

section Naming

variable {p : Package}

@[simp]
theorem mentions_nil : ¬ Mentions p [] := by
  rintro ⟨c, hc, -⟩
  cases hc

@[simp]
theorem mentions_cons (c : Code) (l : List Code) :
    Mentions p (c :: l) ↔ p ∈ c.packages ∨ Mentions p l := by
  simp [Mentions]

@[simp]
theorem mentions_append (l l' : List Code) :
    Mentions p (l ++ l') ↔ Mentions p l ∨ Mentions p l' := by
  simp [Mentions, or_and_right, exists_or]

theorem mentions_map {α : Type} (f : α → Code) (l : List α) :
    Mentions p (l.map f) ↔ ∃ a ∈ l, p ∈ (f a).packages := by
  simp [Mentions]

theorem mentions_flatMap {α : Type} (f : α → List Code) (l : List α) :
    Mentions p (l.flatMap f) ↔ ∃ a ∈ l, Mentions p (f a) := by
  induction l with
  | nil => simp
  | cons a l ih => simp [ih]

theorem mentions_stmts_map {α : Type} (f : α → Stmt) (l : List α) :
    Mentions p (stmtsLines (l.map f)) ↔ ∃ a ∈ l, Mentions p (f a).lines := by
  induction l with
  | nil => simp [stmtsLines]
  | cons a l ih => simp [stmtsLines, ih]

theorem mentions_clauses_map {α : Type} (f : α → Clause) (l : List α) :
    Mentions p (clausesLines (l.map f)) ↔ ∃ a ∈ l, Mentions p (f a).lines := by
  induction l with
  | nil => simp [clausesLines]
  | cons a l ih => simp [clausesLines, ih]

@[simp]
theorem stmtsLines_append (l l' : List Stmt) :
    stmtsLines (l ++ l') = stmtsLines l ++ stmtsLines l' := by
  induction l with
  | nil => rfl
  | cons s l ih => simp [stmtsLines, ih]

@[simp]
theorem clausesLines_append (l l' : List Clause) :
    clausesLines (l ++ l') = clausesLines l ++ clausesLines l' := by
  induction l with
  | nil => rfl
  | cons s l ih => simp [clausesLines, ih]

end Naming

attribute [simp] Stmt.lines stmtsLines Clause.lines clausesLines

/-! ## What names the decimal type -/

section Decimals

open Package (decimal)

variable (m : Model)

@[simp]
theorem decimal_scalarType (s : Scalar) : decimal ∈ (scalarType s).packages ↔ s = .decimal := by
  cases s <;> simp [scalarType, Code.packages, Atom.package?]

@[simp]
theorem decimal_elemCode (elem : ElemType) :
    decimal ∈ (elemCode m elem).packages ↔ isDecimal elem := by
  cases elem with
  | scalar s => cases s <;> simp [elemCode, isDecimal]
  | object id => simp [elemCode, isDecimal]

@[simp]
theorem decimal_fieldCode (type : FieldType) :
    decimal ∈ (fieldCode m type).packages ↔ holdsDecimal type := by
  unfold fieldCode
  split
  next s => cases s <;> simp [holdsDecimal, isDecimal]
  next => simp [holdsDecimal]
  next => simp [holdsDecimal]

@[simp]
theorem decimal_dictCode (elem : ElemType) :
    decimal ∈ (dictCode m elem).packages ↔ isDecimal elem := by
  simp [dictCode]

@[simp]
theorem packages_writeMethod (s : Scalar) : (writeMethod s).packages = [] := by
  cases s <;> rfl

@[simp]
theorem packages_readFunction (s : Scalar) : (readFunction s).packages = [.runtime] := by
  cases s <;> rfl

@[simp]
theorem decimal_scalarTokens (s : Scalar) : decimal ∉ (scalarTokens s).packages := by
  cases s <;> simp [scalarTokens]

@[simp]
theorem mentions_checked (p : Package) (call results : Code) :
    Mentions p (checked call results).lines ↔ p ∈ call.packages ∨ p ∈ results.packages := by
  simp [checked]

@[simp]
theorem mentions_returnOnError (p : Package) (results : Code) :
    Mentions p (returnOnError results).lines ↔ p ∈ results.packages := by
  simp [returnOnError]

@[simp]
theorem mentions_nextToken (p : Package) (results : Code) :
    Mentions p (stmtsLines (nextToken results)) ↔ p ∈ results.packages := by
  simp [nextToken]

@[simp]
theorem mentions_writeElem (p : Package) (elem : ElemType) (expr : Code) :
    Mentions p (writeElem m elem expr).lines ↔ p ∈ expr.packages := by
  cases elem <;> simp [writeElem]

@[simp]
theorem mentions_writeField (p : Package) (type : FieldType) (expr : Code) :
    Mentions p (writeField m type expr).lines ↔ p ∈ expr.packages := by
  unfold writeField
  split <;> simp

@[simp]
theorem decimal_storeField (type : FieldType) (target expr : Code) :
    Mentions decimal (stmtsLines (storeField type target expr)) ↔
      decimal ∈ target.packages ∨ decimal ∈ expr.packages := by
  unfold storeField
  split <;> simp

@[simp]
theorem decimal_refuseMember (name : Text) : ¬ Mentions decimal (refuseMember name).lines := by
  simp [refuseMember]

theorem decimal_readElem (elem : ElemType) (label : Text) {failed : Code → Code}
    {store : Code → List Stmt}
    (hfailed : ∀ c, decimal ∈ (failed c).packages ↔ decimal ∈ c.packages)
    (hstore : ∀ c, decimal ∉ c.packages →
      (Mentions decimal (stmtsLines (store c)) ↔ Mentions decimal (stmtsLines (store "x")))) :
    Mentions decimal (readElem m elem label failed store).lines ↔
      Mentions decimal (stmtsLines (store "x")) := by
  unfold readElem
  split
  · simp [hstore, scalarTokens]
  · simp [hstore, scalarTokens]
  · simp [hfailed]
  · simp [hfailed]

theorem decimal_readField (f : Field) : ¬ Mentions decimal (readField m f).lines := by
  unfold readField
  cases f.type with
  | single elem =>
    simp only
    rw [decimal_readElem m elem _ (by simp) (by simp +contextual)]
    simp
  | array elem codec => simp

theorem decimal_encodeDecl (o : Object) : ¬ Mentions decimal (encodeDecl m o).lines := by
  cases hw : o.wildcard <;>
    simp [encodeDecl, Decl.lines, mentions_stmts_map, encodeMember, encodeWildcard, hw]

theorem decimal_decodeDecl (o : Object) : ¬ Mentions decimal (decodeDecl m o).lines := by
  simp [decodeDecl, Decl.lines]

theorem decimal_readDecl (o : Object) : ¬ Mentions decimal (readDecl m o).lines := by
  simp [readDecl, Decl.lines]

theorem decimal_codecDecl (o : Object) : ¬ Mentions decimal (codecDecl m o).lines := by
  simp [codecDecl, Decl.lines]

theorem decimal_dispatchOther (w? : Option Wildcard) :
    Mentions decimal (dispatchOther m w?).lines ↔ (w?.map (isDecimal ·.elem)).getD false := by
  cases w? with
  | none => simp [dispatchOther]
  | some w =>
    -- A decimal is named where the dictionary is made.
    simp only [dispatchOther, Clause.lines, stmtsLines_append, stmtsLines, Stmt.lines, clausesLines]
    simp only [mentions_append, mentions_cons, mentions_nextToken]
    rw [decimal_readElem m w.elem _ (by simp) (by simp +contextual)]
    simp

theorem decimal_decodeFieldDecl (o : Object) : Mentions decimal (decodeFieldDecl m o).lines ↔
    (o.wildcard.map (isDecimal ·.elem)).getD false := by
  have hfield (f : Field) : ¬ Mentions decimal (dispatchField m f).lines := by
    simp [dispatchField, decimal_readField]
  by_cases hempty : (o.fields.isEmpty && o.wildcard.isNone) = true
  · have hnone : o.fields = [] ∧ o.wildcard = none := by simpa using hempty
    simp [decodeFieldDecl, Decl.lines, hnone]
  · simp only [decodeFieldDecl, if_neg hempty]
    cases o.wildcard.isSome <;>
      simp [Decl.lines, mentions_clauses_map, hfield, decimal_dispatchOther]

theorem decimal_encodeArrayDecl (a : ArrayCodec) :
    Mentions decimal (encodeArrayDecl m a).lines ↔ isDecimal a.elem := by
  simp [encodeArrayDecl, Decl.lines]

theorem decimal_decodeArrayDecl (a : ArrayCodec) :
    Mentions decimal (decodeArrayDecl m a).lines ↔ isDecimal a.elem := by
  have hnull : decimal ∉ (nullElement a).packages := by
    unfold nullElement
    split <;> simp
  simp only [decodeArrayDecl, Decl.lines, stmtsLines, Stmt.lines, stmtsLines_append, clausesLines,
    Clause.lines, mentions_append, mentions_cons]
  rw [decimal_readElem m a.elem _ (by simp) (by simp +contextual)]
  simp [hnull]

end Decimals

/-! ## What a file refers to -/

section Files

variable (m : Model) {p : Package}

theorem mentions_getterLines (receiver name : Text) (result : Code) (field : Text) :
    Mentions p (Decl.getterLines receiver name result field) ↔ p ∈ result.packages := by
  rw [Decl.getterLines]
  split <;> simp [Decl.getterHead, Decl.getterBody]

theorem mentions_dataDecls (o : Object) : Mentions p ((dataDecls m o).flatMap Decl.lines) ↔
    ∃ x ∈ members m o, p ∈ x.2.1.packages := by
  unfold dataDecls
  cases o.isInterface with
  | true => simp [Decl.lines, mentions_map]
  | false =>
    have hstruct (doc : List Text) (type : Text) : Mentions p (Decl.struct doc type
        ((members m o).map fun x => ⟨Model.memberName x.1, x.2.1⟩)).lines ↔
        ∃ x ∈ members m o, p ∈ x.2.1.packages := by
      simp [Decl.lines, mentions_map, Decl.fieldLine]
    simp only [Bool.false_eq_true, if_false, List.flatMap_cons, mentions_append, mentions_flatMap,
      List.mem_map, List.mem_filter]
    constructor
    · rintro (h | ⟨d, ⟨x, ⟨hx, -⟩, rfl⟩, h⟩)
      · exact (hstruct _ _).mp h
      · exact ⟨x, hx, (mentions_getterLines _ _ _ _).mp h⟩
    · intro h
      exact .inl ((hstruct _ _).mpr h)

theorem mentions_members (o : Object) : (∃ x ∈ members m o, p ∈ x.2.1.packages) ↔
    (∃ f ∈ o.fields, p ∈ (fieldCode m f.type).packages) ∨
      ∃ w ∈ o.wildcard, p ∈ (dictCode m w.elem).packages := by
  unfold members
  cases o.wildcard <;> simp [or_and_right, exists_or]

theorem mentions_decls : Mentions p ((decls m).flatMap Decl.lines) ↔
    (∃ o ∈ m.aggregates.filterMap m.object?, (∃ f ∈ o.fields, p ∈ (fieldCode m f.type).packages) ∨
      ∃ w ∈ o.wildcard, p ∈ (dictCode m w.elem).packages) ∨
    (∃ o ∈ m.objects, o.isInterface = false ∧ Mentions p ((objectDecls m o).flatMap Decl.lines)) ∨
    ∃ a ∈ m.arrays,
      Mentions p (encodeArrayDecl m a).lines ∨ Mentions p (decodeArrayDecl m a).lines := by
  have hserializer : ¬ Mentions p (serializerDecl m).lines := by
    simp [serializerDecl, Decl.lines]
  simp only [decls, List.flatMap_cons, List.flatMap_append, List.flatMap_assoc, mentions_append,
    hserializer, false_or, mentions_flatMap _ (List.filterMap _ _), mentions_dataDecls,
    mentions_members, mentions_flatMap _ (List.filter _ _), mentions_flatMap _ m.arrays, or_assoc]
  simp [and_assoc]

theorem runtime_fieldCode (type : FieldType) : Package.runtime ∉ (fieldCode m type).packages := by
  have hscalar (s : Scalar) : Package.runtime ∉ (scalarType s).packages := by
    cases s <;> simp [scalarType, Code.packages, Atom.package?]
  have helem (elem : ElemType) : Package.runtime ∉ (elemCode m elem).packages := by
    cases elem with
    | scalar s => exact hscalar s
    | object id => simp [elemCode]
  unfold fieldCode
  split
  next s => simpa using hscalar s
  next => exact helem _
  next => simpa using helem _

theorem needsRuntime_iff : needsRuntime m ↔
    (∃ o ∈ m.aggregates.filterMap m.object?, ∃ w, w ∈ o.wildcard) ∨
      (∃ o ∈ m.objects, o.isInterface = false) ∨ ∃ a, a ∈ m.arrays := by
  have harrays : (!m.arrays.isEmpty) = true ↔ ∃ a, a ∈ m.arrays := by
    simp [List.eq_nil_iff_forall_not_mem]
  have hdata : (∃ id ∈ m.aggregates, ∃ o ∈ m.object? id, o.wildcard.isSome = true) ↔
      ∃ o ∈ m.aggregates.filterMap m.object?, ∃ w, w ∈ o.wildcard := by
    simp only [List.mem_filterMap, Option.isSome_iff_exists, Option.mem_def]
    constructor
    · rintro ⟨id, hid, o, ho, hw⟩
      exact ⟨o, ⟨id, hid, ho⟩, hw⟩
    · rintro ⟨o, ⟨id, hid, ho⟩, hw⟩
      exact ⟨id, hid, o, ho, hw⟩
  simp only [needsRuntime, Bool.or_eq_true, List.any_eq_true, getD_map_false, harrays, hdata,
    Bool.not_eq_true']
  exact or_comm

theorem needsDecimal_iff : needsDecimal m ↔
    (∃ o ∈ m.aggregates.filterMap m.object?, (∃ f ∈ o.fields, holdsDecimal f.type) ∨
      ∃ w ∈ o.wildcard, isDecimal w.elem) ∨
    (∃ o ∈ m.objects, o.isInterface = false ∧ ∃ w ∈ o.wildcard, isDecimal w.elem) ∨
    ∃ a ∈ m.arrays, isDecimal a.elem := by
  simp only [needsDecimal, Bool.or_eq_true, List.any_eq_true, getD_map_false, Bool.and_eq_true,
    Bool.not_eq_true', or_assoc]
  exact or_congr_right or_comm

theorem runtime_decls : Mentions .runtime ((decls m).flatMap Decl.lines) ↔ needsRuntime m := by
  have hobject (o : Object) : Mentions .runtime ((objectDecls m o).flatMap Decl.lines) := by
    simp [objectDecls, codecDecl, Decl.lines]
  have harray (a : ArrayCodec) : Mentions .runtime (encodeArrayDecl m a).lines := by
    simp [encodeArrayDecl, Decl.lines]
  have hdict (elem : ElemType) : Package.runtime ∈ (dictCode m elem).packages := by
    simp [dictCode]
  rw [mentions_decls, needsRuntime_iff]
  simp [runtime_fieldCode, hobject, harray, hdict]

theorem decimal_decls : Mentions .decimal ((decls m).flatMap Decl.lines) ↔ needsDecimal m := by
  have hobject (o : Object) : Mentions .decimal ((objectDecls m o).flatMap Decl.lines) ↔
      ∃ w ∈ o.wildcard, isDecimal w.elem := by
    simp [objectDecls, decimal_codecDecl, decimal_encodeDecl, decimal_decodeDecl, decimal_readDecl,
      decimal_decodeFieldDecl, getD_map_false]
  rw [mentions_decls, needsDecimal_iff]
  simp only [decimal_fieldCode, decimal_dictCode, hobject, decimal_encodeArrayDecl,
    decimal_decodeArrayDecl, or_self]

theorem imports_eq (source : Text) : (file m source).imports =
    (if needsRuntime m then [Package.path .runtime] else []) ++
      if needsDecimal m then [Package.path .decimal] else [] := rfl

theorem mem_imports_iff (source : Text) : p.path ∈ (file m source).imports ↔
    Mentions p ((file m source).decls.flatMap Decl.lines) := by
  have hpaths : Package.path .runtime ≠ Package.path .decimal := by decide
  cases p with
  | runtime =>
    refine Iff.trans ?_ (runtime_decls m).symm
    rw [imports_eq]
    split_ifs <;> simp [*]
  | decimal =>
    refine Iff.trans ?_ (decimal_decls m).symm
    rw [imports_eq]
    split_ifs <;> simp [hpaths.symm, *]

end Files

end WireSchema.Source
