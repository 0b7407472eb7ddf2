import Mathlib.Data.List.DropRight
import Mathlib.Tactic.ByContra
import Mathlib.Tactic.SplitIfs
import WireSchema.Proofs.Lists
import WireSchema.Proofs.Model.Names
import WireSchema.Proofs.Model.WellFormed
import WireSchema.Proofs.Source.Packages

/-!
# Imports match use

The text of a line of code is cut into chains: names, with the names that are selected from them by
dots. A chain refers to a package if the package's name stands at its head. In the files of models
whose serializer has no dot in its name, the chains of a line refer to exactly the packages that the
line's pieces do: names that are declared have no dots, and what stands in front of a dot otherwise
is one of the variables of the generated methods.
-/

namespace WireSchema.Source

/-! ## Chains -/

/-- May the byte stand in a chain: in a name, or as the dot between names? -/
def inChain (b : UInt8) : Bool := Text.inName b || b == 0x2E

/-- The chains of a text. Some are empty. -/
def chains (t : Text) : List Text := t.splitOnP fun b => !inChain b

/-- The package that a chain refers to: something of the runtime package, or the decimal type. -/
def Package.ofChain? (r : Text) : Option Package :=
  if (Text.ofString "codecgen.").isPrefixOf r then some .runtime
  else if r == Text.ofString "decimal.Decimal" then some .decimal
  else none

def uses (t : Text) : List Package := (chains t).filterMap Package.ofChain?

theorem chains_append_cons {b : UInt8} (hb : inChain b = false) (t u : Text) :
    chains (t ++ b :: u) = chains t ++ chains u := by
  unfold chains
  induction t with
  | nil => simp [List.splitOnP_cons_eq_if_modifyHead, hb]
  | cons a t ih =>
    rw [List.cons_append, List.splitOnP_cons_eq_if_modifyHead,
      List.splitOnP_cons_eq_if_modifyHead, ih]
    split
    · rfl
    · cases h : t.splitOnP fun b => !inChain b with
      | nil => exact absurd h (List.splitOnP_ne_nil _ _)
      | cons r rest => rfl

theorem uses_append_cons {b : UInt8} (hb : inChain b = false) (t u : Text) :
    uses (t ++ b :: u) = uses t ++ uses u := by
  rw [uses, chains_append_cons hb, List.filterMap_append]
  rfl

theorem uses_nil : uses [] = [] := rfl

theorem uses_cons {b : UInt8} (hb : inChain b = false) (t : Text) : uses (b :: t) = uses t :=
  uses_append_cons hb [] t

def apartAtStart (t : Text) : Bool := t.head?.all fun b => !inChain b

/-- Does the text end outside a chain? -/
def apartAtEnd (t : Text) : Bool := t.getLast?.all fun b => !inChain b

theorem uses_append_of_start {u : Text} (h : apartAtStart u = true) (t : Text) :
    uses (t ++ u) = uses t ++ uses u := by
  cases u with
  | nil => simp [uses_nil]
  | cons b u =>
    have hb : inChain b = false := by simpa [apartAtStart] using h
    rw [uses_append_cons hb, uses_cons hb]

theorem uses_append_of_end {t : Text} (h : apartAtEnd t = true) (u : Text) :
    uses (t ++ u) = uses t ++ uses u := by
  rcases List.eq_nil_or_concat t with rfl | ⟨t, b, rfl⟩
  · rfl
  · have hb : inChain b = false := by simpa [apartAtEnd] using h
    rw [List.concat_eq_append, List.append_assoc, List.singleton_append, uses_append_cons hb,
      uses_append_cons hb, uses_nil, List.append_nil]

theorem mem_of_mem_chains {t r : Text} {b : UInt8} (hr : r ∈ chains t) (hb : b ∈ r) : b ∈ t := by
  induction t generalizing r with
  | nil =>
    obtain rfl := List.mem_singleton.mp hr
    cases hb
  | cons a t ih =>
    rw [chains, List.splitOnP_cons_eq_if_modifyHead] at hr
    split at hr
    · rcases List.mem_cons.mp hr with rfl | hr
      · cases hb
      · exact .tail _ (ih hr hb)
    · cases h : t.splitOnP fun b => !inChain b with
      | nil => exact absurd h (List.splitOnP_ne_nil _ _)
      | cons r' rest =>
        rw [h] at hr
        rcases List.mem_cons.mp hr with rfl | hr
        · rcases List.mem_cons.mp hb with rfl | hb
          · exact .head _
          · exact .tail _ (ih (by rw [chains, h]; exact .head _) hb)
        · exact .tail _ (ih (by rw [chains, h]; exact .tail _ hr) hb)

theorem ofChain?_dotless {r : Text} (h : r.Dotless) : Package.ofChain? r = none := by
  have hprefix : (Text.ofString "codecgen.").isPrefixOf r = false := by
    by_contra hp
    obtain ⟨u, rfl⟩ : Text.ofString "codecgen." <+: r := by simpa using hp
    exact h (List.mem_append_left _ (by decide))
  have hne : (r == Text.ofString "decimal.Decimal") = false := by
    by_contra hp
    obtain rfl : r = Text.ofString "decimal.Decimal" := by simpa using hp
    exact h (by decide)
  simp [Package.ofChain?, hprefix, hne]

theorem uses_dotless {t : Text} (h : t.Dotless) : uses t = [] := by
  refine List.filterMap_eq_nil_iff.mpr fun r hr => ofChain?_dotless fun hdot => ?_
  exact h (mem_of_mem_chains hr hdot)

/-! A chain that goes on after a variable of one letter and a dot refers to nothing. -/

/-- Is the first or the second byte a dot? -/
def dotEarly (r : Text) : Bool := r.head? == some 0x2E || r[1]? == some 0x2E

/-- Does the text refer to nothing and end in a selection from a short variable or an expression? -/
def selects (t : Text) : Bool :=
  (uses (t.rdropWhile inChain)).isEmpty && dotEarly (t.rtakeWhile inChain)

theorem ofChain?_of_dotEarly {r : Text} (h : dotEarly r = true) (t : Text) :
    Package.ofChain? (r ++ t) = none := by
  rcases r with _ | ⟨a, _ | ⟨b, r⟩⟩
  · cases h
  · obtain rfl : a = 0x2E := by simpa [dotEarly] using h
    rfl
  · have hab : a = 0x2E ∨ b = 0x2E := by simpa [dotEarly] using h
    rcases hab with rfl | rfl
    · rfl
    · have hprefix : (Text.ofString "codecgen.").isPrefixOf (a :: 0x2E :: r ++ t) = false := by
        change (0x63 == a && false) = false
        simp
      have hne : (a :: 0x2E :: r ++ t == Text.ofString "decimal.Decimal") = false := by
        change (a == 0x64 && false) = false
        simp
      rw [Package.ofChain?, hprefix, hne]
      rfl

theorem uses_of_all {r : Text} (h : ∀ b ∈ r, inChain b = true) :
    uses r = (Package.ofChain? r).toList := by
  have hchains : chains r = [r] := List.splitOnP_eq_singleton (by simpa using h)
  rw [uses, hchains]
  cases hr : Package.ofChain? r <;> simp [hr]

theorem uses_select {s : Text} (hs : selects s = true) (t : Text) :
    uses (s ++ t) = uses (t.dropWhile inChain) := by
  rw [selects, Bool.and_eq_true, List.isEmpty_iff] at hs
  have hend : apartAtEnd (s.rdropWhile inChain) = true := by
    rw [apartAtEnd, Option.all_eq_true]
    intro b hb
    obtain ⟨hne, rfl⟩ := List.mem_getLast?_eq_getLast hb
    simpa using List.rdropWhile_last_not inChain s hne
  have hstart : apartAtStart (t.dropWhile inChain) = true := by
    rw [apartAtStart, Option.all_eq_true]
    intro b hb
    have hnot := List.head?_dropWhile_not inChain t
    rw [hb] at hnot
    simpa using hnot
  have hchain : ∀ b ∈ s.rtakeWhile inChain ++ t.takeWhile inChain, inChain b = true := by
    intro b hb
    rcases List.mem_append.mp hb with hb | hb
    · exact List.mem_rtakeWhile_imp hb
    · exact List.mem_takeWhile_imp hb
  calc uses (s ++ t)
      = uses (s.rdropWhile inChain ++ ((s.rtakeWhile inChain ++ t.takeWhile inChain) ++
          t.dropWhile inChain)) := by
        rw [List.append_assoc, List.takeWhile_append_dropWhile, ← List.append_assoc,
          List.rdropWhile_append_rtakeWhile]
    _ = uses (t.dropWhile inChain) := by
        rw [uses_append_of_end hend, uses_append_of_start hstart, uses_of_all hchain,
          ofChain?_of_dotEarly hs.2, hs.1]
        rfl

/-! ## Code without the contents of its string literals -/

/-- The piece as it is written, with nothing in a string literal. -/
def Atom.bare : Atom → Text
  | .literal _ => "\"\""
  | a => a.text

/-- The code as it is written, with nothing in its string literals. -/
def Code.bare (c : Code) : Text := c.flatMap Atom.bare

namespace Code

@[simp]
theorem bare_nil : bare [] = [] := rfl

@[simp]
theorem bare_cons_raw (t : Text) (c : Code) : bare (.raw t :: c) = t ++ bare c := rfl

@[simp]
theorem bare_append (c c' : Code) : bare (c ++ c') = bare c ++ bare c' := List.flatMap_append

@[simp]
theorem bare_word (t : Text) : bare (word t) = t := List.append_nil t

@[simp]
theorem bare_method (t : Text) : bare (method t) = t := List.append_nil t

@[simp]
theorem bare_literal (t : Text) : bare (literal t) = Text.ofString "\"\"" := rfl

end Code

/-- The chains of the code refer to the packages that its pieces refer to. -/
def Sound (c : Code) : Prop := uses c.bare = c.packages

/-! How constants and names stand side by side in code. -/

section Phrases

variable {s s' : String} {t u : Text}

@[simp]
theorem uses_const (h : (uses (Text.ofString s)).isEmpty = true) : uses (Text.ofString s) = [] :=
  List.isEmpty_iff.mp h

@[simp]
theorem uses_const_append (h : (uses (Text.ofString s)).isEmpty = true)
    (hend : apartAtEnd (Text.ofString s) = true) : uses (Text.ofString s ++ t) = uses t := by
  rw [uses_append_of_end hend, uses_const h, List.nil_append]

@[simp]
theorem uses_append_const (hstart : apartAtStart (Text.ofString s) = true) :
    uses (t ++ Text.ofString s) = uses t ++ uses (Text.ofString s) :=
  uses_append_of_start hstart t

@[simp]
theorem uses_append_const_append (hstart : apartAtStart (Text.ofString s) = true)
    (hne : (Text.ofString s).isEmpty = false) :
    uses (t ++ (Text.ofString s ++ u)) = uses t ++ uses (Text.ofString s ++ u) := by
  refine uses_append_of_start ?_ t
  cases h : Text.ofString s with
  | nil => simp [h] at hne
  | cons b r => simpa [h, apartAtStart] using hstart

theorem uses_select_dotless (hs : selects (Text.ofString s) = true) (ht : t.Dotless) :
    uses (Text.ofString s ++ t) = [] := by
  rw [uses_select hs]
  exact uses_dotless fun hdot => ht (List.dropWhile_subset _ hdot)

theorem uses_select_dotless_append (hs : selects (Text.ofString s) = true) (ht : t.Dotless)
    (hstart : apartAtStart (Text.ofString s') = true) (hne : (Text.ofString s').isEmpty = false) :
    uses (Text.ofString s ++ (t ++ (Text.ofString s' ++ u))) = uses (Text.ofString s' ++ u) := by
  rw [← List.append_assoc, uses_append_const_append hstart hne, uses_select_dotless hs ht,
    List.nil_append]

theorem uses_select_dotless_const (hs : selects (Text.ofString s) = true) (ht : t.Dotless)
    (hstart : apartAtStart (Text.ofString s') = true) :
    uses (Text.ofString s ++ (t ++ Text.ofString s')) = uses (Text.ofString s') := by
  rw [← List.append_assoc, uses_append_const hstart, uses_select_dotless hs ht, List.nil_append]

end Phrases

theorem sound_const {s : String} (h : (uses (Text.ofString s)).isEmpty = true) : Sound s := by
  simpa [Sound] using h

def Sounds (l : List Code) : Prop := ∀ c ∈ l, Sound c

@[simp]
theorem sounds_nil : Sounds [] := List.forall_mem_nil _

@[simp]
theorem sounds_cons {c : Code} {l : List Code} : Sounds (c :: l) ↔ Sound c ∧ Sounds l :=
  List.forall_mem_cons

@[simp]
theorem sounds_append {l l' : List Code} : Sounds (l ++ l') ↔ Sounds l ∧ Sounds l' :=
  List.forall_mem_append

theorem sounds_stmts_map {α : Type} {f : α → Stmt} {l : List α} :
    Sounds (stmtsLines (l.map f)) ↔ ∀ a ∈ l, Sounds (f a).lines := by
  induction l with
  | nil => simp
  | cons a l ih => simp [ih]

theorem sounds_clauses_map {α : Type} {f : α → Clause} {l : List α} :
    Sounds (clausesLines (l.map f)) ↔ ∀ a ∈ l, Sounds (f a).lines := by
  induction l with
  | nil => simp
  | cons a l ih => simp [ih]

/-! ## Types -/

section Types

variable (m : Model)

theorem sound_runtime {name : String} (h : (Text.ofString name).all inChain = true) :
    Sound (Code.runtime name) := by
  have hbare : (Code.runtime name).bare = Text.ofString "codecgen." ++ Text.ofString name :=
    List.append_nil _
  have hhead : (Text.ofString "codecgen.").all inChain = true := by decide
  have hall := List.forall_mem_append.mpr ⟨List.all_eq_true.mp hhead, List.all_eq_true.mp h⟩
  have hprefix : Package.ofChain? (Text.ofString "codecgen." ++ Text.ofString name) =
      some .runtime :=
    if_pos (List.isPrefixOf_iff_prefix.mpr (List.prefix_append _ _))
  rw [Sound, hbare, uses_of_all hall, hprefix]
  rfl

@[simp]
theorem uses_runtime {name : String} (h : (Text.ofString name).all inChain = true) :
    uses (Code.runtime name).bare = [.runtime] := sound_runtime h

@[simp]
theorem uses_typeName (id : Nat) : uses (m.typeName id) = [] := uses_dotless (m.dotless_typeName id)

theorem sound_scalarType (s : Scalar) : Sound (scalarType s) := by
  cases s <;> (unfold Sound; decide)

theorem sound_elemCode (elem : ElemType) : Sound (elemCode m elem) := by
  cases elem with
  | scalar s => exact sound_scalarType s
  | object id => simp (disch := decide) [Sound, elemCode]

theorem sound_fieldCode (type : FieldType) : Sound (fieldCode m type) := by
  have hscalar (s : Scalar) : uses (scalarType s).bare = (scalarType s).packages :=
    sound_scalarType s
  have helem (elem : ElemType) : uses (elemCode m elem).bare = (elemCode m elem).packages :=
    sound_elemCode m elem
  unfold fieldCode
  split <;> simp (disch := decide) [Sound, hscalar, helem]

theorem sound_dictCode (elem : ElemType) : Sound (dictCode m elem) := by
  have helem : uses (elemCode m elem).bare = (elemCode m elem).packages := sound_elemCode m elem
  simp (disch := decide) [Sound, dictCode, helem]

end Types

/-! ## Statements -/

section Statements

variable (m : Model) {expr : Code}

attribute [simp] Names.dotless_exported Model.dotless_encodeName Model.dotless_decodeName
  Model.dotless_decodeFieldName uses_select_dotless uses_select_dotless_append
  uses_select_dotless_const

theorem dotless_encodeArrayName {codec : Text} (h : codec.Dotless) :
    (Model.encodeArrayName codec).Dotless := .append (by decide) h

theorem dotless_decodeArrayName {codec : Text} (h : codec.Dotless) :
    (Model.decodeArrayName codec).Dotless := .append (by decide) h

theorem sound_member (name : Text) : Sound (Code.word ("v." ++ Model.memberName name)) := by
  simp (disch := first | decide | simp) [Sound, Model.memberName]

theorem uses_select_member {s : String} (hs : selects (Text.ofString s) = true) (name u : Text) :
    uses (Text.ofString s ++ (Model.memberName name ++ u)) = uses (u.dropWhile inChain) := by
  have hall : ∀ b ∈ Model.memberName name, inChain b = true := by
    intro b hb
    simp [inChain, Names.all_inName_exported name b hb]
  rw [uses_select hs, List.dropWhile_append_of_pos hall]

theorem sounds_checked {call results : Code} (hcall : Sound call) (hresults : Sound results) :
    Sounds (checked call results).lines := by
  rw [Sound] at hcall hresults
  simp (disch := decide) [checked, Sound, hcall, hresults]

theorem sounds_returnOnError {results : Code} (h : Sound results) :
    Sounds (returnOnError results).lines := by
  rw [Sound] at h
  simp (disch := decide) [returnOnError, Sound, h]

theorem sound_err : Sound "err" := sound_const (by decide)

theorem sounds_nextToken {results : Code} (h : Sound results) :
    Sounds (stmtsLines (nextToken results)) := by
  have hnext : Sound "kind, err := r.Next()" := sound_const (by decide)
  simp [nextToken, hnext, sounds_returnOnError h]

theorem sounds_writeElem (elem : ElemType) (h : Sound expr) :
    Sounds (writeElem m elem expr).lines := by
  rw [Sound] at h
  cases elem with
  | scalar s =>
    refine sounds_checked ?_ sound_err
    have hmethod : (writeMethod s).bare.Dotless := by cases s <;> decide
    simp (disch := first | decide | simp [*]) [Sound, h]
  | object id =>
    refine sounds_checked ?_ sound_err
    simp (disch := first | decide | simp) [Sound, h]

/-- The identifier of a field's codec has no dot. -/
def Plain (type : FieldType) : Prop := ∀ elem codec, type = .array elem codec → codec.Dotless

theorem sounds_writeField {type : FieldType} (h : Sound expr) (hplain : Plain type) :
    Sounds (writeField m type expr).lines := by
  have hstar : Sound ("*" ++ expr) := by
    rw [Sound] at h
    simp (disch := decide) [Sound, h]
  unfold writeField
  split
  · exact sounds_writeElem m _ hstar
  · exact sounds_writeElem m _ h
  · next elem codec =>
    have hname := dotless_encodeArrayName (hplain elem codec rfl)
    refine sounds_checked ?_ sound_err
    rw [Sound] at h
    simp (disch := first | decide | simp [*]) [Sound, h]

theorem sound_scalarTokens (s : Scalar) : Sound (scalarTokens s) := by
  cases s <;> (unfold Sound; decide)

theorem sound_readFunction (s : Scalar) : Sound (readFunction s) := by
  cases s <;> (unfold Sound; decide)

theorem sounds_readElem (elem : ElemType) (label : Text) {failed : Code → Code}
    {store : Code → List Stmt} (hfailed : ∀ c, Sound c → Sound (failed c))
    (hstore : ∀ c, Sound c → Sounds (stmtsLines (store c))) :
    Sounds (readElem m elem label failed store).lines := by
  have hx := hstore "x" (sound_const (by decide))
  unfold readElem
  split
  · have hbool := hstore ("kind == " ++ Code.runtime "TokenTrue") (by unfold Sound; decide)
    simpa [sound_scalarTokens] using hbool
  · have htext := hstore "r.Text()" (sound_const (by decide))
    simpa [sound_scalarTokens] using htext
  · next s _ _ =>
    have hread : Sound ("x, err := " ++ readFunction s ++ "(r)") := by
      have hfunction : uses (readFunction s).bare = (readFunction s).packages :=
        sound_readFunction s
      simp (disch := decide) [Sound, hfunction]
    have hwrap : Sound (Code.runtime "WrapField" ++ "(" ++ Code.literal label ++ ", err)") := by
      simp (disch := decide) [Sound]
    have herror := sounds_returnOnError (hfailed _ hwrap)
    simp only [Clause.lines, List.cons_append, List.nil_append, stmtsLines, Stmt.lines, sounds_cons,
      sounds_append]
    exact ⟨sound_scalarTokens s, hread, herror, hx⟩
  · next id =>
    have hnew : Sound ("x := new(" ++ Code.word (m.typeName id) ++ ")") := by
      simp (disch := decide) [Sound]
    have hcall : Sound ("s." ++ Code.method (m.decodeName id) ++ "(r, x)") := by
      simp (disch := first | decide | simp) [Sound]
    have hdecode := sounds_checked hcall (hfailed "err" sound_err)
    simp only [Clause.lines, List.cons_append, List.nil_append, stmtsLines, Stmt.lines, sounds_cons,
      sounds_append]
    exact ⟨sound_runtime (by decide), hnew, hdecode, hx⟩

theorem sounds_storeField (type : FieldType) {target : Code} (htarget : Sound target)
    (h : Sound expr) : Sounds (stmtsLines (storeField type target expr)) := by
  rw [Sound] at htarget h
  unfold storeField
  split <;> simp (disch := decide) [Sound, htarget, h]

theorem sounds_refuseMember (name : Text) : Sounds (refuseMember name).lines := by
  simp (disch := decide) [refuseMember, Sound]

end Statements

/-! ## Methods -/

section Methods

variable (m : Model)

theorem sounds_encodeMember {f : Field} (h : Plain f.type) : Sounds (encodeMember m f).lines := by
  have hhead : Sound ("if " ++ Code.word ("v." ++ Model.memberName f.name) ++ " != nil") := by
    simp (disch := first | decide | simp) [Sound, Model.memberName]
  have hkey : Sound ("w.WriteFieldName(" ++ Code.literal f.key ++ ")") := by
    simp (disch := decide) [Sound]
  have hwrite := sounds_writeField m (sound_member f.name) h
  exact sounds_cons.mpr ⟨hhead, sounds_append.mpr ⟨sounds_checked hkey sound_err,
    sounds_append.mpr ⟨hwrite, sounds_nil⟩⟩⟩

theorem sounds_encodeWildcard (w : Wildcard) : Sounds (encodeWildcard m w).lines := by
  have hhead : Sound (Code.word
      ("for key, value := range v." ++ Model.memberName w.name ++ ".All()")) := by
    rw [Sound, Code.packages_word, Code.bare_word, List.append_assoc,
      uses_select_member (by decide)]
    decide
  have hkey : Sound "w.WriteFieldName(key)" := sound_const (by decide)
  have hvalue : Sound "value" := sound_const (by decide)
  exact sounds_cons.mpr ⟨hhead, sounds_append.mpr ⟨sounds_checked hkey sound_err,
    sounds_append.mpr ⟨sounds_writeElem m w.elem hvalue, sounds_nil⟩⟩⟩

theorem sounds_readField {f : Field} (h : Plain f.type) : Sounds (readField m f).lines := by
  have hmember := sound_member f.name
  unfold readField
  cases htype : f.type with
  | single elem =>
    exact sounds_readElem m elem _ (fun _ hc => hc) fun _ hc => sounds_storeField _ hmember hc
  | array elem codec =>
    have hname := dotless_decodeArrayName (h elem codec htype)
    have hread : Sound ("x, err := s." ++ Code.method (Model.decodeArrayName codec) ++ "(r, "
        ++ Code.word ("v." ++ Model.memberName f.name) ++ "[:0])") := by
      simp (disch := first | decide | simp [*]) [Sound, Model.memberName]
    have hx : Sound "x" := sound_const (by decide)
    have hstore := sounds_storeField (.array elem codec) hmember hx
    simp only [Clause.lines, List.cons_append, List.nil_append, stmtsLines, Stmt.lines, sounds_cons,
      sounds_append]
    exact ⟨sound_runtime (by decide), hread, sounds_returnOnError sound_err, hstore⟩

theorem sounds_dispatchField {f : Field} (h : Plain f.type) : Sounds (dispatchField m f).lines := by
  have hkey : Sound (Code.literal f.key) := by
    simp (disch := decide) [Sound]
  have hnull : Sound (Code.word ("v." ++ Model.memberName f.name) ++ " = nil") := by
    simp (disch := first | decide | simp) [Sound, Model.memberName]
  simp (disch := decide) only [dispatchField, Clause.lines, stmtsLines_append, stmtsLines,
    Stmt.lines, clausesLines, sounds_cons, sounds_append, sounds_nil, sound_const, sound_runtime,
    true_and, and_true]
  exact ⟨hkey, sounds_nextToken sound_err, hnull, sounds_readField m h, sounds_refuseMember _⟩

theorem sound_set (name : Text) {expr : Code} (h : Sound expr) :
    Sound (Code.word ("v." ++ Model.memberName name) ++ ".Set(name, " ++ expr ++ ")") := by
  have hdrop (u : Text) : (Text.ofString ".Set(name, " ++ u).dropWhile inChain =
      Text.ofString "(name, " ++ u := rfl
  rw [Sound] at h
  simp only [Sound, Code.bare_append, Code.bare_word, Code.bare_cons_raw, Code.bare_nil,
    List.append_nil, List.append_assoc]
  rw [uses_select_member (by decide), hdrop]
  simp (disch := decide) [h]

theorem sounds_dispatchOther (w? : Option Wildcard) : Sounds (dispatchOther m w?).lines := by
  cases w? with
  | none =>
    have hskip : Sound "return r.Skip()" := sound_const (by decide)
    simpa [dispatchOther] using hskip
  | some w =>
    have hnil : Sound ("if " ++ Code.word ("v." ++ Model.memberName w.name) ++ " == nil") := by
      simp (disch := first | decide | simp) [Sound, Model.memberName]
    have hmake : Sound (Code.word ("v." ++ Model.memberName w.name) ++ " = "
        ++ Code.runtime "NewDict" ++ "[" ++ elemCode m w.elem ++ "]()") := by
      have helem : uses (elemCode m w.elem).bare = (elemCode m w.elem).packages :=
        sound_elemCode m w.elem
      simp (disch := first | decide | simp) [Sound, Model.memberName, helem]
    simp (disch := decide) only [dispatchOther, Clause.lines, stmtsLines_append, stmtsLines,
      Stmt.lines, clausesLines, sounds_cons, sounds_append, sounds_nil, sound_const, sound_runtime,
      true_and, and_true]
    refine ⟨sounds_nextToken sound_err, sounds_readElem m w.elem _ (fun _ hc => hc) ?_,
      sounds_refuseMember _⟩
    intro expr hexpr
    simp only [stmtsLines, Stmt.lines, sounds_cons, sounds_append, sounds_nil, and_true]
    exact ⟨⟨hnil, hmake⟩, sound_set w.name hexpr⟩

end Methods

/-! ## Declarations -/

section Declarations

variable {m : Model} {o : Object} (hserializer : m.serializerName.Dotless)

include hserializer in
theorem sounds_method {doc : List Text} {name : Text} {signature : Code} {body : List Stmt}
    (hname : name.Dotless) (hstart : apartAtStart signature.bare = true)
    (hsignature : Sound signature) (hbody : Sounds (stmtsLines body)) :
    Sounds (Decl.method doc m.serializerName name signature body).lines := by
  have hhead : Sound ("func (s " ++ Code.word m.serializerName ++ ") " ++ Code.word name
      ++ signature) := by
    rw [Sound] at hsignature
    simp (disch := decide) [Sound, uses_dotless hserializer, uses_dotless hname,
      uses_append_of_start hstart, hsignature]
  exact sounds_cons.mpr ⟨hhead, hbody⟩

include hserializer in
theorem sounds_codecDecl : Sounds (codecDecl m o).lines := by
  have hhead : Sound ("var " ++ Code.word (m.codecVar o.id) ++ " " ++ (Code.runtime "Codec" ++ "["
      ++ Code.word (m.typeName o.id) ++ "] = " ++ Code.runtime "CodecFuncs" ++ "["
      ++ Code.word (m.typeName o.id) ++ "]") ++ "\x7b") := by
    simp (disch := decide) [Sound, uses_dotless (m.dotless_codecVar o.id)]
  have hencode : Sound ("EncodeFunc: " ++ Code.word (m.serializerName ++ "\x7b\x7d.")
      ++ Code.method (m.encodeName o.id) ++ ",") := by
    simp (disch := first | decide | simp) [Sound, uses_dotless hserializer]
  have hdecode : Sound ("DecodeFunc: " ++ Code.word (m.serializerName ++ "\x7b\x7d.")
      ++ Code.method (m.decodeName o.id) ++ ",") := by
    simp (disch := first | decide | simp) [Sound, uses_dotless hserializer]
  exact sounds_cons.mpr ⟨hhead, sounds_cons.mpr ⟨hencode, sounds_cons.mpr ⟨hdecode, sounds_nil⟩⟩⟩

include hserializer in
theorem sounds_encodeDecl (hfields : ∀ f ∈ o.fields, Plain f.type) :
    Sounds (encodeDecl m o).lines := by
  have hsignature : Sound ("(w " ++ Code.runtime "Writer" ++ ", v *" ++ Code.word (m.typeName o.id)
      ++ ") error") := by
    simp (disch := decide) [Sound]
  have hstart : Sound "w.WriteStartObject()" := sound_const (by decide)
  refine sounds_method hserializer (m.dotless_encodeName o.id) rfl hsignature ?_
  simp (disch := decide) only [List.cons_append, List.nil_append, stmtsLines_append, stmtsLines,
    Stmt.lines, sounds_cons, sounds_append, sounds_nil, sounds_stmts_map, sound_const, true_and,
    and_true]
  refine ⟨sounds_checked hstart sound_err, fun f hf => sounds_encodeMember m (hfields f hf), ?_⟩
  cases o.wildcard with
  | none => exact sounds_nil
  | some w => exact sounds_append.mpr ⟨sounds_encodeWildcard m w, sounds_nil⟩

include hserializer in
theorem sounds_decodeDecl : Sounds (decodeDecl m o).lines := by
  have hsignature : Sound ("(r " ++ Code.runtime "Reader" ++ ", v *" ++ Code.word (m.typeName o.id)
      ++ ") error") := by
    simp (disch := decide) [Sound]
  have hcall : Sound ("s." ++ Code.method (m.decodeFieldName o.id) ++ "(r, v)") := by
    simp (disch := first | decide | simp) [Sound]
  have hskip : Sound "r.Skip()" := sound_const (by decide)
  refine sounds_method hserializer (m.dotless_decodeName o.id) rfl hsignature ?_
  simp (disch := decide) only [stmtsLines_append, stmtsLines, Stmt.lines, clausesLines,
    Clause.lines, sounds_cons, sounds_append, sounds_nil, sound_const, sound_runtime, true_and,
    and_true]
  exact ⟨sounds_nextToken sound_err, sounds_checked hcall sound_err,
    sounds_checked hskip sound_err⟩

include hserializer in
theorem sounds_decodeFieldDecl (hfields : ∀ f ∈ o.fields, Plain f.type) :
    Sounds (decodeFieldDecl m o).lines := by
  have hsignature : Sound ("(r " ++ Code.runtime "Reader" ++ ", v *" ++ Code.word (m.typeName o.id)
      ++ ") error") := by
    simp (disch := decide) [Sound]
  have hhead : Sound (if o.wildcard.isSome then "switch name := r.Text(); name"
      else "switch r.Text()") := by
    split <;> exact sound_const (by decide)
  refine sounds_method hserializer (m.dotless_decodeFieldName o.id) rfl hsignature ?_
  split
  · simp (disch := decide) only [stmtsLines, Stmt.lines, sounds_cons, sounds_append, sounds_nil,
      sound_const, and_true]
  · simp (disch := decide) only [stmtsLines, Stmt.lines, clausesLines_append, clausesLines,
      sounds_clauses_map, sounds_cons, sounds_append, sounds_nil, sound_const, and_true]
    exact ⟨hhead, fun f hf => sounds_dispatchField m (hfields f hf), sounds_dispatchOther m _⟩

include hserializer in
theorem sounds_readDecl : Sounds (readDecl m o).lines := by
  have hsignature : Sound ("(r " ++ Code.runtime "Reader" ++ ") (*" ++ Code.word (m.typeName o.id)
      ++ ", error)") := by
    simp (disch := decide) [Sound]
  have hnew : Sound ("v := new(" ++ Code.word (m.typeName o.id) ++ ")") := by
    simp (disch := decide) [Sound]
  have hcall : Sound ("s." ++ Code.method (m.decodeName o.id) ++ "(r, v)") := by
    simp (disch := first | decide | simp) [Sound]
  have hresults : Sound "nil, err" := sound_const (by decide)
  have hrefuse : Sound ("return nil, " ++ Code.runtime "UnexpectedToken" ++ "("
      ++ Code.literal (m.typeName o.id) ++ ", kind)") := by
    simp (disch := decide) [Sound]
  refine sounds_method hserializer (m.dotless_readName o.id) rfl hsignature ?_
  simp (disch := decide) only [stmtsLines, Stmt.lines, clausesLines, Clause.lines, sounds_cons,
    sounds_append, sounds_nil, sound_const, sound_runtime, true_and, and_true]
  exact ⟨⟨hnew, sounds_checked hcall hresults⟩, hrefuse⟩

include hserializer in
theorem sounds_encodeArrayDecl {a : ArrayCodec} (h : a.id.Dotless) :
    Sounds (encodeArrayDecl m a).lines := by
  have helem : uses (elemCode m a.elem).bare = (elemCode m a.elem).packages :=
    sound_elemCode m a.elem
  have hsignature : Sound ("(w " ++ Code.runtime "Writer" ++ ", items []" ++ elemCode m a.elem
      ++ ") error") := by
    simp (disch := decide) [Sound, helem]
  have hstart : Sound "w.WriteStartArray()" := sound_const (by decide)
  have hitem : Sound "item" := sound_const (by decide)
  refine sounds_method hserializer (dotless_encodeArrayName h) rfl hsignature ?_
  simp (disch := decide) only [stmtsLines, Stmt.lines, sounds_cons, sounds_append, sounds_nil,
    sound_const, true_and, and_true]
  exact ⟨sounds_checked hstart sound_err, sounds_writeElem m a.elem hitem⟩

theorem sound_nullElement (a : ArrayCodec) : Sound (nullElement a) := by
  unfold nullElement
  split <;> simp (disch := decide) [Sound]

include hserializer in
theorem sounds_decodeArrayDecl {a : ArrayCodec} (h : a.id.Dotless) :
    Sounds (decodeArrayDecl m a).lines := by
  have helem : uses (elemCode m a.elem).bare = (elemCode m a.elem).packages :=
    sound_elemCode m a.elem
  have hsignature : Sound ("(r " ++ Code.runtime "Reader" ++ ", dst []" ++ elemCode m a.elem
      ++ ") ([]" ++ elemCode m a.elem ++ ", error)") := by
    simp (disch := decide) [Sound, helem]
  have hmake : Sound ("dst = []" ++ elemCode m a.elem ++ "\x7b\x7d") := by
    simp (disch := decide) [Sound, helem]
  have hresults : Sound "nil, err" := sound_const (by decide)
  have hskip : Sound "r.Skip()" := sound_const (by decide)
  have hfailed (c : Code) (hc : Sound c) : Sound ("nil, " ++ c) := by
    rw [Sound] at hc
    simp (disch := decide) [Sound, hc]
  have hstore (c : Code) (hc : Sound c) :
      Sounds (stmtsLines [.line ("dst = append(dst, " ++ c ++ ")")]) := by
    rw [Sound] at hc
    simp (disch := decide) [Sound, hc]
  have hread := sounds_readElem m a.elem (Model.memberName a.field) hfailed hstore
  refine sounds_method hserializer (dotless_decodeArrayName h) rfl hsignature ?_
  simp (disch := decide) only [stmtsLines_append, stmtsLines, Stmt.lines, clausesLines,
    Clause.lines, sounds_cons, sounds_append, sounds_nil, sound_const, sound_runtime, true_and,
    and_true]
  exact ⟨hmake, sounds_nextToken hresults, sound_nullElement a, hread,
    sounds_checked hskip hresults⟩

theorem sounds_getterLines {receiver name field : Text} {result : Code}
    (hreceiver : receiver.Dotless) (hname : name.Dotless) (hfield : field.Dotless)
    (hresult : Sound result) : Sounds (Decl.getterLines receiver name result field) := by
  rw [Sound] at hresult
  have hhead : Sound (Decl.getterHead receiver name result) := by
    simp (disch := decide) [Sound, Decl.getterHead, uses_dotless hreceiver, uses_dotless hname,
      hresult]
  have hbody : Sound (Decl.getterBody field) := by
    simp (disch := first | decide | simp [*]) [Sound, Decl.getterBody]
  have hline : Sound (Decl.getterHead receiver name result ++ " \x7b " ++ Decl.getterBody field
      ++ " \x7d") := by
    rw [Sound] at hhead hbody
    simp (disch := first | decide | simp [*]) [Sound, hhead, hbody]
  unfold Decl.getterLines
  simp only
  split
  · simpa using hline
  · simpa using ⟨hhead, hbody⟩

theorem apartAtStart_padding {width : Nat} {name : Text} (h : Text.charCount name ≤ width)
    (t : Text) : apartAtStart (Decl.padding width name ++ t) = true := by
  have hpadding : Decl.padding width name =
      0x20 :: List.replicate (width - Text.charCount name) 0x20 := by
    rw [Decl.padding, Nat.succ_sub h]
    rfl
  rw [hpadding]
  rfl

theorem sound_fieldLine {width : Nat} {f : Member} (hname : f.name.Dotless) (htype : Sound f.type)
    (hwidth : Text.charCount f.name ≤ width) : Sound (Decl.fieldLine width f) := by
  have hspaces : (Decl.padding width f.name).Dotless := by
    intro hdot
    exact absurd (List.eq_of_mem_replicate hdot) (by decide)
  have hend : apartAtEnd (Decl.padding width f.name) = true := by
    rw [apartAtEnd, Decl.padding, List.getLast?_replicate]
    split <;> rfl
  rw [Sound] at htype
  simp only [Sound, Decl.fieldLine, Code.bare_append, Code.bare_word, List.append_assoc]
  rw [uses_append_of_start (apartAtStart_padding hwidth _), uses_append_of_end hend,
    uses_dotless hname, uses_dotless hspaces, htype]
  simp

theorem sound_members : ∀ x ∈ members m o, Sound x.2.1 := by
  intro x hx
  rcases List.mem_append.mp hx with hx | hx
  · obtain ⟨f, -, rfl⟩ := List.mem_map.mp hx
    exact sound_fieldCode m f.type
  · split at hx
    · obtain rfl := List.mem_singleton.mp hx
      exact sound_dictCode m _
    · cases hx

section Data

variable {doc : List Text} {name : Text} {l : List Member}

theorem sounds_interface (hname : name.Dotless) (hl : ∀ f ∈ l, f.name.Dotless ∧ Sound f.type) :
    Sounds (Decl.interface doc name l).lines := by
  have hhead : Sound ("type " ++ Code.word name ++ " interface") := by
    simp (disch := decide) [Sound, uses_dotless hname]
  refine sounds_cons.mpr ⟨hhead, List.forall_mem_map.mpr ?_⟩
  intro f hf
  obtain ⟨hf, htype⟩ := hl f hf
  rw [Sound] at htype
  simp (disch := decide) [Sound, uses_dotless hf, htype]

theorem sounds_struct (hname : name.Dotless) (hl : ∀ f ∈ l, f.name.Dotless ∧ Sound f.type) :
    Sounds (Decl.struct doc name l).lines := by
  have hhead : Sound ("type " ++ Code.word name ++ " struct") := by
    simp (disch := decide) [Sound, uses_dotless hname]
  refine sounds_cons.mpr ⟨hhead, List.forall_mem_map.mpr ?_⟩
  intro f hf
  have hwidth := (le_foldl_max (fun f : Member => Text.charCount f.name) l 0).2 f hf
  exact sound_fieldLine (hl f hf).1 (hl f hf).2 hwidth

end Data

theorem sounds_dataDecls : ∀ d ∈ dataDecls m o, Sounds d.lines := by
  have hgetter (name : Text) : (Model.getterName name).Dotless :=
    .append (by decide) (Names.dotless_exported name)
  intro d hd
  unfold dataDecls at hd
  simp only at hd
  split at hd
  · obtain rfl := List.mem_singleton.mp hd
    refine sounds_interface (m.dotless_typeName o.id) (List.forall_mem_map.mpr fun x hx => ?_)
    exact ⟨hgetter x.1, sound_members x hx⟩
  · rcases List.mem_cons.mp hd with rfl | hd
    · refine sounds_struct (m.dotless_typeName o.id) (List.forall_mem_map.mpr fun x hx => ?_)
      exact ⟨Names.dotless_exported x.1, sound_members x hx⟩
    · obtain ⟨x, hx, rfl⟩ := List.mem_map.mp hd
      exact sounds_getterLines (m.dotless_typeName o.id) (hgetter x.1) (Names.dotless_exported x.1)
        (sound_members x (List.mem_filter.mp hx).1)

include hserializer in
theorem sounds_decls
    (hfields : ∀ o ∈ m.objects, o.isInterface = false → ∀ f ∈ o.fields, Plain f.type)
    (harrays : ∀ a ∈ m.arrays, a.id.Dotless) : ∀ d ∈ decls m, Sounds d.lines := by
  intro d hd
  rcases List.mem_cons.mp hd with rfl | hd
  · have hmarker : Sound ("type " ++ Code.word m.serializerName ++ " struct\x7b\x7d") := by
      simp (disch := decide) [Sound, uses_dotless hserializer]
    exact sounds_cons.mpr ⟨hmarker, sounds_nil⟩
  rcases List.mem_append.mp hd with hd | hd
  · rcases List.mem_append.mp hd with hd | hd
    · obtain ⟨o, -, hd⟩ := List.mem_flatMap.mp hd
      exact sounds_dataDecls d hd
    · obtain ⟨o, ho, hd⟩ := List.mem_flatMap.mp hd
      obtain ⟨ho, hconcrete⟩ := List.mem_filter.mp ho
      have hplain := hfields o ho (by simpa using hconcrete)
      simp only [objectDecls, List.mem_cons, List.not_mem_nil, or_false] at hd
      rcases hd with rfl | rfl | rfl | rfl | rfl
      · exact sounds_codecDecl hserializer
      · exact sounds_encodeDecl hserializer hplain
      · exact sounds_decodeDecl hserializer
      · exact sounds_decodeFieldDecl hserializer hplain
      · exact sounds_readDecl hserializer
  · obtain ⟨a, ha, hd⟩ := List.mem_flatMap.mp hd
    simp only [List.mem_cons, List.not_mem_nil, or_false] at hd
    rcases hd with rfl | rfl
    · exact sounds_encodeArrayDecl hserializer (harrays a ha)
    · exact sounds_decodeArrayDecl hserializer (harrays a ha)

end Declarations

/-! ## Files of resolved models -/

section Files

variable {ds : List Schema.Declaration} {opt : ModelOptions} {m : Model}

theorem sounds_of_resolve (h : Model.resolve ds opt = .ok m)
    (hserializer : m.serializerName.Dotless) : ∀ d ∈ decls m, Sounds d.lines := by
  have harrays := Model.dotless_arrays h
  refine sounds_decls hserializer (fun o ho hconcrete f hf elem codec htype => ?_) harrays
  exact harrays _ ((Model.catalogue_of_resolve h).mem ho hconcrete hf (Field.codec?_of_array htype))

theorem nodup_imports (m : Model) (source : Text) : (file m source).imports.Nodup := by
  have hpaths : Package.path .runtime ≠ Package.path .decimal := by decide
  rw [imports_eq]
  split_ifs <;> simp [hpaths]

/-- The packages that a file imports are those that its code refers to, by its pieces and, if the
serializer has no dot in its name, also by its text outside string literals: some chain begins with
the name of the runtime package, or is the decimal type. The code is what is laid out, apart from
the doc comments. -/
theorem imports_match_use (h : Model.resolve ds opt = .ok m) (source : Text) :
    let f := file m source
    f.imports.Nodup ∧ (∀ i ∈ f.imports, ∃ p : Package, i = p.path) ∧
    (∀ d ∈ f.decls,
      d.format.filterMap written? = DocComment.canonical d.doc ++ d.lines.map Code.text) ∧
    (∀ p : Package, p.path ∈ f.imports ↔ ∃ d ∈ f.decls, ∃ c ∈ d.lines, p ∈ c.packages) ∧
    (m.serializerName.Dotless → ∀ p : Package,
      p.path ∈ f.imports ↔ ∃ d ∈ f.decls, ∃ c ∈ d.lines, p ∈ uses c.bare) := by
  have huse (p : Package) : p.path ∈ (file m source).imports ↔
      ∃ d ∈ (file m source).decls, ∃ c ∈ d.lines, p ∈ c.packages := by
    rw [mem_imports_iff, mentions_flatMap]
    rfl
  refine ⟨nodup_imports m source, ?_, fun d _ => d.written_format, huse, ?_⟩
  · intro i hi
    rw [imports_eq] at hi
    split_ifs at hi <;> simp at hi
    · exact hi.elim (⟨.runtime, ·⟩) (⟨.decimal, ·⟩)
    · exact ⟨.runtime, hi⟩
    · exact ⟨.decimal, hi⟩
  · intro hserializer p
    rw [huse p]
    refine exists_congr fun d => and_congr_right fun hd => exists_congr fun c =>
      and_congr_right fun hc => ?_
    rw [sounds_of_resolve h hserializer d hd c hc]

end Files

/-- An object with one field, which is a decimal. -/
def priceSchema : List Schema.Declaration :=
  [{ name := "shop.Price"
     properties := [{ key := "amount", name := "amount", type := "decimal" }] }]

def prices (makeTypes : Bool) : Model where
  package := "shop"
  serializer := "Shop"
  access := .anyone
  objects :=
    [⟨0, "shop.Price", false, [⟨"amount", "amount", .single (.scalar .decimal), 0⟩], none, []⟩]
  arrays := []
  aggregates := if makeTypes then [0] else []

theorem resolve_priceSchema (makeTypes : Bool) : Model.resolve priceSchema
    { package := "shop", serializer := "Shop", makeTypes } = .ok (prices makeTypes) := by
  cases makeTypes <;> decide +kernel

/-- The decimal is read and written without its type, which only the data type names. -/
theorem imports_match_use_price :
    (Package.path .decimal ∉ (file (prices false) []).imports ∧
      ¬ ∃ d ∈ decls (prices false), ∃ c ∈ d.lines, .decimal ∈ uses c.bare) ∧
    (Package.path .decimal ∈ (file (prices true) []).imports ∧
      ∃ d ∈ decls (prices true), ∃ c ∈ d.lines, .decimal ∈ uses c.bare) := by
  have hplain : Package.path .decimal ∉ (file (prices false) []).imports := by decide +kernel
  have htyped : Package.path .decimal ∈ (file (prices true) []).imports := by decide +kernel
  obtain ⟨-, -, -, -, hfalse⟩ := imports_match_use (resolve_priceSchema false) []
  obtain ⟨-, -, -, -, htrue⟩ := imports_match_use (resolve_priceSchema true) []
  exact ⟨⟨hplain, mt (hfalse (by decide +kernel) .decimal).mpr hplain⟩,
    htyped, (htrue (by decide +kernel) .decimal).mp htyped⟩

end WireSchema.Source
