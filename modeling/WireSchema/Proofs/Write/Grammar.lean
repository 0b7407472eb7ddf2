import WireSchema.Proofs.Json.LenientReading
import WireSchema.Write

/-!
# Well-formed sequences of events

Which sequences of events write one value: `IsValue` is the grammar, and `Fits` says of a single event
whether it may come next, given the containers that are open. The two agree: the sequences in which
every event fits are the beginnings of the sequences of the grammar, and those that leave nothing open
are the sequences of the grammar themselves.
-/

namespace WireSchema.Write

open Json (Nesting)
open Json.Lenient (AwaitsValue)

def isScalar : Write → Bool
  | .startObject | .endObject | .startArray | .endArray | .fieldName _ => false
  | _ => true

def memberEvents (m : Text × List Write) : List Write := .fieldName m.1 :: m.2

/-- The events write one value: a scalar, or a container around values, where each value in an object
has its name before it. -/
inductive IsValue : List Write → Prop
  | scalar {e : Write} : e.isScalar = true → IsValue [e]
  | array {items : List (List Write)} : (∀ es ∈ items, IsValue es) →
      IsValue (.startArray :: (items.flatten ++ [.endArray]))
  | object {members : List (Text × List Write)} : (∀ m ∈ members, IsValue m.2) →
      IsValue (.startObject :: (members.flatMap memberEvents ++ [.endObject]))

/-! ## Event by event -/

/-- How far a value has come. -/
inductive Stage where
  /-- These containers are open. -/
  | inside (n : Nesting)
  | complete

/-- The stage once a value within the containers is complete. -/
def Stage.after : Nesting → Stage
  | [] => .complete
  | n => .inside n.valueDone

/-- The event may come within the containers, and leads to the stage. -/
inductive Fits : Nesting → Write → Stage → Prop
  | scalar {n : Nesting} {e : Write} : e.isScalar = true → AwaitsValue n → Fits n e (.after n)
  | startArray {n : Nesting} : AwaitsValue n → Fits n .startArray (.inside (.array :: n))
  | startObject {n : Nesting} : AwaitsValue n → Fits n .startObject (.inside (.object true :: n))
  -- a container that ends is a value of the one around it
  | endArray {n : Nesting} : AwaitsValue n → Fits (.array :: n) .endArray (.after n)
  | endObject {n : Nesting} : AwaitsValue n → Fits (.object true :: n) .endObject (.after n)
  | fieldName {n : Nesting} (name : Text) :
      Fits (.object true :: n) (.fieldName name) (.inside (.object false :: n))

/-- Each of the events fits where it comes. -/
inductive Runs : Stage → List Write → Stage → Prop
  | nil (st : Stage) : Runs st [] st
  | cons {n : Nesting} {e : Write} {es : List Write} {st st' : Stage} :
      Fits n e st → Runs st es st' → Runs (.inside n) (e :: es) st'

namespace Runs

variable {st st' st₁ : Stage} {es es' : List Write}

theorem append_iff : Runs st (es ++ es') st' ↔ ∃ st₁, Runs st es st₁ ∧ Runs st₁ es' st' := by
  constructor
  · intro h
    induction es generalizing st with
    | nil => exact ⟨st, .nil st, h⟩
    | cons e es ih =>
      cases h with
      | cons he h =>
        obtain ⟨st₁, h₁, h₂⟩ := ih h
        exact ⟨st₁, .cons he h₁, h₂⟩
  · rintro ⟨st₁, h₁, h₂⟩
    induction h₁ with
    | nil => exact h₂
    | cons he _ ih => exact .cons he (ih h₂)

theorem append (h₁ : Runs st es st₁) (h₂ : Runs st₁ es' st') : Runs st (es ++ es') st' :=
  append_iff.mpr ⟨st₁, h₁, h₂⟩

theorem single {n : Nesting} {e : Write} (h : Fits n e st) : Runs (.inside n) [e] st :=
  .cons h (.nil st)

/-- Parts that lead back to where they began may follow each other. -/
theorem flatten {parts : List (List Write)} (h : ∀ es ∈ parts, Runs st es st) :
    Runs st parts.flatten st := by
  induction parts with
  | nil => exact .nil st
  | cons es parts ih =>
    rw [List.forall_mem_cons] at h
    exact h.1.append (ih h.2)

end Runs

/-- The events of a value fit wherever a value may come. -/
theorem IsValue.runs {es : List Write} (h : IsValue es) {n : Nesting} (hn : AwaitsValue n) :
    Runs (.inside n) es (.after n) := by
  induction h generalizing n with
  | scalar he => exact .single (.scalar he hn)
  | array _ ih =>
    have hitems := Runs.flatten fun es hes => ih es hes (n := .array :: n) (by simp [AwaitsValue])
    exact .cons (.startArray hn) (hitems.append (.single (.endArray hn)))
  | @object members _ ih =>
    have hmember (m : Text × List Write) (hm : m ∈ members) :
        Runs (.inside (.object true :: n)) (memberEvents m) (.inside (.object true :: n)) :=
      .cons (.fieldName m.1) (ih m hm (n := .object false :: n) (by simp [AwaitsValue]))
    have hmembers : Runs (.inside (.object true :: n)) (members.flatMap memberEvents)
        (.inside (.object true :: n)) := by
      refine Runs.flatten fun es hes => ?_
      obtain ⟨m, hm, rfl⟩ := List.mem_map.mp hes
      exact hmember m hm
    exact .cons (.startObject hn) (hmembers.append (.single (.endObject hn)))

/-! ## Beginnings of values -/

/-- The events of a value up to where the containers are open: each of them was opened where a value
may come, and complete values stand in it, and at last perhaps a name. -/
inductive Begins : Nesting → List Write → Prop
  | nil : Begins [] []
  | array {n : Nesting} {es : List Write} {items : List (List Write)} : Begins n es → AwaitsValue n →
      (∀ es ∈ items, IsValue es) → Begins (.array :: n) (es ++ .startArray :: items.flatten)
  | object {n : Nesting} {es : List Write} {members : List (Text × List Write)} : Begins n es →
      AwaitsValue n → (∀ m ∈ members, IsValue m.2) →
      Begins (.object true :: n) (es ++ .startObject :: members.flatMap memberEvents)
  | named {n : Nesting} {es : List Write} {members : List (Text × List Write)} (name : Text) :
      Begins n es → AwaitsValue n → (∀ m ∈ members, IsValue m.2) →
      Begins (.object false :: n)
        (es ++ .startObject :: (members.flatMap memberEvents ++ [.fieldName name]))

/-- The events have led to the stage. -/
def Stage.Reached : Stage → List Write → Prop
  | .inside n, es => Begins n es
  | .complete, es => IsValue es

theorem array_snoc {items : List (List Write)} {v : List Write} (h : ∀ es ∈ items, IsValue es)
    (hv : IsValue v) : ∀ es ∈ items ++ [v], IsValue es := by
  simpa [or_imp, forall_and] using ⟨h, hv⟩

theorem object_snoc {members : List (Text × List Write)} (h : ∀ m ∈ members, IsValue m.2)
    (name : Text) {v : List Write} (hv : IsValue v) : ∀ m ∈ members ++ [(name, v)], IsValue m.2 := by
  rw [List.forall_mem_append]
  exact ⟨h, by simpa using hv⟩

namespace Begins

variable {n : Nesting} {es v : List Write}

/-- A value that follows is the next one of the innermost container. -/
theorem value (h : Begins n es) (hn : AwaitsValue n) (hv : IsValue v) :
    (Stage.after n).Reached (es ++ v) := by
  cases h with
  | nil => exact hv
  | array hes hin hitems =>
    show Begins (.array :: _) _
    simpa using hes.array hin (array_snoc hitems hv)
  | object => exact absurd rfl hn
  | named name hes hin hmembers =>
    show Begins (.object true :: _) _
    simpa [memberEvents] using hes.object hin (object_snoc hmembers name hv)

theorem fits (h : Begins n es) {e : Write} {st : Stage} (he : Fits n e st) :
    st.Reached (es ++ [e]) := by
  cases he with
  | scalar he hn => exact h.value hn (.scalar he)
  | startArray hn => exact h.array hn (List.forall_mem_nil _)
  | startObject hn => exact h.object hn (List.forall_mem_nil _)
  | endArray _ =>
    cases h with
    | array hes hn hitems => simpa using hes.value hn (.array hitems)
  | endObject _ =>
    cases h with
    | object hes hn hmembers => simpa using hes.value hn (.object hmembers)
  | fieldName name =>
    cases h with
    | object hes hn hmembers =>
      show Begins _ _
      simpa using hes.named name hn hmembers

/-- A beginning can be gone on with after any value that may come next. -/
theorem value_completes (h : Begins n es) (hn : AwaitsValue n) (hv : IsValue v) :
    ∃ rest, IsValue (es ++ (v ++ rest)) := by
  induction h generalizing v with
  | nil => exact ⟨[], by simpa using hv⟩
  | array _ hin hitems ih =>
    obtain ⟨rest, h⟩ := ih hin (.array (array_snoc hitems hv))
    exact ⟨.endArray :: rest, by simpa using h⟩
  | object => exact absurd rfl hn
  | named name _ hin hmembers ih =>
    obtain ⟨rest, h⟩ := ih hin (.object (object_snoc hmembers name hv))
    exact ⟨.endObject :: rest, by simpa [memberEvents] using h⟩

/-- Every beginning can be completed: a name gets a null, and what is open is closed. -/
theorem completes (h : Begins n es) : ∃ rest, IsValue (es ++ rest) := by
  have hnull : IsValue [.null] := .scalar rfl
  cases h with
  | nil => exact ⟨[.null], hnull⟩
  | array hes hn hitems =>
    obtain ⟨rest, h⟩ := hes.value_completes hn (.array hitems)
    exact ⟨.endArray :: rest, by simpa using h⟩
  | object hes hn hmembers =>
    obtain ⟨rest, h⟩ := hes.value_completes hn (.object hmembers)
    exact ⟨.endObject :: rest, by simpa using h⟩
  | named name hes hn hmembers =>
    obtain ⟨rest, h⟩ := (hes.named name hn hmembers).value_completes (by simp [AwaitsValue]) hnull
    exact ⟨.null :: rest, h⟩

end Begins

theorem Stage.Reached.runs {st st' : Stage} {es es' : List Write} (h : st.Reached es)
    (hr : Runs st es' st') : st'.Reached (es ++ es') := by
  induction hr generalizing es with
  | nil => simpa using h
  | cons he _ ih => simpa using ih (Begins.fits h he)

theorem Runs.reached {st : Stage} {es : List Write} (h : Runs (.inside []) es st) : st.Reached es := by
  have hstart : (Stage.inside []).Reached [] := .nil
  exact hstart.runs h

/-- All events fit and nothing is left open exactly if they write one value. -/
theorem runs_complete_iff {es : List Write} : Runs (.inside []) es .complete ↔ IsValue es :=
  ⟨Runs.reached, fun h => h.runs (by simp [AwaitsValue])⟩

/-- All events fit exactly if they are the beginning of those that write one value. -/
theorem exists_runs_iff {es : List Write} :
    (∃ st, Runs (.inside []) es st) ↔ ∃ all, IsValue all ∧ es <+: all := by
  constructor
  · rintro ⟨st, h⟩
    cases st with
    | inside n =>
      obtain ⟨rest, hrest⟩ := Begins.completes h.reached
      exact ⟨es ++ rest, hrest, List.prefix_append es rest⟩
    | complete => exact ⟨es, h.reached, List.prefix_refl es⟩
  · rintro ⟨_, hall, rest, rfl⟩
    obtain ⟨st, h, -⟩ := Runs.append_iff.mp (runs_complete_iff.mpr hall)
    exact ⟨st, h⟩

end WireSchema.Write
