import WireSchema.Proofs.Json.Acceptance
import WireSchema.Proofs.Yaml.Building

/-!
# Refused events

A writer that refuses an event can be asked to write on. What it was refused has no effect then: if the
refused events had never been asked for, each of the others would have had the same answer and led to
the same state. For this a step must not have begun to write or to build anything when it refuses; the
run that leaves the refused events out follows by induction.
-/

namespace WireSchema

namespace Write

variable {σ : Type}

/-- What became of an event: the answer to it, and the state of the writer after it. -/
structure Reply (σ : Type) where
  event : Write
  answer : Option Failure
  state : σ

def Reply.isTaken (r : Reply σ) : Bool := r.answer.isNone

section Runs

variable (step : σ → Write → Option Failure × σ)

/-- What becomes of events, one after another, whether those before them were refused or not. -/
def replies (s : σ) : List Write → List (Reply σ)
  | [] => []
  | e :: es => ⟨e, (step s e).1, (step s e).2⟩ :: replies (step s e).2 es

/-- The state after events, whether they were refused or not. -/
def final (s : σ) (es : List Write) : σ := es.foldl (fun s e => (step s e).2) s

/-- The events that are not refused when all are asked for. -/
def taken (s : σ) (es : List Write) : List Write :=
  ((replies step s es).filter Reply.isTaken).map (·.event)

/-- Without the refused events, what becomes of each other event is the same, and so is the state at
the end. -/
structure NoTrace (s : σ) (es : List Write) : Prop where
  replies_eq : replies step s (taken step s es) = (replies step s es).filter Reply.isTaken
  final_eq : final step s (taken step s es) = final step s es

/-- From states with the property a step leads to such states again, and a refused event changes
nothing. -/
structure Steady (P : σ → Prop) : Prop where
  keeps : ∀ s e, P s → P (step s e).2
  refused : ∀ s e f s', P s → step s e = (some f, s') → s' = s

end Runs

variable {step : σ → Write → Option Failure × σ} {s s' : σ} {e : Write} {f : Failure}
  {answer : Option Failure}

theorem replies_cons (h : step s e = (answer, s')) (es : List Write) :
    replies step s (e :: es) = ⟨e, answer, s'⟩ :: replies step s' es := by
  rw [replies, h]

theorem final_cons (h : step s e = (answer, s')) (es : List Write) :
    final step s (e :: es) = final step s' es := by
  rw [final, List.foldl_cons, h]
  rfl

theorem taken_cons_of_none (h : step s e = (none, s')) (es : List Write) :
    taken step s (e :: es) = e :: taken step s' es := by
  rw [taken, replies_cons h]
  rfl

theorem taken_cons_of_some (h : step s e = (some f, s')) (es : List Write) :
    taken step s (e :: es) = taken step s' es := by
  rw [taken, replies_cons h]
  rfl

theorem NoTrace.cons_of_none {es : List Write} (h : step s e = (none, s'))
    (hes : NoTrace step s' es) : NoTrace step s (e :: es) := by
  constructor
  · rw [taken_cons_of_none h, replies_cons h, replies_cons h, hes.replies_eq]
    rfl
  · rw [taken_cons_of_none h, final_cons h, final_cons h, hes.final_eq]

theorem NoTrace.cons_of_some {es : List Write} (h : step s e = (some f, s))
    (hes : NoTrace step s es) : NoTrace step s (e :: es) := by
  constructor
  · rw [taken_cons_of_some h, replies_cons h, hes.replies_eq]
    rfl
  · rw [taken_cons_of_some h, final_cons h, hes.final_eq]

theorem Steady.noTrace {P : σ → Prop} (h : Steady step P) (hs : P s) (es : List Write) :
    NoTrace step s es := by
  induction es generalizing s with
  | nil => exact ⟨rfl, rfl⟩
  | cons e es ih =>
    have hnext := h.keeps s e hs
    rcases hstep : step s e with ⟨_ | f, s'⟩
    · rw [hstep] at hnext
      exact (ih hnext).cons_of_none hstep
    · obtain rfl := h.refused s e f s' hs hstep
      exact (ih hs).cons_of_some hstep

end Write

/-! ## The JSON writer -/

namespace Json.Writer

/-- The action is carried out to its end, or refused before anything is done. -/
inductive Settles (a : Action) (w : Writer) : Prop
  | done (w' : Writer) (hlimit : w'.sink.limit = none) (h : a.run w = .ok () w')
  | refused (f : Failure) (h : a.run w = .error f w)

variable {a : Action} {w : Writer}

theorem Settles.of_does {p' : Place} {x : Text} (h : Does w.indent a w.place p' x)
    (hl : w.sink.limit = none) : Settles a w := by
  obtain ⟨w', hrun, -, hlimit, -, -⟩ := h w rfl hl rfl
  exact .done w' hlimit hrun

theorem settles_closeContainer (hl : w.sink.limit = none) (isObject : Bool) (bracket : Text) :
    Settles (closeContainer isObject bracket) w := by
  cases hstack : w.stack with
  | nil =>
    refine .refused (.plain "codecgen: unbalanced end token") ?_
    rw [closeContainer, run_get_bind, hstack]
    rfl
  | cons top outer =>
    by_cases hbad : (top.isObject != isObject || w.named) = true
    · refine .refused (.plain "codecgen: unbalanced end token") ?_
      rw [closeContainer, run_get_bind, hstack]
      simp only [hbad, if_true, run_throw_bind]
    · simp only [Bool.or_eq_true, bne_iff_ne, not_or, not_not, Bool.not_eq_true] at hbad
      obtain ⟨rfl, hnamed⟩ := hbad
      have hplace : w.place = (top :: outer, false) := Prod.ext hstack hnamed
      exact .of_does (hplace ▸ does_close bracket) hl

theorem settles_fieldName (hl : w.sink.limit = none) (t : Text) : Settles (fieldName t) w := by
  cases haccepts : w.acceptsName with
  | false =>
    refine .refused (.plain "codecgen: field name outside an object or without a value") ?_
    rw [fieldName, run_get_bind]
    simp only [haccepts, Bool.not_false, if_true, run_throw_bind]
  | true =>
    unfold acceptsName at haccepts
    cases hstack : w.stack with
    | nil => simp [hstack] at haccepts
    | cons top outer =>
      simp only [hstack, Bool.and_eq_true, Bool.not_eq_eq_eq_not, Bool.not_true] at haccepts
      have hplace : w.place = (top :: outer, false) := Prod.ext hstack haccepts.1
      exact .of_does (hplace ▸ does_fieldName haccepts.2 t) hl

/-- A number that is not finite is refused before the separator is written. -/
theorem settles_float (hl : w.sink.limit = none) (f : BinaryFormat) (x : Binary) :
    Settles (float f x) w := by
  unfold float
  split
  · exact .of_does (does_scalar _) hl
  · exact .refused _ rfl

theorem settles_event (hl : w.sink.limit = none) (e : Write) : Settles (event e) w := by
  cases e with
  | startObject | startArray => exact .of_does (does_open _ _) hl
  | endObject | endArray => exact settles_closeContainer hl _ _
  | fieldName t => exact settles_fieldName hl t
  | float f x => exact settles_float hl f x
  | null | bool | integer | decimal | string => exact .of_does (does_scalar _) hl

theorem steady_write : Write.Steady write fun w => w.sink.limit = none := by
  constructor
  · intro w e hl
    unfold write
    cases settles_event hl e with
    | done w' hlimit hrun => rwa [hrun]
    | refused f hrun => rwa [hrun]
  · intro w e f w' hl h
    unfold write at h
    cases settles_event hl e with
    | done w₁ _ hrun =>
      rw [hrun] at h
      cases h
    | refused f' hrun =>
      rw [hrun] at h
      exact (Prod.mk.inj h).2.symm

end Json.Writer

/-! ## The YAML builder -/

namespace Yaml.Builder

/-- The action is carried out to its end, or refused before anything is changed. -/
inductive Settles (a : Action) (b : Builder) : Prop
  | done (b' : Builder) (h : a.run b = .ok () b')
  | refused (f : Failure) (h : a.run b = .error f b)

variable {a : Action} {b b' : Builder} {f : Failure}

theorem Settles.of_refusal? (h : a.run b = match b.refusal? with
    | some f => .error f b
    | none => .ok () b') : Settles a b := by
  cases hrefusal : b.refusal? with
  | some f =>
    rw [hrefusal] at h
    exact .refused f h
  | none =>
    rw [hrefusal] at h
    exact .done b' h

theorem Settles.of_ite {p : Prop} [Decidable p]
    (h : a.run b = if p then .ok () b' else .error f b) : Settles a b := by
  by_cases hp : p
  · exact .done b' (h.trans (if_pos hp))
  · exact .refused f (h.trans (if_neg hp))

theorem settles_event (b : Builder) (e : Write) : Settles (event e) b := by
  cases e with
  | startObject | startArray => exact .of_refusal? (run_openContainer b _)
  | endObject | endArray => exact .of_ite (run_closeContainer b _)
  | fieldName name => exact .of_ite (run_fieldName b name)
  | null | bool | integer | float | decimal | string => exact .of_refusal? (run_add b _)

theorem steady_write : Write.Steady write fun _ => True := by
  constructor
  · exact fun _ _ _ => trivial
  · intro b e f b' _ h
    unfold write at h
    cases settles_event b e with
    | done b₁ hrun =>
      rw [hrun] at h
      cases h
    | refused f' hrun =>
      rw [hrun] at h
      exact (Prod.mk.inj h).2.symm

end Yaml.Builder

/-- **Refused events leave no trace.** Whatever is asked of a fresh writer of JSON, indented or not, on
a sink without a limit, or of a fresh builder of a YAML document: without the events that were refused,
every other event has the same answer, and the text written or the document built after it, all that is
open and whether a name waits for its value are the same. -/
theorem Write.refusals_leave_no_trace (es : List Write) :
    (∀ indent : Text, NoTrace Json.Writer.write { indent } es) ∧
      NoTrace Yaml.Builder.write {} es := by
  constructor
  · intro indent
    exact Json.Writer.steady_write.noTrace rfl es
  · exact Yaml.Builder.steady_write.noTrace trivial es

end WireSchema
