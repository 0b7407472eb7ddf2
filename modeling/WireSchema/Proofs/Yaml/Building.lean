import WireSchema.Proofs.Write.Grammar
import WireSchema.Yaml.Tree

/-!
# Which events build a document

A document is built up event by event. The builder refuses exactly those events that do not fit where
they come, so it takes the beginnings of well-formed sequences of events and nothing else, and it has a
document exactly when the sequence is complete.

An action either is refused and changes nothing or is carried out as a whole; `run_add`,
`run_closeContainer` and `run_fieldName` say when and how. `At b st` relates a builder to the stage of
the grammar: its stack is that of the open containers, and its one flag tells what the innermost of them
waits for. All others wait for the value that is under way.
-/

namespace WireSchema.Yaml

open Json (Container Nesting)
open Json.Lenient (AwaitsValue)
open Write (Stage Fits Runs IsValue)

namespace Builder

/-! ## Actions -/

/-- Why no value can come next, if none can. -/
def refusal? (b : Builder) : Option Failure :=
  match b.stack with
  | [] => if b.root.isSome then some (.plain "yaml: more than one top-level value") else none
  | isMapping :: _ =>
    if isMapping && !b.named then some (.plain "yaml: value written without a field name") else none

/-- The builder with a part added where a value can come. -/
def hang (b : Builder) (added : Part) : Builder :=
  match b.stack with
  | [] => { b with root := some added }
  | isMapping :: _ => { b.append added with named := !isMapping && b.named }

/-- The builder with a container opened where a value can come. -/
def opened (b : Builder) (isMapping : Bool) (contents : List Part) : Builder :=
  { b.hang (.container isMapping contents) with stack := isMapping :: b.stack }

/-- Can a container of the sort be closed? -/
def closes (b : Builder) (isMapping : Bool) : Bool := b.stack.head? == some isMapping && !b.named

section Actions

variable (b : Builder)

theorem run_add (p : Part) : (add p).run b =
    match b.refusal? with
    | some f => .error f b
    | none => .ok () (b.hang p) := by
  obtain ⟨root, stack, named⟩ := b
  rcases stack with _ | ⟨_ | _, outer⟩
  · cases root <;> rfl
  · rfl
  · cases named <;> rfl

theorem run_openContainer (isMapping : Bool) : (openContainer isMapping).run b =
    match b.refusal? with
    | some f => .error f b
    | none => .ok () (b.opened isMapping []) := by
  show EStateM.bind _ _ b = _
  rw [EStateM.bind, show add _ b = _ from run_add b (.container isMapping [])]
  cases b.refusal? with
  | some f => rfl
  | none =>
    obtain ⟨root, _ | ⟨_, _⟩, named⟩ := b <;> rfl

theorem run_closeContainer (isMapping : Bool) : (closeContainer isMapping).run b =
    if b.closes isMapping then .ok () { b with stack := b.stack.tail }
    else .error (.plain "yaml: unbalanced end token") b := by
  obtain ⟨root, stack, named⟩ := b
  rcases stack with _ | ⟨_ | _, outer⟩ <;> cases isMapping <;> cases named <;> rfl

theorem run_fieldName (name : Text) : (fieldName name).run b =
    if b.closes true then .ok () { b.append (.scalar textTag name) with named := true }
    else .error (.plain "yaml: field name outside of an object") b := by
  obtain ⟨root, stack, named⟩ := b
  rcases stack with _ | ⟨_ | _, outer⟩ <;> cases named <;> rfl

end Actions

variable {b b' : Builder} {st st' : Stage} {n : Nesting} {e : Write} {es : List Write}

theorem event_scalar (he : e.isScalar = true) : ∃ p, event e = add p := by
  cases e with
  | startObject | endObject | startArray | endArray | fieldName => cases he
  | _ => exact ⟨_, rfl⟩

theorem refusal?_of_add {p : Part} (h : (add p).run b = .ok () b') : b.refusal? = none := by
  rw [run_add] at h
  split at h
  · cases h
  · assumption

theorem refusal?_of_open {isMapping : Bool} (h : (openContainer isMapping).run b = .ok () b') :
    b.refusal? = none := by
  rw [run_openContainer] at h
  split at h
  · cases h
  · assumption

theorem write_of_run (h : (event e).run b = .ok () b') : b.write e = (none, b') := by
  rw [write, h]

theorem run_of_write (h : b.write e = (none, b')) : (event e).run b = .ok () b' := by
  unfold write at h
  split at h
  · rename_i hrun
    cases h
    exact hrun
  · cases h

/-! ## Stages -/

/-- The builder has come to the stage. -/
def At (b : Builder) : Stage → Prop
  | .inside [] => b = {}
  | .inside (c :: n) => b.root.isSome = true ∧ b.stack = (c :: n).map (· != .array) ∧
      b.named = (c == .object false) ∧ ∀ d ∈ n, d ≠ .object true
  | .complete => b.root.isSome = true ∧ b.stack = [] ∧ b.named = false

theorem At.refusal?_eq_none_iff (h : b.At st) :
    b.refusal? = none ↔ ∃ n, st = .inside n ∧ AwaitsValue n := by
  obtain ⟨root, stack, named⟩ := b
  cases st with
  | complete =>
    obtain ⟨hroot, rfl, -⟩ := h
    simp [refusal?, hroot]
  | inside n =>
    rcases n with _ | ⟨_ | _ | _, n⟩
    · cases h
      simp [refusal?, AwaitsValue]
    all_goals
      obtain ⟨-, rfl, rfl, -⟩ := h
      simp [refusal?, AwaitsValue]

theorem At.hang (h : b.At (.inside n)) (hn : AwaitsValue n) (p : Part) : (b.hang p).At (.after n) := by
  obtain ⟨root, stack, named⟩ := b
  rcases n with _ | ⟨_ | _ | _, n⟩
  case cons.object.true => exact absurd rfl hn
  case nil =>
    cases h
    exact ⟨rfl, rfl, rfl⟩
  all_goals
    obtain ⟨hroot, rfl, rfl, houter⟩ := h
    exact ⟨by simpa [Builder.hang, append] using hroot, rfl, rfl, houter⟩

theorem At.opened (h : b.At (.inside n)) (hn : AwaitsValue n) {c : Container}
    (hc : c ≠ .object false) (contents : List Part) :
    (b.opened (c != .array) contents).At (.inside (c :: n)) := by
  have hhang := h.hang hn (.container (c != .array) contents)
  have hflag : (c == .object false) = false := beq_eq_false_iff_ne.mpr hc
  rcases n with _ | ⟨d, n⟩
  · cases h
    exact ⟨rfl, rfl, hflag.symm, by simp⟩
  · obtain ⟨-, hstack, -, houter⟩ := h
    have hd : d ≠ .object true := fun hd => hn (congrArg some hd)
    have hnamed : (b.hang (.container (c != .array) contents)).named = false := by
      rcases d with _ | _ | _
      · exact hhang.2.2.1
      · exact hhang.2.2.1
      · exact absurd rfl hd
    refine ⟨?_, congrArg ((c != .array) :: ·) hstack, hnamed.trans hflag.symm,
      List.forall_mem_cons.mpr ⟨hd, houter⟩⟩
    rcases d with _ | _ | _ <;> exact hhang.1

theorem At.closes_iff (h : b.At st) (c : Container) (hc : c ≠ .object false) :
    b.closes (c != .array) = true ↔ ∃ n, st = .inside (c :: n) := by
  obtain ⟨root, stack, named⟩ := b
  cases st with
  | complete =>
    obtain ⟨-, rfl, -⟩ := h
    simp [closes]
  | inside n =>
    rcases n with _ | ⟨d, n⟩
    · cases h
      simp [closes]
    · obtain ⟨-, rfl, rfl, -⟩ := h
      rcases c with _ | _ | _
      case object.false => exact absurd rfl hc
      all_goals rcases d with _ | _ | _ <;> simp [closes]

theorem At.outer {c : Container} (h : b.At (.inside (c :: n))) : AwaitsValue n := by
  obtain ⟨-, -, -, houter⟩ := h
  rcases n with _ | ⟨d, n⟩
  · simp [AwaitsValue]
  · intro hd
    exact houter d (.head _) (Option.some.inj hd)

theorem At.closed {c : Container} (h : b.At (.inside (c :: n))) (hc : c ≠ .object false) :
    At { b with stack := b.stack.tail } (.after n) := by
  have hn := h.outer
  obtain ⟨hroot, hstack, hnamed, houter⟩ := h
  rw [beq_eq_false_iff_ne.mpr hc] at hnamed
  rcases n with _ | ⟨d, n⟩
  · exact ⟨hroot, congrArg List.tail hstack, hnamed⟩
  · have hrest := (List.forall_mem_cons.mp houter).2
    rcases d with _ | _ | _
    case object.true => exact absurd rfl hn
    all_goals exact ⟨hroot, congrArg List.tail hstack, hnamed, hrest⟩

/-! ## Events -/

theorem At.write (h : b.At (.inside n)) (he : Fits n e st) :
    ∃ b', b.write e = (none, b') ∧ b'.At st := by
  have htakes (hn : AwaitsValue n) : b.refusal? = none := h.refusal?_eq_none_iff.mpr ⟨n, rfl, hn⟩
  cases he with
  | scalar he hn =>
    obtain ⟨p, hp⟩ := event_scalar he
    refine ⟨b.hang p, write_of_run ?_, h.hang hn p⟩
    rw [hp, run_add, htakes hn]
  | startArray hn =>
    refine ⟨b.opened false [], write_of_run ?_, h.opened hn (c := .array) (by simp) []⟩
    rw [event, run_openContainer, htakes hn]
  | startObject hn =>
    refine ⟨b.opened true [], write_of_run ?_, h.opened hn (c := .object true) (by simp) []⟩
    rw [event, run_openContainer, htakes hn]
  | endArray _ =>
    refine ⟨_, write_of_run ?_, h.closed (by simp)⟩
    rw [event, run_closeContainer]
    exact if_pos ((h.closes_iff .array (by simp)).mpr ⟨_, rfl⟩)
  | endObject _ =>
    refine ⟨_, write_of_run ?_, h.closed (by simp)⟩
    rw [event, run_closeContainer]
    exact if_pos ((h.closes_iff (.object true) (by simp)).mpr ⟨_, rfl⟩)
  | fieldName name =>
    refine ⟨{ b.append (.scalar textTag name) with named := true }, write_of_run ?_, ?_⟩
    · rw [event, run_fieldName]
      exact if_pos ((h.closes_iff (.object true) (by simp)).mpr ⟨_, rfl⟩)
    · obtain ⟨hroot, hstack, -, houter⟩ := h
      exact ⟨by simpa [append] using hroot, hstack, rfl, houter⟩

theorem At.fits (h : b.At st) (he : b.write e = (none, b')) :
    ∃ n st', st = .inside n ∧ Fits n e st' := by
  have hrun := run_of_write he
  have hclosed {c : Container} (hc : c ≠ .object false) {x : EStateM.Result Failure Builder Unit}
      {y : EStateM.Result Failure Builder Unit} (hy : y ≠ .ok () b')
      (hx : (if b.closes (c != .array) then x else y) = .ok () b') :
      ∃ n, st = .inside (c :: n) ∧ AwaitsValue n := by
    split at hx
    · rename_i hcloses
      obtain ⟨n, rfl⟩ := (h.closes_iff c hc).mp hcloses
      exact ⟨n, rfl, h.outer⟩
    · exact absurd hx hy
  by_cases hscalar : e.isScalar = true
  · obtain ⟨p, hp⟩ := event_scalar hscalar
    rw [hp] at hrun
    obtain ⟨n, rfl, hn⟩ := h.refusal?_eq_none_iff.mp (refusal?_of_add hrun)
    exact ⟨n, _, rfl, .scalar hscalar hn⟩
  cases e with
  | startArray =>
    obtain ⟨n, rfl, hn⟩ := h.refusal?_eq_none_iff.mp (refusal?_of_open hrun)
    exact ⟨n, _, rfl, .startArray hn⟩
  | startObject =>
    obtain ⟨n, rfl, hn⟩ := h.refusal?_eq_none_iff.mp (refusal?_of_open hrun)
    exact ⟨n, _, rfl, .startObject hn⟩
  | endArray =>
    rw [event, run_closeContainer] at hrun
    obtain ⟨n, rfl, hn⟩ := hclosed (c := .array) (by simp) (by simp) hrun
    exact ⟨_, _, rfl, .endArray hn⟩
  | endObject =>
    rw [event, run_closeContainer] at hrun
    obtain ⟨n, rfl, hn⟩ := hclosed (c := .object true) (by simp) (by simp) hrun
    exact ⟨_, _, rfl, .endObject hn⟩
  | fieldName name =>
    rw [event, run_fieldName] at hrun
    obtain ⟨n, rfl, -⟩ := hclosed (c := .object true) (by simp) (by simp) hrun
    exact ⟨_, _, rfl, .fieldName name⟩
  | _ => exact absurd rfl hscalar

/-! ## Sequences of events -/

theorem writeAll_cons (h : b.write e = (none, b')) (es : List Write) :
    b.writeAll (e :: es) = b'.writeAll es := by
  rw [writeAll, h]

theorem At.writeAll (h : b.At st) (hr : Runs st es st') :
    ∃ b', b.writeAll es = (none, b') ∧ b'.At st' := by
  induction hr generalizing b with
  | nil => exact ⟨b, rfl, h⟩
  | cons he _ ih =>
    obtain ⟨b₁, hb₁, h₁⟩ := h.write he
    obtain ⟨b', hb', h'⟩ := ih h₁
    exact ⟨b', (writeAll_cons hb₁ _).trans hb', h'⟩

theorem At.of_writeAll (h : b.At st) (hw : b.writeAll es = (none, b')) :
    ∃ st', Runs st es st' ∧ b'.At st' := by
  induction es generalizing b st with
  | nil =>
    cases hw
    exact ⟨st, .nil st, h⟩
  | cons e es ih =>
    rcases he : b.write e with ⟨_ | f, b₁⟩
    · rw [writeAll_cons he] at hw
      obtain ⟨n, st₁, rfl, hfits⟩ := h.fits he
      -- the stage that the event leads to is the one of the builder after it
      obtain ⟨b₂, hb₂, h₁⟩ := h.write hfits
      obtain rfl : b₁ = b₂ := congrArg Prod.snd (he.symm.trans hb₂)
      obtain ⟨st', hr, h'⟩ := ih h₁ hw
      exact ⟨st', .cons hfits hr, h'⟩
    · rw [Builder.writeAll, he] at hw
      cases hw

theorem At.document_iff (h : b.At st) : (∃ t, b.document = .ok t) ↔ st = .complete := by
  obtain ⟨root, stack, named⟩ := b
  cases st with
  | inside n =>
    rcases n with _ | ⟨c, n⟩
    · cases h
      simp [document]
    · obtain ⟨-, rfl, -⟩ := h
      simp [document]
  | complete =>
    obtain ⟨hroot, rfl, -⟩ := h
    obtain ⟨p, rfl⟩ := Option.isSome_iff_exists.mp hroot
    simp [document]

theorem at_start : At {} (.inside []) := rfl

/-- **The builder takes exactly the well-formed documents.** No event of a sequence is refused exactly
if the sequence begins the events of one value, and then there is a document exactly if the sequence is
all the events of one value. -/
theorem writeAll_wellFormed_iff (es : List Write) :
    ((writeAll {} es).1 = none ↔ ∃ all, IsValue all ∧ es <+: all) ∧
    (((writeAll {} es).1 = none ∧ ∃ t, (writeAll {} es).2.document = .ok t) ↔ IsValue es) := by
  constructor
  · rw [← Write.exists_runs_iff]
    constructor
    · intro h
      obtain ⟨st, hr, -⟩ := at_start.of_writeAll (Prod.ext h rfl)
      exact ⟨st, hr⟩
    · rintro ⟨st, hr⟩
      obtain ⟨b, hb, -⟩ := at_start.writeAll hr
      rw [hb]
  · rw [← Write.runs_complete_iff]
    constructor
    · rintro ⟨h, hdocument⟩
      obtain ⟨st, hr, hat⟩ := at_start.of_writeAll (Prod.ext h rfl)
      rwa [hat.document_iff.mp hdocument] at hr
    · intro hr
      obtain ⟨b, hb, hat⟩ := at_start.writeAll hr
      rw [hb]
      exact ⟨rfl, hat.document_iff.mpr rfl⟩

/-- A name without a value, a name where a value is due, and a value after the value at the top are
refused; what comes before them is taken. -/
example : (writeAll {} [.startObject, .fieldName "a", .startArray, .null, .endArray]).1 = none ∧
    (writeAll {} [.startObject, .fieldName "a", .endObject]).1.isSome = true ∧
    (writeAll {} [.startObject, .fieldName "a", .fieldName "b"]).1.isSome = true ∧
    (writeAll {} [.null, .null]).1.isSome = true := by decide

end Builder

/-! ## Where open containers hang -/

/-- Containers of these sorts, outermost first, lie along the last parts of the document. -/
inductive Part.Along : List Bool → Part → Prop
  | innermost (k : Bool) (contents : List Part) : Along [k] (.container k contents)
  | around {j : Bool} {sorts : List Bool} {last : Part} (k : Bool) (before : List Part) :
      Along (j :: sorts) last → Along (k :: j :: sorts) (.container k (last :: before))

namespace Part.Along

variable {sorts : List Bool} {p : Part}

theorem append (h : Along sorts p) (added : Part) :
    Along sorts (Part.append added (sorts.length - 1) p) := by
  induction h with
  | innermost k contents => exact .innermost k (added :: contents)
  | around k before _ ih => exact .around k before ih

theorem append_container (h : Along sorts p) (k : Bool) (contents : List Part) :
    Along (sorts ++ [k]) (Part.append (.container k contents) (sorts.length - 1) p) := by
  induction h with
  | innermost j before => exact .around j before (.innermost k contents)
  | around j before _ ih => exact .around j before ih

theorem dropLast (h : Along sorts p) (hne : sorts.dropLast ≠ []) : Along sorts.dropLast p := by
  induction h with
  | innermost => exact absurd rfl hne
  | @around j sorts last k before _ ih =>
    rcases sorts with _ | ⟨i, sorts⟩
    · exact .innermost k (last :: before)
    · exact .around k before (ih (by simp))

end Part.Along

namespace Builder

/-- Every open container hangs in the document as the last part of the one around it, so that the way
along the last parts leads to the innermost one. -/
def Hung (b : Builder) : Prop := b.stack ≠ [] → ∃ p, b.root = some p ∧ p.Along b.stack.reverse

variable {b : Builder}

theorem Hung.append (h : b.Hung) (added : Part) : (b.append added).Hung := by
  intro hne
  obtain ⟨p, hp, halong⟩ := h hne
  have happend := halong.append added
  rw [List.length_reverse] at happend
  exact ⟨_, by rw [Builder.append, hp]; rfl, happend⟩

theorem Hung.hang (h : b.Hung) (added : Part) : (b.hang added).Hung := by
  obtain ⟨root, _ | ⟨top, outer⟩, named⟩ := b
  · exact fun hne => absurd rfl hne
  · exact h.append added

theorem Hung.opened (h : b.Hung) (isMapping : Bool) (contents : List Part) :
    (b.opened isMapping contents).Hung := by
  intro _
  obtain ⟨root, _ | ⟨top, outer⟩, named⟩ := b
  · exact ⟨_, rfl, .innermost isMapping contents⟩
  · obtain ⟨p, rfl, halong⟩ := h (by simp)
    have happend := halong.append_container isMapping contents
    rw [List.length_reverse] at happend
    exact ⟨_, rfl, by simpa [Builder.opened] using happend⟩

theorem Hung.closed (h : b.Hung) : Hung { b with stack := b.stack.tail } := by
  intro hne
  obtain ⟨root, _ | ⟨top, outer⟩, named⟩ := b
  · exact absurd rfl hne
  · obtain ⟨p, hp, halong⟩ := h (by simp)
    have houter : outer.reverse ≠ [] := by simpa using hne
    rw [List.reverse_cons] at halong
    have hdrop := halong.dropLast (by simpa using houter)
    exact ⟨p, hp, by simpa using hdrop⟩

theorem Hung.write (h : b.Hung) (e : Write) : (b.write e).2.Hung := by
  have hadd (p : Part) (he : event e = add p) : (b.write e).2.Hung := by
    rw [Builder.write, he, run_add]
    cases b.refusal? with
    | some f => exact h
    | none => exact h.hang p
  have hopen (k : Bool) (he : event e = openContainer k) : (b.write e).2.Hung := by
    rw [Builder.write, he, run_openContainer]
    cases b.refusal? with
    | some f => exact h
    | none => exact h.opened k []
  have hclose (k : Bool) (he : event e = closeContainer k) : (b.write e).2.Hung := by
    rw [Builder.write, he, run_closeContainer]
    cases b.closes k with
    | true => exact h.closed
    | false => exact h
  cases e with
  | startObject => exact hopen true rfl
  | startArray => exact hopen false rfl
  | endObject => exact hclose true rfl
  | endArray => exact hclose false rfl
  | fieldName name =>
    rw [Builder.write, event, run_fieldName]
    cases b.closes true with
    | true => exact h.append (.scalar textTag name)
    | false => exact h
  | null | bool | integer | float | decimal | string => exact hadd _ rfl

/-- Whatever events a fresh builder takes, its open containers hang in the document. -/
theorem hung_writeAll (es : List Write) : (writeAll {} es).2.Hung := by
  have hrun : ∀ b : Builder, b.Hung → (b.writeAll es).2.Hung := by
    induction es with
    | nil => exact fun b h => h
    | cons e es ih =>
      intro b h
      have hwrite := h.write e
      rcases he : b.write e with ⟨_ | f, b'⟩
      · rw [he] at hwrite
        rw [writeAll_cons he]
        exact ih b' hwrite
      · rw [writeAll, he]
        rwa [he] at hwrite
  exact hrun {} fun hne => absurd rfl hne

end Builder

end WireSchema.Yaml
