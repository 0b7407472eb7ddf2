import WireSchema.Proofs.Generation.Schedules
import WireSchema.Proofs.LineDiff.Scripts
import WireSchema.Proofs.Source.Implementors

/-!
# Generated files are up to date

In whatever order targets are worked on, a run that succeeds leaves in every output file what its
schema is compiled to, and touches no other file; a check afterwards finds nothing to change. A check
itself changes nothing, and calls files stale exactly if everything compiles and an output file is
absent or different.
-/

namespace WireSchema

theorem compile_ne_nil {schema code : Text} {opt : CompileOptions}
    (h : (compile schema opt).2 = .ok code) : code ≠ [] := by
  obtain ⟨-, -, -, -, m, -, -, -, -, hgenerate⟩ :=
    compile_eq_ok_iff.mp ⟨(compile schema opt).1, Prod.ext rfl h⟩
  obtain ⟨-, package, hrender⟩ := Source.exists_of_generate hgenerate
  exact hrender ▸ Source.File.render_ne_nil _

namespace Generation

/-! ## Compiling and comparing -/

section Compiling

variable {w w' : Workspace} {t : CompileTarget} {code : Text}

def options (t : CompileTarget) : CompileOptions where
  qualifiedName := t.className
  access := t.access
  makeTypes := t.makeTypes
  source := Path.base t.input

theorem compileTarget_eq_ok_iff : (compileTarget w t).2 = .ok code ↔
    ∃ schema, w.read t.input = .ok schema ∧ (compile schema (options t)).2 = .ok code := by
  unfold compileTarget
  cases w.read t.input with
  | error e => simp
  | ok schema => simp [options]

theorem ne_nil_of_compileTarget (h : (compileTarget w t).2 = .ok code) : code ≠ [] := by
  obtain ⟨schema, -, hcompile⟩ := compileTarget_eq_ok_iff.mp h
  exact compile_ne_nil hcompile

theorem compileTarget_of_extends (h : (compileTarget w t).2 = .ok code) (hext : w.Extends w')
    (hfile : w'.fileAt? (Place.ofPath t.input) = w.fileAt? (Place.ofPath t.input)) :
    (compileTarget w' t).2 = .ok code := by
  obtain ⟨schema, hread, hcompile⟩ := compileTarget_eq_ok_iff.mp h
  exact compileTarget_eq_ok_iff.mpr ⟨schema, Workspace.read_of_extends hext hread hfile, hcompile⟩

theorem existing?_of_read {path : Text} (h : w.read path = .ok code) :
    existing? w path = .ok (some code) := by rw [existing?, h]

/-- Does the path lead to a file, or to nothing? Else there is a directory, or the way to its end is
barred. -/
def isFileOrAbsent (w : Workspace) (path : Text) : Bool :=
  match w.read path with
  | .ok _ => true
  | .error e => e.fault = .notFound

theorem exists_existing?_iff {path : Text} :
    (∃ before, existing? w path = .ok before) ↔ isFileOrAbsent w path = true := by
  unfold existing? isFileOrAbsent
  cases w.read path with
  | ok t => simp
  | error e => by_cases he : e.fault = .notFound <;> simp [he]

/-- An output file that is compared as equal to code is there. -/
theorem getD_eq_iff {path : Text} {before : Option Text} (h : existing? w path = .ok before)
    (hne : code ≠ []) : before.getD [] = code ↔ w.read path = .ok code := by
  unfold existing? at h
  cases hread : w.read path with
  | ok t =>
    rw [hread] at h
    obtain rfl := Except.ok.inj h
    simp
  | error e =>
    rw [hread] at h
    dsimp only at h
    split at h
    · obtain rfl := Except.ok.inj h
      simpa using hne.symm
    · cases h

end Compiling

/-- Every output has a place of its own, at which no schema is read. -/
structure Apart (targets : List CompileTarget) : Prop where
  outputs : (targets.map fun t => Place.ofPath t.output).Nodup
  inputs : ∀ t ∈ targets, ∀ u ∈ targets, Place.ofPath u.input ≠ Place.ofPath t.output

/-! ## Failures -/

namespace Run

/-- A run in which a target failed has failed. -/
def Honest (r : Run) : Prop := r.failure = none → ∀ x ∈ r.tasks, x.2.failure? = none

theorem honest_put {r : Run} (h : r.Honest) (i : Nat) (t : CompileTarget) (x : Workspace × Stage) :
    (r.put i t x).Honest := by
  intro hnone y hy
  have hor : r.failure = none ∧ x.2.failure? = none := by
    simp only [put] at hnone
    cases hf : r.failure with
    | none => exact ⟨rfl, by simpa [hf] using hnone⟩
    | some f => simp [hf] at hnone
  rcases List.mem_or_eq_of_mem_set hy with hy | rfl
  · exact h hor.1 y hy
  · exact hor.2

theorem honest_follow (isCheck : Bool) (w : Workspace) (targets : List CompileTarget)
    (turns : List Turn) : ((start w targets).follow isCheck turns).Honest := by
  refine follow_induct (P := Honest) ?_ ?_
  · intro q turn _ hq
    rcases take_cases isCheck q turn with
      ⟨i, t, s, w', s', -, -, -, htake⟩ | ⟨i, t, f, -, -, -, htake⟩ | ⟨htake, -⟩ | ⟨-, htake⟩
    · rw [htake]
      exact honest_put hq i t _
    · rw [htake]
      exact honest_put hq i t _
    · rwa [htake]
    · rw [htake]
      exact hq
  · intro _ x hx
    obtain ⟨t, -, rfl⟩ := List.mem_map.mp hx
    rfl

theorem exists_done {r : Run} (hhonest : r.Honest) (hover : r.isOver = true)
    (hnone : r.failure = none) {x : CompileTarget × Stage} (hx : x ∈ r.tasks) :
    ∃ p, x.2 = .done p := by
  have hrest : x.2.rest = 0 := by simpa using List.all_eq_true.mp hover x hx
  have hfailure := hhonest hnone x hx
  obtain ⟨t, s⟩ := x
  cases s with
  | done p => exact ⟨p, rfl⟩
  | failed f => cases hfailure
  | waiting => cases hrest
  | compiled code => cases hrest
  | differing code => cases hrest
  | ready code => cases hrest

theorem eq_waiting_of_start {w : Workspace} {targets : List CompileTarget} {i : Nat}
    {t : CompileTarget} {s : Stage} (h : (start w targets).tasks[i]? = some (t, s)) :
    s = .waiting := by
  obtain ⟨u, -, hu⟩ := List.mem_map.mp (List.mem_of_getElem? h)
  exact (Prod.mk.inj hu).2.symm

theorem map_fst_start (w : Workspace) (targets : List CompileTarget) :
    (start w targets).tasks.map Prod.fst = targets := by simp [start, Function.comp_def]

theorem forall_put {P : CompileTarget → Stage → Prop} {r : Run} {i : Nat} {t : CompileTarget}
    {s : Stage} (htask : r.tasks[i]? = some (t, s)) {x : Workspace × Stage} (hx : P t x.2)
    (hothers : ∀ (j : Nat) (u : CompileTarget) (su : Stage), j ≠ i → r.tasks[j]? = some (u, su) →
      P u su) (j : Nat) (u : CompileTarget) (su : Stage)
    (hu : (r.put i t x).tasks[j]? = some (u, su)) : P u su := by
  rw [getElem?_put htask] at hu
  split at hu
  · obtain ⟨rfl, rfl⟩ := Prod.mk.inj (Option.some.inj hu)
    exact hx
  · rename_i hji
    exact hothers j u su hji hu

end Run

/-! ## Generating -/

/-- What is known of a target while files are generated. -/
def Stage.Holds (w : Workspace) (t : CompileTarget) : Stage → Prop
  | .waiting | .failed _ => True
  | .compiled code | .differing code | .ready code => (compileTarget w t).2 = .ok code
  | .done p =>
    p.difference = [] ∧ (compileTarget w t).2 = .ok p.code ∧ w.read t.output = .ok p.code

theorem Stage.Holds.of_extends {w w' : Workspace} {t : CompileTarget} {s : Stage} (h : s.Holds w t)
    (hext : w.Extends w')
    (hinput : w'.fileAt? (Place.ofPath t.input) = w.fileAt? (Place.ofPath t.input))
    (houtput : w'.fileAt? (Place.ofPath t.output) = w.fileAt? (Place.ofPath t.output)) :
    s.Holds w' t := by
  cases s with
  | waiting => trivial
  | failed f => trivial
  | compiled code => exact compileTarget_of_extends h hext hinput
  | differing code => exact compileTarget_of_extends h hext hinput
  | ready code => exact compileTarget_of_extends h hext hinput
  | done p =>
    obtain ⟨hdifference, hcompile, hread⟩ := h
    exact ⟨hdifference, compileTarget_of_extends hcompile hext hinput,
      Workspace.read_of_extends hext hread houtput⟩

theorem Stage.Moves.frame {isCheck : Bool} {t : CompileTarget} {w w' : Workspace} {s s' : Stage}
    (h : Moves isCheck t w s w' s') :
    w.Extends w' ∧ ∀ p, p ≠ Place.ofPath t.output → w'.fileAt? p = w.fileAt? p := by
  cases h with
  | makes h =>
    obtain ⟨hfiles, hext⟩ := Workspace.makeDirectory_spec h
    exact ⟨hext, fun p _ => by rw [Workspace.fileAt?, hfiles, Workspace.fileAt?]⟩
  | writes h =>
    obtain ⟨-, hext, hfiles⟩ := Workspace.write_spec h
    exact ⟨hext, hfiles⟩
  | _ => exact ⟨.refl _, fun _ _ => rfl⟩

theorem Stage.Moves.holds {t : CompileTarget} {w w' : Workspace} {s s' : Stage}
    (h : Moves false t w s w' s') (houtput : t.output ≠ [])
    (hplace : Place.ofPath t.input ≠ Place.ofPath t.output) (hs : s.Holds w t) : s'.Holds w' t := by
  cases h with
  | compiles h => exact h
  | prints hempty => exact absurd hempty houtput
  | finds _ hexisting heq =>
    exact ⟨rfl, hs, (getD_eq_iff hexisting (ne_nil_of_compileTarget hs)).mp heq⟩
  | compares _ _ _ hcheck => cases hcheck
  | differs => exact hs
  | makes h =>
    obtain ⟨hfiles, hext⟩ := Workspace.makeDirectory_spec h
    exact compileTarget_of_extends hs hext (by rw [Workspace.fileAt?, hfiles, Workspace.fileAt?])
  | writes h =>
    obtain ⟨hread, hext, hfiles⟩ := Workspace.write_spec h
    exact ⟨rfl, compileTarget_of_extends hs hext (hfiles _ hplace), hread⟩
  | rests => exact hs
  | _ => trivial

namespace Run

structure Generating (w : Workspace) (targets : List CompileTarget) (r : Run) : Prop where
  order : r.tasks.map Prod.fst = targets
  stages : ∀ (i : Nat) (t : CompileTarget) (s : Stage), r.tasks[i]? = some (t, s) →
    s.Holds r.workspace t
  files : ∀ p, (∀ t ∈ targets, p ≠ Place.ofPath t.output) → r.workspace.fileAt? p = w.fileAt? p

variable {w : Workspace} {targets : List CompileTarget}

theorem mem_targets {r : Run} (h : r.tasks.map Prod.fst = targets) {i : Nat} {t : CompileTarget}
    {s : Stage} (htask : r.tasks[i]? = some (t, s)) : t ∈ targets ∧ targets[i]? = some t := by
  have hget : targets[i]? = some t := by simp [← h, htask]
  exact ⟨List.mem_of_getElem? hget, hget⟩

theorem Generating.put {r : Run} (h : r.Generating w targets)
    (houtputs : ∀ t ∈ targets, t.output ≠ []) (hapart : Apart targets) {i : Nat} {t : CompileTarget}
    {s s' : Stage} {w' : Workspace} (htask : r.tasks[i]? = some (t, s))
    (hmoves : Stage.Moves false t r.workspace s w' s') : (r.put i t (w', s')).Generating w targets := by
  obtain ⟨ht, hget⟩ := mem_targets h.order htask
  obtain ⟨hext, hframe⟩ := hmoves.frame
  refine ⟨(map_fst_put htask _).trans h.order, forall_put htask ?_ ?_, ?_⟩
  · exact hmoves.holds (houtputs t ht) (hapart.inputs t ht t ht) (h.stages i t s htask)
  · intro j u su hji hu
    obtain ⟨hu', hgetu⟩ := mem_targets h.order hu
    have hne : Place.ofPath u.output ≠ Place.ofPath t.output := by
      intro heq
      apply hji
      refine (List.getElem?_inj ?_ hapart.outputs).mp ?_
      · simpa using (List.getElem?_eq_some_iff.mp hgetu).1
      · simp [hgetu, hget, heq]
    exact (h.stages j u su hu).of_extends hext (hframe _ (hapart.inputs t ht u hu')) (hframe _ hne)
  · intro p hp
    exact (hframe p (hp t ht)).trans (h.files p hp)

theorem generating_follow (houtputs : ∀ t ∈ targets, t.output ≠ []) (hapart : Apart targets)
    (turns : List Turn) : ((start w targets).follow false turns).Generating w targets := by
  refine follow_induct (P := Generating w targets) ?_ ?_
  · intro q turn _ hq
    rcases take_cases false q turn with
      ⟨i, t, s, w', s', -, htask, hmoves, htake⟩ | ⟨i, t, f, -, htask, -, htake⟩ | ⟨htake, -⟩ |
      ⟨-, htake⟩
    · rw [htake]
      exact hq.put houtputs hapart htask hmoves
    · rw [htake]
      exact ⟨(map_fst_put htask _).trans hq.order,
        forall_put htask trivial fun j u su _ => hq.stages j u su, hq.files⟩
    · rwa [htake]
    · rw [htake]
      exact ⟨hq.order, hq.stages, hq.files⟩
  · refine ⟨map_fst_start w targets, fun i t s htask => ?_, fun _ _ => rfl⟩
    obtain rfl := eq_waiting_of_start htask
    trivial

end Run

/-! ## Checking -/

/-- What a check of a target finds: the code and what is in the output file. -/
def Found (w : Workspace) (t : CompileTarget) (code : Text) (before : Option Text) : Prop :=
  (compileTarget w t).2 = .ok code ∧ existing? w t.output = .ok before

def compared (t : CompileTarget) (code : Text) (before : Option Text) : Product :=
  ⟨t, code, if before.getD [] = code then [] else LineDiff.report (before.getD []) code⟩

/-- What is known of a target while files are checked. -/
def Stage.Checked (w : Workspace) (t : CompileTarget) : Stage → Prop
  | .waiting | .failed _ => True
  | .compiled code => (compileTarget w t).2 = .ok code
  | .differing _ | .ready _ => False
  | .done p => ∃ code before, Found w t code before ∧ p = compared t code before

/-- A turn of a check leaves the workspace as it is, and fails only if nothing can be found. -/
theorem Stage.Moves.checked {t : CompileTarget} {w w' : Workspace} {s s' : Stage}
    (h : Moves true t w s w' s') (houtput : t.output ≠ []) (hs : s.Checked w t) :
    w' = w ∧ s'.Checked w t ∧
      ((∃ code before, Found w t code before) → s.failure? = none → s'.failure? = none) := by
  cases h with
  | compiles h => exact ⟨rfl, h, fun _ _ => rfl⟩
  | rejects h =>
    refine ⟨rfl, trivial, ?_⟩
    rintro ⟨code, before, hcode, -⟩
    rw [h] at hcode
    cases hcode
  | prints hempty => exact absurd hempty houtput
  | cannotRead _ h =>
    refine ⟨rfl, trivial, ?_⟩
    rintro ⟨code, before, -, hbefore⟩
    rw [h] at hbefore
    cases hbefore
  | finds _ h heq => exact ⟨rfl, ⟨_, _, ⟨hs, h⟩, by rw [compared, if_pos heq]⟩, fun _ _ => rfl⟩
  | compares _ h hne => exact ⟨rfl, ⟨_, _, ⟨hs, h⟩, by rw [compared, if_neg hne]⟩, fun _ _ => rfl⟩
  | differs _ _ _ hcheck => cases hcheck
  | cannotMake => exact hs.elim
  | makes => exact hs.elim
  | cannotWrite => exact hs.elim
  | writes => exact hs.elim
  | rests => exact ⟨rfl, hs, fun _ h => h⟩

namespace Run

structure Checking (w : Workspace) (targets : List CompileTarget) (r : Run) : Prop where
  order : r.tasks.map Prod.fst = targets
  workspace : r.workspace = w
  stages : ∀ (i : Nat) (t : CompileTarget) (s : Stage), r.tasks[i]? = some (t, s) → s.Checked w t

variable {w : Workspace} {targets : List CompileTarget}

theorem Checking.take {q : Run} (hq : q.Checking w targets)
    (houtputs : ∀ t ∈ targets, t.output ≠ []) (turn : Turn) :
    (q.take true turn).Checking w targets := by
  rcases take_cases true q turn with
    ⟨i, t, s, w', s', -, htask, hmoves, htake⟩ | ⟨i, t, f, -, htask, -, htake⟩ | ⟨htake, -⟩ |
    ⟨-, htake⟩
  · rw [hq.workspace] at hmoves
    obtain ⟨rfl, hs', -⟩ :=
      hmoves.checked (houtputs t (mem_targets hq.order htask).1) (hq.stages i t s htask)
    rw [htake]
    exact ⟨(map_fst_put htask _).trans hq.order, rfl,
      forall_put htask hs' fun j u su _ => hq.stages j u su⟩
  · rw [htake]
    exact ⟨(map_fst_put htask _).trans hq.order, hq.workspace,
      forall_put htask trivial fun j u su _ => hq.stages j u su⟩
  · rwa [htake]
  · rw [htake]
    exact ⟨hq.order, hq.workspace, hq.stages⟩

theorem checking_start (w : Workspace) (targets : List CompileTarget) :
    (start w targets).Checking w targets := by
  refine ⟨map_fst_start w targets, rfl, fun i t s htask => ?_⟩
  obtain rfl := eq_waiting_of_start htask
  trivial

theorem checking_follow (houtputs : ∀ t ∈ targets, t.output ≠ []) (turns : List Turn) :
    ((start w targets).follow true turns).Checking w targets :=
  follow_induct (fun _ turn _ hq => hq.take houtputs turn) (checking_start w targets)

theorem failure_follow_check (houtputs : ∀ t ∈ targets, t.output ≠ [])
    (hfound : ∀ t ∈ targets, ∃ code before, Found w t code before) {turns : List Turn}
    (hcalls : .callOff ∉ turns) : ((start w targets).follow true turns).failure = none := by
  have hinvariant : ((start w targets).follow true turns).Checking w targets ∧
      ((start w targets).follow true turns).isCalledOff = false ∧
      ((start w targets).follow true turns).Honest ∧
      ((start w targets).follow true turns).failure = none := by
    refine follow_induct (P := fun q => q.Checking w targets ∧ q.isCalledOff = false ∧ q.Honest ∧
      q.failure = none) ?_ ⟨checking_start w targets, rfl, honest_follow true w targets [], rfl⟩
    rintro q turn hturn ⟨hq, hoff, hhonest, hnone⟩
    have hnext := hq.take houtputs turn
    rcases take_cases true q turn with
      ⟨i, t, s, w', s', -, htask, hmoves, htake⟩ | ⟨i, t, f, -, htask, hor, htake⟩ | ⟨htake, -⟩ |
      ⟨rfl, -⟩
    · rw [hq.workspace] at hmoves
      obtain ⟨ht, -⟩ := mem_targets hq.order htask
      obtain ⟨-, -, hfine⟩ := hmoves.checked (houtputs t ht) (hq.stages i t s htask)
      have hs' : s'.failure? = none :=
        hfine (hfound t ht) (hhonest hnone _ (List.mem_of_getElem? htask))
      rw [htake] at hnext ⊢
      exact ⟨hnext, hoff, honest_put hhonest i t _, by simp [put, hnone, hs']⟩
    · simp [hoff, hnone] at hor
    · rw [htake]
      exact ⟨hq, hoff, hhonest, hnone⟩
    · exact absurd hturn hcalls
  exact hinvariant.2.2.2

theorem products_of_check (houtputs : ∀ t ∈ targets, t.output ≠ []) {turns : List Turn}
    (hover : ((start w targets).follow true turns).isOver = true)
    (hnone : ((start w targets).follow true turns).failure = none) :
    (∀ t ∈ targets, ∃ code before, Found w t code before ∧
      compared t code before ∈
        ((start w targets).follow true turns).tasks.filterMap (·.2.product?)) ∧
    ∀ p ∈ ((start w targets).follow true turns).tasks.filterMap (·.2.product?),
      ∃ t ∈ targets, ∃ code before, Found w t code before ∧ p = compared t code before := by
  have hchecking := checking_follow (w := w) houtputs turns
  have hhonest := honest_follow true w targets turns
  generalize (start w targets).follow true turns = r at *
  have hdone : ∀ x ∈ r.tasks, ∃ code before, Found w x.1 code before ∧
      x.2 = .done (compared x.1 code before) := by
    intro x hx
    obtain ⟨p, hp⟩ := exists_done hhonest hover hnone hx
    obtain ⟨i, hi⟩ := List.getElem?_of_mem hx
    have hchecked := hchecking.stages i x.1 x.2 hi
    rw [hp] at hchecked
    obtain ⟨code, before, hfound, rfl⟩ := hchecked
    exact ⟨code, before, hfound, hp⟩
  constructor
  · intro t ht
    rw [← hchecking.order] at ht
    obtain ⟨x, hx, rfl⟩ := List.mem_map.mp ht
    obtain ⟨code, before, hfound, hstage⟩ := hdone x hx
    exact ⟨code, before, hfound, List.mem_filterMap.mpr ⟨x, hx, by rw [hstage]; rfl⟩⟩
  · intro p hp
    obtain ⟨x, hx, hproduct⟩ := List.mem_filterMap.mp hp
    obtain ⟨code, before, hfound, hstage⟩ := hdone x hx
    rw [hstage] at hproduct
    refine ⟨x.1, ?_, code, before, hfound, (Option.some.inj hproduct).symm⟩
    rw [← hchecking.order]
    exact List.mem_map_of_mem hx

end Run

/-! ## Verdicts -/

def verdict (total : Nat) : Except Failure (List Product) → Option CommandLine.RunFailure
  | .error f => some (.failure f)
  | .ok ps => if (stale ps).isEmpty then none else some (.stale (stale ps).length total)

theorem generate_eq_verdict (call : CommandLine.Call) (isCheck : Bool) (log : Log.Logger)
    (w : Workspace) (targets : List CompileTarget) :
    (CommandLine.generate call isCheck log w targets).1.workspace =
        (runTargets call.isCalledOff isCheck w targets).workspace ∧
      (CommandLine.generate call isCheck log w targets).2 =
        verdict targets.length (runTargets call.isCalledOff isCheck w targets).result := by
  unfold CommandLine.generate
  dsimp only
  cases (runTargets call.isCalledOff isCheck w targets).result with
  | error f => exact ⟨rfl, rfl⟩
  | ok ps => exact ⟨rfl, rfl⟩

theorem verdict_eq_none_iff {total : Nat} {r : Except Failure (List Product)} :
    verdict total r = none ↔ ∃ ps, r = .ok ps ∧ ∀ p ∈ ps, p.difference = [] := by
  cases r with
  | error f => simp [verdict]
  | ok ps => simp [verdict, stale]

theorem verdict_eq_stale_iff {total : Nat} {r : Except Failure (List Product)} :
    (∃ count, verdict total r = some (.stale count total)) ↔
      ∃ ps, r = .ok ps ∧ ∃ p ∈ ps, p.difference ≠ [] := by
  cases r with
  | error f => simp [verdict]
  | ok ps => simp [verdict, stale]

/-- Only a file that is absent or different is reported. -/
theorem difference_compared {w : Workspace} {t : CompileTarget} {code : Text} {before : Option Text}
    (h : Found w t code before) :
    (compared t code before).difference = [] ↔ w.read t.output = .ok code := by
  rw [← getD_eq_iff h.2 (ne_nil_of_compileTarget h.1), compared]
  constructor
  · intro hempty
    by_contra hne
    simp only [if_neg hne] at hempty
    exact LineDiff.report_ne_nil hne hempty
  · intro heq
    simp [heq]

namespace Run

variable {w : Workspace} {targets : List CompileTarget}

def verdict (r : Run) : Option CommandLine.RunFailure := Generation.verdict r.tasks.length r.result

theorem result_eq_ok_iff {r : Run} {ps : List Product} :
    r.result = .ok ps ↔ r.failure = none ∧ r.tasks.filterMap (·.2.product?) = ps := by
  unfold result
  cases r.failure <;> simp

/-- A check that is over finds nothing to change exactly if every output file holds the code. -/
theorem verdict_check_eq_none (houtputs : ∀ t ∈ targets, t.output ≠ []) {turns : List Turn}
    (hcalls : .callOff ∉ turns) (hover : ((start w targets).follow true turns).isOver = true)
    (h : ∀ t ∈ targets, ∃ code, (compileTarget w t).2 = .ok code ∧ w.read t.output = .ok code) :
    ((start w targets).follow true turns).verdict = none := by
  have hfound : ∀ t ∈ targets, ∃ code before, Found w t code before := by
    intro t ht
    obtain ⟨code, hcode, hread⟩ := h t ht
    exact ⟨code, some code, hcode, existing?_of_read hread⟩
  have hnone := failure_follow_check houtputs hfound hcalls
  refine verdict_eq_none_iff.mpr ⟨_, result_eq_ok_iff.mpr ⟨hnone, rfl⟩, fun p hp => ?_⟩
  obtain ⟨t, ht, code, before, hcompared, rfl⟩ :=
    (products_of_check houtputs hover hnone).2 p hp
  obtain ⟨code', hcode', hread⟩ := h t ht
  obtain rfl : code' = code := Except.ok.inj (hcode'.symm.trans hcompared.1)
  exact (difference_compared hcompared).mpr hread

theorem verdict_check_eq_stale_iff (houtputs : ∀ t ∈ targets, t.output ≠ []) {turns : List Turn}
    (hcalls : .callOff ∉ turns) (hover : ((start w targets).follow true turns).isOver = true) :
    (∃ count, ((start w targets).follow true turns).verdict =
        some (.stale count targets.length)) ↔
      (∀ t ∈ targets, ∃ code before, Found w t code before) ∧
        ∃ t ∈ targets, ∃ code, (compileTarget w t).2 = .ok code ∧ w.read t.output ≠ .ok code := by
  have hlength : ((start w targets).follow true turns).tasks.length = targets.length := by
    simpa [start] using congrArg List.length (map_fst_follow true (start w targets) turns)
  rw [verdict, hlength, verdict_eq_stale_iff]
  constructor
  · rintro ⟨ps, hps, p, hp, hdifference⟩
    obtain ⟨hnone, rfl⟩ := result_eq_ok_iff.mp hps
    obtain ⟨hfound, hproducts⟩ := products_of_check houtputs hover hnone
    refine ⟨fun t ht => ?_, ?_⟩
    · obtain ⟨code, before, h, -⟩ := hfound t ht
      exact ⟨code, before, h⟩
    · obtain ⟨t, ht, code, before, h, rfl⟩ := hproducts p hp
      exact ⟨t, ht, code, h.1, fun hread => hdifference ((difference_compared h).mpr hread)⟩
  · rintro ⟨hfound, t, ht, code, hcode, hread⟩
    have hnone := failure_follow_check houtputs hfound hcalls
    obtain ⟨code', before, h, hmem⟩ := (products_of_check houtputs hover hnone).1 t ht
    obtain rfl : code' = code := Except.ok.inj (h.1.symm.trans hcode)
    exact ⟨_, result_eq_ok_iff.mpr ⟨hnone, rfl⟩, _, hmem,
      fun hempty => hread ((difference_compared h).mp hempty)⟩

/-- A run that generates files and succeeds leaves every output file with the code of its target. -/
theorem generated_of_verdict (houtputs : ∀ t ∈ targets, t.output ≠ []) (hapart : Apart targets)
    {turns : List Turn} (hover : ((start w targets).follow false turns).isOver = true)
    (hnone : ((start w targets).follow false turns).verdict = none) {t : CompileTarget}
    (ht : t ∈ targets) :
    ∃ code, (compileTarget ((start w targets).follow false turns).workspace t).2 = .ok code ∧
      ((start w targets).follow false turns).workspace.read t.output = .ok code := by
  obtain ⟨ps, hps, -⟩ := verdict_eq_none_iff.mp hnone
  have hgenerating := generating_follow (w := w) houtputs hapart turns
  rw [← hgenerating.order] at ht
  obtain ⟨x, hx, rfl⟩ := List.mem_map.mp ht
  obtain ⟨p, hp⟩ :=
    exists_done (honest_follow false w targets turns) hover (result_eq_ok_iff.mp hps).1 hx
  obtain ⟨i, hi⟩ := List.getElem?_of_mem hx
  have hholds := hgenerating.stages i x.1 x.2 hi
  rw [hp] at hholds
  exact ⟨p.code, hholds.2⟩

end Run

/-- Work on targets in any order. The command does it in one of the orders, and every order in which
each target has its turns comes to an end. A run that generates files and succeeds leaves each output
file with exactly what its schema is compiled to and all other files as they were, and a check after it
succeeds and changes nothing. Any check leaves the workspace as it is. Unless it is called off, and
where outputs lead to files or to nothing, it finds files stale exactly if every schema can be read and
compiles and some output file is absent or different; elsewhere it finds no file stale. -/
theorem check_after_generation (w : Workspace) {targets : List CompileTarget}
    (houtputs : ∀ t ∈ targets, t.output ≠ []) :
    (∀ (call : CommandLine.Call) (isCheck : Bool) (log : Log.Logger),
      ∃ turns, (call.isCalledOff = false → .callOff ∉ turns) ∧
        ((Run.start w targets).follow isCheck turns).isOver = true ∧
        ((Run.start w targets).follow isCheck turns).workspace =
          (CommandLine.generate call isCheck log w targets).1.workspace ∧
        ((Run.start w targets).follow isCheck turns).verdict =
          (CommandLine.generate call isCheck log w targets).2) ∧
    (∀ isCheck turns, (∀ i < targets.length, 4 ≤ turns.count (.step i)) →
      ((Run.start w targets).follow isCheck turns).isOver = true) ∧
    (Apart targets → ∀ turns w', ((Run.start w targets).follow false turns).isOver = true →
      ((Run.start w targets).follow false turns).verdict = none →
      ((Run.start w targets).follow false turns).workspace = w' →
      (∀ t ∈ targets, ∃ schema code, w.fileAt? (Place.ofPath t.input) = some schema ∧
        (compile schema (options t)).2 = .ok code ∧
        w'.fileAt? (Place.ofPath t.output) = some code) ∧
      (∀ p, (∀ t ∈ targets, p ≠ Place.ofPath t.output) → w'.fileAt? p = w.fileAt? p) ∧
      ∀ turns', .callOff ∉ turns' → ((Run.start w' targets).follow true turns').isOver = true →
        ((Run.start w' targets).follow true turns').verdict = none ∧
        ((Run.start w' targets).follow true turns').workspace = w') ∧
    ∀ turns, ((Run.start w targets).follow true turns).workspace = w ∧
      (.callOff ∉ turns → ((Run.start w targets).follow true turns).isOver = true →
        ((∀ t ∈ targets, isFileOrAbsent w t.output = true) →
          ((∃ count, ((Run.start w targets).follow true turns).verdict =
              some (.stale count targets.length)) ↔
            (∀ t ∈ targets, ∃ code, (compileTarget w t).2 = .ok code) ∧
            ∃ t ∈ targets, ∃ code, (compileTarget w t).2 = .ok code ∧
              w.read t.output ≠ .ok code)) ∧
        ∀ count, ((Run.start w targets).follow true turns).verdict =
            some (.stale count targets.length) →
          ∀ t ∈ targets, isFileOrAbsent w t.output = true) := by
  refine ⟨?_, fun isCheck turns => Run.isOver_of_turns isCheck w, ?_, ?_⟩
  · intro call isCheck log
    obtain ⟨turns, hcalls, hover, hworkspace, hresult⟩ :=
      Run.exists_runTargets call.isCalledOff isCheck w targets
    obtain ⟨hleft, hverdict⟩ := generate_eq_verdict call isCheck log w targets
    have hlength : ((Run.start w targets).follow isCheck turns).tasks.length = targets.length := by
      simpa [Run.start] using
        congrArg List.length (Run.map_fst_follow isCheck (Run.start w targets) turns)
    refine ⟨turns, hcalls, hover, hworkspace.trans hleft.symm, ?_⟩
    rw [Run.verdict, hlength, hresult, hverdict]
  · rintro hapart turns w' hover hnone rfl
    have hfiles := (Run.generating_follow (w := w) houtputs hapart turns).files
    have hgenerated := fun t ht => Run.generated_of_verdict houtputs hapart hover hnone (t := t) ht
    refine ⟨fun t ht => ?_, hfiles, fun turns' hcalls' hover' => ⟨?_, ?_⟩⟩
    · obtain ⟨code, hcode, hread⟩ := hgenerated t ht
      obtain ⟨schema, hschema, hcompile⟩ := compileTarget_eq_ok_iff.mp hcode
      refine ⟨schema, code, ?_, hcompile, (Workspace.read_eq_ok_iff.mp hread).2⟩
      rw [← hfiles _ fun u hu => hapart.inputs u hu t ht]
      exact (Workspace.read_eq_ok_iff.mp hschema).2
    · exact Run.verdict_check_eq_none houtputs hcalls' hover' hgenerated
    · exact (Run.checking_follow houtputs turns').workspace
  · intro turns
    refine ⟨(Run.checking_follow houtputs turns).workspace, fun hcalls hover => ?_⟩
    have hstale := Run.verdict_check_eq_stale_iff houtputs hcalls hover
    simp only [Found, exists_and_left, exists_and_right, exists_existing?_iff] at hstale
    refine ⟨fun hplain => ?_, fun count hcount t ht => ((hstale.mp ⟨count, hcount⟩).1 t ht).2⟩
    rw [hstale, forall₂_and, and_iff_left hplain]

/-- Two schemas, and an output file that is out of date. -/
def shop : Workspace where
  files := [([Text.ofString "item.schema"], ":Item\n- id: long\n"),
    ([Text.ofString "part.schema"], ":Part\n"),
    ([Text.ofString "out", Text.ofString "part.go"], "old\n")]

def shopTargets : List CompileTarget :=
  [{ input := "item.schema", output := "out/item.go", className := "shop.Items" },
    { input := "part.schema", output := "./out/part.go", className := "shop.Parts" }]

/-- Turns that change between the targets. -/
def shopTurns : List Turn :=
  [.step 1, .step 0, .step 1, .step 0, .step 0, .step 1, .step 0, .step 1]

theorem check_after_generation_shop :
    (∀ t ∈ shopTargets, t.output ≠ []) ∧ Apart shopTargets ∧
      ((Run.start shop shopTargets).follow false shopTurns).isOver = true ∧
      ((Run.start shop shopTargets).follow false shopTurns).verdict = none ∧
      ((Run.start ((Run.start shop shopTargets).follow false shopTurns).workspace
        shopTargets).follow true shopTurns).verdict = none ∧
      (∀ t ∈ shopTargets, isFileOrAbsent shop t.output = true) ∧
      ((Run.start shop shopTargets).follow true shopTurns).verdict = some (.stale 2 2) ∧
      ∃ t ∈ shopTargets, ∃ code, (compileTarget shop t).2 = .ok code ∧
        shop.read t.output ≠ .ok code := by
  have houtputs : ∀ t ∈ shopTargets, t.output ≠ [] := by decide +kernel
  have hapart : Apart shopTargets := ⟨by decide +kernel, by decide +kernel⟩
  have hturns : ∀ i < shopTargets.length, 4 ≤ shopTurns.count (.step i) := by decide +kernel
  have hcalls : Turn.callOff ∉ shopTurns := by decide
  have hnone : ((Run.start shop shopTargets).follow false shopTurns).verdict = none := by
    decide +kernel
  have hplain : ∀ t ∈ shopTargets, isFileOrAbsent shop t.output = true := by decide +kernel
  have hstale : ((Run.start shop shopTargets).follow true shopTurns).verdict =
      some (.stale 2 2) := by decide +kernel
  obtain ⟨-, hends, hgenerates, hchecks⟩ := check_after_generation shop houtputs
  have hover := hends false shopTurns hturns
  have hover' := (check_after_generation
    ((Run.start shop shopTargets).follow false shopTurns).workspace houtputs).2.1 true shopTurns hturns
  have hclean := (hgenerates hapart shopTurns _ hover hnone rfl).2.2 shopTurns hcalls hover'
  have hdiffers := (((hchecks shopTurns).2 hcalls (hends true shopTurns hturns)).1 hplain).mp
    ⟨2, hstale⟩
  exact ⟨houtputs, hapart, hover, hnone, hclean.1, hplain, hstale, hdiffers.2⟩

end Generation

end WireSchema
