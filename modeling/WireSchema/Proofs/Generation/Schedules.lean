import WireSchema.CommandLine.Result
import WireSchema.Proofs.Workspace.Places

/-!
# Schedules

The targets of a run can be worked on at the same time. What is done for a target is a sequence of
accesses to the workspace: its schema is read and compiled, its output file is read, the directory for
it is made and the file is written. A schedule says whose turn it is. Working on one target after
another is one schedule among others, and every schedule in which each target has its turns comes to
an end.
-/

namespace WireSchema.Generation

/-! ## Stages of a target -/

/-- How far the work on a target has come. -/
inductive Stage where
  | waiting
  /-- The schema is compiled. -/
  | compiled (code : Text)
  /-- The output file is found to differ. -/
  | differing (code : Text)
  /-- The directory of the output file is there. -/
  | ready (code : Text)
  | done (p : Product)
  | failed (f : Failure)
  deriving DecidableEq, Repr

namespace Stage

def next (isCheck : Bool) (t : CompileTarget) (w : Workspace) : Stage → Workspace × Stage
  | .waiting =>
    match (compileTarget w t).2 with
    | .error f => (w, .failed (.context t.input f))
    | .ok code => (w, .compiled code)
  | .compiled code =>
    if t.output.isEmpty then (w, .done ⟨t, code, []⟩)
    else
      match existing? w t.output with
      | .error e => (w, .failed (.context t.input e.toFailure))
      | .ok before =>
        if before.getD [] == code then (w, .done ⟨t, code, []⟩)
        else if isCheck then (w, .done ⟨t, code, LineDiff.report (before.getD []) code⟩)
        else (w, .differing code)
  | .differing code =>
    match w.makeDirectory (Path.dir t.output) with
    | .error e => (w, .failed (.context t.input (.context "creating output dir" e.toFailure)))
    | .ok w => (w, .ready code)
  | .ready code =>
    match w.write t.output code with
    | .error e => (w, .failed (.context t.input (.context "writing output" e.toFailure)))
    | .ok w => (w, .done ⟨t, code, []⟩)
  | .done p => (w, .done p)
  | .failed f => (w, .failed f)

/-- How many turns a target needs at most. -/
def rest : Stage → Nat
  | .waiting => 4
  | .compiled _ => 3
  | .differing _ => 2
  | .ready _ => 1
  | .done _ | .failed _ => 0

/-- What a target has produced. -/
def product? : Stage → Option Product
  | .done p => some p
  | _ => none

/-- Why the work on a target failed. -/
def failure? : Stage → Option Failure
  | .failed f => some f
  | _ => none

/-- How a target ends whose work alone gives the result. -/
def ofResult (t : CompileTarget) : Except Failure Product → Stage
  | .ok p => .done p
  | .error f => .failed (.context t.input f)

/-- What one turn can do. -/
inductive Moves (isCheck : Bool) (t : CompileTarget) (w : Workspace) :
    Stage → Workspace → Stage → Prop where
  | compiles {code : Text} (h : (compileTarget w t).2 = .ok code) :
    Moves isCheck t w .waiting w (.compiled code)
  | rejects {f : Failure} (h : (compileTarget w t).2 = .error f) :
    Moves isCheck t w .waiting w (.failed (.context t.input f))
  | prints {code : Text} (houtput : t.output = []) :
    Moves isCheck t w (.compiled code) w (.done ⟨t, code, []⟩)
  | cannotRead {code : Text} {e : FileError} (houtput : t.output ≠ [])
    (h : existing? w t.output = .error e) :
    Moves isCheck t w (.compiled code) w (.failed (.context t.input e.toFailure))
  | finds {code : Text} {before : Option Text} (houtput : t.output ≠ [])
    (h : existing? w t.output = .ok before) (heq : before.getD [] = code) :
    Moves isCheck t w (.compiled code) w (.done ⟨t, code, []⟩)
  | compares {code : Text} {before : Option Text} (houtput : t.output ≠ [])
    (h : existing? w t.output = .ok before) (hne : before.getD [] ≠ code) (hcheck : isCheck = true) :
    Moves isCheck t w (.compiled code) w (.done ⟨t, code, LineDiff.report (before.getD []) code⟩)
  | differs {code : Text} {before : Option Text} (houtput : t.output ≠ [])
    (h : existing? w t.output = .ok before) (hne : before.getD [] ≠ code) (hcheck : isCheck = false) :
    Moves isCheck t w (.compiled code) w (.differing code)
  | cannotMake {code : Text} {e : FileError} (h : w.makeDirectory (Path.dir t.output) = .error e) :
    Moves isCheck t w (.differing code) w
      (.failed (.context t.input (.context "creating output dir" e.toFailure)))
  | makes {code : Text} {w' : Workspace} (h : w.makeDirectory (Path.dir t.output) = .ok w') :
    Moves isCheck t w (.differing code) w' (.ready code)
  | cannotWrite {code : Text} {e : FileError} (h : w.write t.output code = .error e) :
    Moves isCheck t w (.ready code) w
      (.failed (.context t.input (.context "writing output" e.toFailure)))
  | writes {code : Text} {w' : Workspace} (h : w.write t.output code = .ok w') :
    Moves isCheck t w (.ready code) w' (.done ⟨t, code, []⟩)
  | rests {s : Stage} (h : s.rest = 0) : Moves isCheck t w s w s

variable (isCheck : Bool) (t : CompileTarget) (w : Workspace)

theorem moves_next (s : Stage) :
    Moves isCheck t w s (s.next isCheck t w).1 (s.next isCheck t w).2 := by
  cases s with
  | waiting =>
    rw [next]
    cases h : (compileTarget w t).2 with
    | error f => exact .rejects h
    | ok code => exact .compiles h
  | compiled code =>
    rw [next]
    split
    · rename_i houtput
      exact .prints (List.isEmpty_iff.mp houtput)
    · rename_i houtput
      rw [List.isEmpty_iff] at houtput
      cases h : existing? w t.output with
      | error e => exact .cannotRead houtput h
      | ok before =>
        dsimp only
        split
        · rename_i heq
          exact .finds houtput h (eq_of_beq heq)
        · rename_i hne
          rw [beq_iff_eq] at hne
          cases isCheck with
          | true => exact .compares houtput h hne rfl
          | false => exact .differs houtput h hne rfl
  | differing code =>
    rw [next]
    cases h : w.makeDirectory (Path.dir t.output) with
    | error e => exact .cannotMake h
    | ok w' => exact .makes h
  | ready code =>
    rw [next]
    cases h : w.write t.output code with
    | error e => exact .cannotWrite h
    | ok w' => exact .writes h
  | done p => exact .rests rfl
  | failed f => exact .rests rfl

variable {isCheck t w}

theorem Moves.rest_le {s s' : Stage} {w' : Workspace} (h : Moves isCheck t w s w' s') :
    s'.rest ≤ s.rest - 1 := by
  cases h with
  | rests h => omega
  | _ => simp [rest]

theorem Moves.failure {s s' : Stage} {w' : Workspace} (h : Moves isCheck t w s w' s') {f : Failure}
    (hf : s.failure? = some f) : s' = s := by
  cases h with
  | rests h => rfl
  | _ => cases hf

variable (isCheck t w)

/-- Four turns in a row are the whole work on a target. -/
theorem iterate_next :
    (fun x : Workspace × Stage => x.2.next isCheck t x.1)^[4] (w, .waiting) =
      ((runTarget isCheck w t).workspace, ofResult t (runTarget isCheck w t).result) := by
  simp only [Function.iterate_succ, Function.iterate_zero, Function.comp_apply, id]
  rw [next]
  rcases hcompile : compileTarget w t with ⟨events, f | code⟩
  · simp only [runTarget, hcompile]
    rfl
  · simp only [runTarget, hcompile, deliver]
    rw [next]
    cases houtput : t.output.isEmpty with
    | true => rfl
    | false =>
      simp only [Bool.false_eq_true, if_false]
      cases hexisting : existing? w t.output with
      | error e => rfl
      | ok before =>
        simp only
        split
        · rfl
        · cases isCheck with
          | true => rfl
          | false =>
            simp only [Bool.false_eq_true, if_false, writeOutput]
            rw [next]
            cases hmake : w.makeDirectory (Path.dir t.output) with
            | error e => rfl
            | ok w' =>
              simp only
              rw [next]
              cases hwrite : w'.write t.output code with
              | error e => rfl
              | ok w'' => rfl

end Stage

/-! ## Runs -/

/-- A run under way: the workspace, how far each target has come, and the first failure. -/
structure Run where
  workspace : Workspace
  tasks : List (CompileTarget × Stage)
  failure : Option Failure := none
  isCalledOff : Bool := false
  deriving DecidableEq, Repr

/-- What can happen next. -/
inductive Turn where
  /-- The work on target `i` goes on. -/
  | step (i : Nat)
  /-- Target `i` is not started, because the run was called off or has failed. -/
  | giveUp (i : Nat)
  /-- The run is called off from outside. -/
  | callOff
  deriving DecidableEq, Repr

namespace Run

def start (w : Workspace) (targets : List CompileTarget) : Run where
  workspace := w
  tasks := targets.map fun t => (t, .waiting)

/-- The run after the work on target `i` has brought it to a stage. -/
def put (r : Run) (i : Nat) (t : CompileTarget) (x : Workspace × Stage) : Run :=
  { r with
    workspace := x.1
    tasks := r.tasks.set i (t, x.2)
    failure := r.failure <|> x.2.failure? }

def take (isCheck : Bool) (r : Run) : Turn → Run
  | .step i =>
    match r.tasks[i]? with
    | some (t, s) => r.put i t (s.next isCheck t r.workspace)
    | none => r
  | .giveUp i =>
    match r.tasks[i]? with
    | some (t, .waiting) =>
      if r.isCalledOff || r.failure.isSome then
        r.put i t (r.workspace, .failed (.plain "context canceled"))
      else r
    | _ => r
  | .callOff => { r with isCalledOff := true }

def follow (isCheck : Bool) (r : Run) (turns : List Turn) : Run := turns.foldl (take isCheck) r

/-- Is the work on every target at its end? -/
def isOver (r : Run) : Bool := r.tasks.all fun x => x.2.rest == 0

/-- The result of a run that is over: the first failure, or what the targets have produced. -/
def result (r : Run) : Except Failure (List Product) :=
  match r.failure with
  | some f => .error f
  | none => .ok (r.tasks.filterMap (·.2.product?))

variable {isCheck : Bool}

/-- What one turn does: a target moves, or a target that waits is given up, or nothing is done in the
workspace. -/
theorem take_cases (isCheck : Bool) (r : Run) (turn : Turn) :
    (∃ i t s w' s', turn = .step i ∧ r.tasks[i]? = some (t, s) ∧
      Stage.Moves isCheck t r.workspace s w' s' ∧ r.take isCheck turn = r.put i t (w', s')) ∨
    (∃ i t f, turn = .giveUp i ∧ r.tasks[i]? = some (t, .waiting) ∧
      (r.isCalledOff = true ∨ r.failure.isSome = true) ∧
      r.take isCheck turn = r.put i t (r.workspace, .failed f)) ∨
    (r.take isCheck turn = r ∧ turn ≠ .callOff ∧
      ∀ i, turn = .step i → r.tasks[i]? = none) ∨
    (turn = .callOff ∧ r.take isCheck turn = { r with isCalledOff := true }) := by
  cases turn with
  | step i =>
    rw [take]
    cases htask : r.tasks[i]? with
    | none => exact .inr (.inr (.inl ⟨rfl, by simp, by rintro j ⟨⟩; exact htask⟩))
    | some x =>
      obtain ⟨t, s⟩ := x
      exact .inl ⟨i, t, s, _, _, rfl, htask, s.moves_next isCheck t r.workspace, rfl⟩
  | giveUp i =>
    rw [take]
    split
    · rename_i t htask
      split
      · rename_i hoff
        exact .inr (.inl ⟨i, t, _, rfl, htask, by simpa using hoff, rfl⟩)
      · exact .inr (.inr (.inl ⟨rfl, by simp, by simp⟩))
    · exact .inr (.inr (.inl ⟨rfl, by simp, by simp⟩))
  | callOff => exact .inr (.inr (.inr ⟨rfl, rfl⟩))

/-- What every turn preserves is preserved by all turns. -/
theorem follow_induct {P : Run → Prop} {turns : List Turn} {r : Run}
    (hstep : ∀ q, ∀ turn ∈ turns, P q → P (q.take isCheck turn)) (h : P r) :
    P (r.follow isCheck turns) := by
  induction turns generalizing r with
  | nil => exact h
  | cons turn turns ih =>
    exact ih (fun q t ht => hstep q t (List.mem_cons_of_mem turn ht))
      (hstep r turn List.mem_cons_self h)

/-! ### Coming to an end -/

/-- How many turns target `i` still needs at most. -/
def restAt (r : Run) (i : Nat) : Nat := (r.tasks[i]?).elim 0 fun x => x.2.rest

theorem getElem?_put {r : Run} {i : Nat} {t t' : CompileTarget} {s : Stage}
    (h : r.tasks[i]? = some (t', s)) (x : Workspace × Stage) (j : Nat) :
    (r.put i t x).tasks[j]? = if j = i then some (t, x.2) else r.tasks[j]? := by
  have hlt := (List.getElem?_eq_some_iff.mp h).1
  rw [put, List.getElem?_set]
  by_cases hij : i = j
  · subst hij
    simp [hlt]
  · simp [hij, Ne.symm hij]

theorem restAt_take (isCheck : Bool) (r : Run) (turn : Turn) (j : Nat) :
    (r.take isCheck turn).restAt j ≤ r.restAt j - if turn = .step j then 1 else 0 := by
  rcases take_cases isCheck r turn with
    ⟨i, t, s, w', s', rfl, htask, hmoves, htake⟩ | ⟨i, t, f, rfl, htask, -, htake⟩ |
    ⟨htake, -, hnone⟩ | ⟨rfl, htake⟩
  · rw [htake, restAt, restAt, getElem?_put htask]
    by_cases hji : j = i
    · subst hji
      simpa [htask] using hmoves.rest_le
    · simp [hji, Ne.symm hji]
  · rw [htake, restAt, restAt, getElem?_put htask]
    by_cases hji : j = i
    · simp [hji, Stage.rest]
    · simp [hji]
  · rw [htake]
    split
    · rename_i hturn
      simp [restAt, hnone j hturn]
    · simp
  · rw [htake]
    simp [restAt]

theorem restAt_follow (isCheck : Bool) (r : Run) (turns : List Turn) (j : Nat) :
    (r.follow isCheck turns).restAt j ≤ r.restAt j - turns.count (.step j) := by
  induction turns generalizing r with
  | nil => simp [follow]
  | cons turn turns ih =>
    have hfirst := restAt_take isCheck r turn j
    have hothers := ih (r.take isCheck turn)
    rw [List.count_cons]
    simp only [beq_iff_eq]
    exact hothers.trans (by omega)

theorem map_fst_put {r : Run} {i : Nat} {t : CompileTarget} {s : Stage}
    (h : r.tasks[i]? = some (t, s)) (x : Workspace × Stage) :
    (r.put i t x).tasks.map Prod.fst = r.tasks.map Prod.fst := by
  have ht : (r.tasks.map Prod.fst)[i]? = some t := by simp [h]
  obtain ⟨hlt, rfl⟩ := List.getElem?_eq_some_iff.mp ht
  rw [put, List.map_set]
  exact List.set_getElem_self hlt

/-- The targets of a run stay the same. -/
theorem map_fst_follow (isCheck : Bool) (r : Run) (turns : List Turn) :
    (r.follow isCheck turns).tasks.map Prod.fst = r.tasks.map Prod.fst := by
  refine follow_induct (P := fun q => q.tasks.map Prod.fst = r.tasks.map Prod.fst) ?_ rfl
  intro q turn _ hq
  rcases take_cases isCheck q turn with
    ⟨i, t, s, w', s', -, htask, -, htake⟩ | ⟨i, t, f, -, htask, -, htake⟩ | ⟨htake, -⟩ | ⟨-, htake⟩
  · rw [htake, map_fst_put htask, hq]
  · rw [htake, map_fst_put htask, hq]
  · rw [htake, hq]
  · rw [htake]
    exact hq

theorem isOver_iff {r : Run} : r.isOver = true ↔ ∀ i, r.restAt i = 0 := by
  unfold isOver restAt
  rw [List.all_eq_true]
  constructor
  · intro h i
    cases htask : r.tasks[i]? with
    | none => rfl
    | some x => simpa using h x (List.mem_of_getElem? htask)
  · intro h x hx
    obtain ⟨i, hi⟩ := List.getElem?_of_mem hx
    simpa [hi] using h i

theorem isOver_of_turns (isCheck : Bool) (w : Workspace) {targets : List CompileTarget}
    {turns : List Turn} (h : ∀ i < targets.length, 4 ≤ turns.count (.step i)) :
    ((start w targets).follow isCheck turns).isOver = true := by
  rw [isOver_iff]
  intro i
  have hrest := restAt_follow isCheck (start w targets) turns i
  by_cases hi : i < targets.length
  · have hfour : (start w targets).restAt i = 4 := by simp [restAt, start, hi, Stage.rest]
    have := h i hi
    omega
  · have hnone : (start w targets).restAt i = 0 := by simp [restAt, start, hi]
    omega

/-! ### One target after another -/

theorem follow_append (isCheck : Bool) (r : Run) (turns turns' : List Turn) :
    r.follow isCheck (turns ++ turns') = (r.follow isCheck turns).follow isCheck turns' :=
  List.foldl_append

theorem follow_replicate (isCheck : Bool) {r : Run} {i : Nat} {t : CompileTarget} {s : Stage}
    (h : r.tasks[i]? = some (t, s)) (hs : s.failure? = none) (n : Nat) :
    r.follow isCheck (List.replicate n (.step i)) =
      r.put i t ((fun x : Workspace × Stage => x.2.next isCheck t x.1)^[n] (r.workspace, s)) := by
  induction n with
  | zero =>
    obtain ⟨hlt, hget⟩ := List.getElem?_eq_some_iff.mp h
    have htasks : r.tasks.set i (t, s) = r.tasks := by
      rw [← hget]
      exact List.set_getElem_self hlt
    simp [follow, put, htasks, hs]
  | succ n ih =>
    rw [List.replicate_succ', follow_append, ih, Function.iterate_succ_apply']
    generalize (fun x : Workspace × Stage => x.2.next isCheck t x.1)^[n] (r.workspace, s) = x
    obtain ⟨w, s'⟩ := x
    have htask : (r.put i t (w, s')).tasks[i]? = some (t, s') := by simp [getElem?_put h]
    have htake : (r.put i t (w, s')).follow isCheck [.step i] =
        (r.put i t (w, s')).put i t (s'.next isCheck t w) := by
      simp only [follow, List.foldl_cons, List.foldl_nil, take, htask]
      rfl
    rw [htake]
    have hfailure : ((r.failure <|> s'.failure?) <|> (s'.next isCheck t w).2.failure?) =
        (r.failure <|> (s'.next isCheck t w).2.failure?) := by
      cases hf : s'.failure? with
      | none => simp
      | some f =>
        have hsame := (s'.moves_next isCheck t w).failure hf
        rw [hsame, hf]
        cases r.failure <;> rfl
    simp only [put, List.set_set, hfailure]

/-- The tasks after `before` are `after`, and they are at their ends. -/
structure OverFrom (r : Run) (before after : List (CompileTarget × Stage)) : Prop where
  tasks : r.tasks = before ++ after
  rest : ∀ x ∈ after, x.2.rest = 0

theorem OverFrom.cons {r : Run} {before after : List (CompileTarget × Stage)}
    {x : CompileTarget × Stage} (h : r.OverFrom (before ++ [x]) after) (hx : x.2.rest = 0) :
    r.OverFrom before (x :: after) where
  tasks := by rw [h.tasks, List.append_assoc, List.singleton_append]
  rest := List.forall_mem_cons.mpr ⟨hx, h.rest⟩

theorem OverFrom.isOver {r : Run} {after : List (CompileTarget × Stage)} (h : r.OverFrom [] after) :
    r.isOver = true := by
  rw [Run.isOver, h.tasks, List.nil_append, List.all_eq_true]
  exact fun x hx => beq_iff_eq.mpr (h.rest x hx)

theorem exists_giveUp (isCheck : Bool) (ts : List CompileTarget) {r : Run}
    {before : List (CompileTarget × Stage)}
    (htasks : r.tasks = before ++ ts.map fun t => (t, .waiting))
    (hoff : r.isCalledOff = true ∨ r.failure.isSome = true) :
    ∃ turns, .callOff ∉ turns ∧ (r.follow isCheck turns).workspace = r.workspace ∧
      (r.follow isCheck turns).failure =
        (r.failure <|> if ts.isEmpty then none else some (.plain "context canceled")) ∧
      ∃ after, (r.follow isCheck turns).OverFrom before after := by
  induction ts generalizing r before with
  | nil => exact ⟨[], by simp, rfl, by simp [follow], [], by simpa [follow] using htasks, by simp⟩
  | cons t ts ih =>
    have htask : r.tasks[before.length]? = some (t, .waiting) := by simp [htasks]
    have htake : r.take isCheck (.giveUp before.length) =
        r.put before.length t (r.workspace, .failed (.plain "context canceled")) := by
      simp only [take, htask]
      exact if_pos (by simpa using hoff)
    have htasks' : (r.take isCheck (.giveUp before.length)).tasks =
        (before ++ [(t, .failed (.plain "context canceled"))]) ++ ts.map fun t => (t, .waiting) := by
      rw [htake, put, htasks]
      simp
    have hoff' : (r.take isCheck (.giveUp before.length)).isCalledOff = true ∨
        (r.take isCheck (.giveUp before.length)).failure.isSome = true := by
      rw [htake]
      cases hf : r.failure <;> simp [put, hf, Stage.failure?]
    obtain ⟨turns, hcalls, hworkspace, hfailure, after, hover⟩ := ih htasks' hoff'
    refine ⟨.giveUp before.length :: turns, by simpa using hcalls, ?_, ?_,
      (t, .failed (.plain "context canceled")) :: after, hover.cons rfl⟩
    · rw [follow, List.foldl_cons]
      exact hworkspace.trans (by rw [htake]; rfl)
    · rw [follow, List.foldl_cons]
      refine hfailure.trans ?_
      rw [htake]
      cases hf : r.failure <;> simp [put, hf, Stage.failure?]

theorem runTargets_cons_error {t : CompileTarget} {f : Failure} {w : Workspace}
    (h : (runTarget isCheck w t).result = .error f) (ts : List CompileTarget) :
    (runTargets false isCheck w (t :: ts)).workspace = (runTarget isCheck w t).workspace ∧
      (runTargets false isCheck w (t :: ts)).result = .error (.context t.input f) := by
  rw [runTargets, if_neg Bool.false_ne_true]
  dsimp only
  rw [h]
  exact ⟨rfl, rfl⟩

theorem runTargets_cons_ok {t : CompileTarget} {p : Product} {w : Workspace}
    (h : (runTarget isCheck w t).result = .ok p) (ts : List CompileTarget) :
    (runTargets false isCheck w (t :: ts)).workspace =
        (runTargets false isCheck (runTarget isCheck w t).workspace ts).workspace ∧
      (runTargets false isCheck w (t :: ts)).result =
        (runTargets false isCheck (runTarget isCheck w t).workspace ts).result.map (p :: ·) := by
  rw [runTargets, if_neg Bool.false_ne_true]
  dsimp only
  rw [h]
  exact ⟨rfl, rfl⟩

/-- With four turns the next target that waits is brought to its end. -/
theorem follow_waiting (isCheck : Bool) {r : Run} {before later : List (CompileTarget × Stage)}
    {t : CompileTarget} (htasks : r.tasks = before ++ (t, .waiting) :: later)
    (hfailure : r.failure = none) :
    r.follow isCheck (List.replicate 4 (.step before.length)) =
      { r with
        workspace := (runTarget isCheck r.workspace t).workspace
        tasks := before ++ [(t, .ofResult t (runTarget isCheck r.workspace t).result)] ++ later
        failure := (Stage.ofResult t (runTarget isCheck r.workspace t).result).failure? } := by
  have htask : r.tasks[before.length]? = some (t, .waiting) := by simp [htasks]
  rw [follow_replicate isCheck htask rfl, Stage.iterate_next, put, htasks, hfailure]
  simp

/-- The tasks after `before` are at their ends, and the run of them alone would have the result. -/
structure EndsWith (r : Run) (before : List (CompileTarget × Stage))
    (after : List (CompileTarget × Stage)) (result : Except Failure (List Product)) : Prop
    extends r.OverFrom before after where
  result : ({ r with tasks := after } : Run).result = result

theorem EndsWith.cons_done {r : Run} {before after : List (CompileTarget × Stage)}
    {t : CompileTarget} {p : Product} {result : Except Failure (List Product)}
    (h : r.EndsWith (before ++ [(t, .done p)]) after result) :
    r.EndsWith before ((t, .done p) :: after) (result.map (p :: ·)) where
  toOverFrom := h.toOverFrom.cons rfl
  result := by
    rw [← h.result, Run.result, Run.result]
    cases r.failure <;> rfl

/-- Working on one target after another is a schedule. -/
theorem exists_inOrder (isCheck : Bool) (ts : List CompileTarget) {r : Run}
    {before : List (CompileTarget × Stage)}
    (htasks : r.tasks = before ++ ts.map fun t => (t, .waiting)) (hfailure : r.failure = none) :
    ∃ turns, .callOff ∉ turns ∧ (r.follow isCheck turns).workspace =
        (runTargets false isCheck r.workspace ts).workspace ∧
      ∃ after, (r.follow isCheck turns).EndsWith before after
        (runTargets false isCheck r.workspace ts).result := by
  induction ts generalizing r before with
  | nil =>
    refine ⟨[], by simp, rfl, [], ⟨by simpa [follow] using htasks, by simp⟩, ?_⟩
    simp [follow, Run.result, hfailure, runTargets]
  | cons t ts ih =>
    have hfour := follow_waiting isCheck htasks hfailure
    cases hresult : (runTarget isCheck r.workspace t).result with
    | error f =>
      -- the others are given up
      rw [hresult] at hfour
      obtain ⟨hlast, herror⟩ := runTargets_cons_error hresult ts
      obtain ⟨turns, hcalls, hworkspace, hfailed, after, hover⟩ :=
        exists_giveUp isCheck ts (congrArg Run.tasks hfour) (.inr (by rw [hfour]; rfl))
      refine ⟨List.replicate 4 (.step before.length) ++ turns, by simp [hcalls], ?_,
        (t, .ofResult t (.error f)) :: after, ?_⟩
      · rw [follow_append, hworkspace, hlast, hfour]
      · rw [follow_append, herror]
        refine ⟨hover.cons rfl, ?_⟩
        rw [Run.result, hfailed, hfour]
        rfl
    | ok p =>
      rw [hresult] at hfour
      obtain ⟨hlast, hmap⟩ := runTargets_cons_ok hresult ts
      obtain ⟨turns, hcalls, hworkspace, after, hends⟩ :=
        ih (congrArg Run.tasks hfour) (congrArg Run.failure hfour)
      have hnext : (r.follow isCheck (List.replicate 4 (.step before.length))).workspace =
          (runTarget isCheck r.workspace t).workspace := congrArg Run.workspace hfour
      rw [hnext] at hworkspace hends
      refine ⟨List.replicate 4 (.step before.length) ++ turns, by simp [hcalls], ?_,
        (t, .done p) :: after, ?_⟩
      · rw [follow_append, hworkspace, hlast]
      · rw [follow_append, hmap]
        exact hends.cons_done

theorem exists_runTargets (isCalledOff isCheck : Bool) (w : Workspace)
    (targets : List CompileTarget) :
    ∃ turns, (isCalledOff = false → .callOff ∉ turns) ∧
      ((start w targets).follow isCheck turns).isOver = true ∧
      ((start w targets).follow isCheck turns).workspace =
        (runTargets isCalledOff isCheck w targets).workspace ∧
      ((start w targets).follow isCheck turns).result =
        (runTargets isCalledOff isCheck w targets).result := by
  have htasks : (start w targets).tasks = [] ++ targets.map fun t => (t, .waiting) := rfl
  cases isCalledOff with
  | false =>
    obtain ⟨turns, hcalls, hworkspace, after, hends⟩ := exists_inOrder isCheck targets htasks rfl
    refine ⟨turns, fun _ => hcalls, hends.isOver, hworkspace, Eq.trans ?_ hends.result⟩
    rw [result, result, hends.tasks, List.nil_append]
  | true =>
    cases targets with
    | nil => exact ⟨[], by simp, rfl, rfl, rfl⟩
    | cons t targets =>
      obtain ⟨turns, -, hworkspace, hfailed, after, hover⟩ :=
        exists_giveUp isCheck (t :: targets) (r := (start w (t :: targets)).take isCheck .callOff)
          htasks (.inl rfl)
      refine ⟨.callOff :: turns, by simp, ?_, ?_, ?_⟩
      · rw [follow, List.foldl_cons, ← follow, hover.isOver]
      · rw [follow, List.foldl_cons, ← follow, hworkspace]
        rfl
      · rw [follow, List.foldl_cons, ← follow, result, hfailed]
        rfl

end Run

end WireSchema.Generation
