import Mathlib.Data.List.Nodup
import Mathlib.Data.List.Perm.Subperm
import Mathlib.Logic.Function.Iterate
import WireSchema.Proofs.Yaml.Numbering

/-!
# The walk ends within its bounds

`Walk.node` recurs on a fuel. Here the same walk is a machine that has none: it is either about to enter
a node or inside the nodes of a path, of which it keeps what is left to write. On a well-formed tree the
nodes of the path are distinct, so the path is no longer than the tree has nodes, and the machine ends
where `Walk.node` does. A node is entered only within the budget; past that, each node of the path still
owes one token at most.
-/

namespace WireSchema.Yaml

def Node.key? : Node → Option (Nat × Text)
  | .scalar _ line _ _ name => some (line, name)
  | _ => none

namespace Walk

/-- Where a walk stands. A path is innermost first, and its nodes hold only what is left of them. -/
inductive State where
  | entering (n : Node) (path : List Node) (w : Walk)
  | inside (path : List Node) (w : Walk)
  | stopped (failure : Option Failure) (w : Walk)

namespace State

/-- The nodes around the place where the walk stands. -/
def path : State → List Node
  | .entering _ path _ | .inside path _ => path
  | .stopped .. => []

/-- What has been written. -/
def walk : State → Walk
  | .entering _ _ w | .inside _ w | .stopped _ w => w

def entered (n : Node) (path : List Node) (w : Walk) : State :=
  match n with
  | .scalar .. => .inside (n :: path) w
  | .sequence _ line .. => .inside (n :: path) (w.emit line .beginArray)
  | .mapping _ line .. => .inside (n :: path) (w.emit line .beginObject)
  | .alias .. => .entering (w.resolve n) (n :: path) w

/-- Enters a node if it may, or goes on with the innermost one. -/
def step : State → State
  | .entering n path w =>
    if (path.map Node.number).contains n.number then .stopped (some (.aliasCycle n.line)) w
    else if w.budget < w.count then .stopped (some (.aliasExpansion w.budget n.line)) w
    else entered n path w
  | .inside [] w => .stopped none w
  | .inside (n :: path) w =>
    match n with
    | .scalar _ line tag style value =>
      match scalarToken tag style value with
      | .ok t => .inside path (w.emit line t)
      | .error f => .stopped (some f) w
    | .sequence _ line _ [] => .inside path (w.emit line .endArray)
    | .sequence number line tag (item :: rest) =>
      .entering item (.sequence number line tag rest :: path) w
    | .mapping _ line _ [] => .inside path (w.emit line .endObject)
    | .mapping number line tag ((k, v) :: rest) =>
      match (w.resolve k).key? with
      | some (keyLine, name) =>
        .entering v (.mapping number line tag rest :: path) (w.emit keyLine (.key name))
      | none => .stopped (some (.compoundKey (w.resolve k).line)) w
    | .alias .. => .inside path w
  | .stopped failure w => .stopped failure w

variable {n : Node} {path : List Node} {w : Walk}

theorem step_active (h : n.number ∈ path.map Node.number) :
    step (.entering n path w) = .stopped (some (.aliasCycle n.line)) w :=
  if_pos (List.contains_iff_mem.mpr h)

theorem step_overdrawn (h : n.number ∉ path.map Node.number) (hbudget : w.budget < w.count) :
    step (.entering n path w) = .stopped (some (.aliasExpansion w.budget n.line)) w :=
  (if_neg (by simpa using h)).trans (if_pos hbudget)

theorem step_entered (h : n.number ∉ path.map Node.number) (hbudget : w.count ≤ w.budget) :
    step (.entering n path w) = entered n path w :=
  (if_neg (by simpa using h)).trans (if_neg (by omega))

end State

/-! ## The path -/

/-- The nodes of the path are distinct nodes of the tree, and so are those that are left of them. -/
structure Along (root : Node) (path : List Node) : Prop where
  nodup : (path.map Node.number).Nodup
  lt : ∀ f ∈ path, f.number < root.preorder.length
  parts : ∀ f ∈ path, ∀ n ∈ f.parts, n ∈ root.preorder

namespace Along

variable {root f f' n : Node} {path : List Node}

theorem nil : Along root [] := ⟨by simp, by simp, by simp⟩

theorem push (h : Along root path) (hroot : root.WellFormed) (hn : n ∈ root.preorder)
    (hnew : n.number ∉ path.map Node.number) : Along root (n :: path) := by
  refine ⟨?_, ?_, ?_⟩
  · exact List.nodup_cons.mpr ⟨hnew, h.nodup⟩
  · exact List.forall_mem_cons.mpr ⟨hroot.number_lt hn, h.lt⟩
  · exact List.forall_mem_cons.mpr ⟨fun _ => Node.mem_preorder_of_part hn, h.parts⟩

theorem pop (h : Along root (f :: path)) : Along root path :=
  ⟨h.nodup.of_cons, fun n hn => h.lt n (.tail _ hn), fun n hn => h.parts n (.tail _ hn)⟩

/-- Less is left of the innermost node. -/
theorem rest (h : Along root (f :: path)) (hnumber : f'.number = f.number)
    (hparts : f'.parts ⊆ f.parts) : Along root (f' :: path) := by
  refine ⟨?_, ?_, ?_⟩
  · simpa [hnumber] using h.nodup
  · refine List.forall_mem_cons.mpr ⟨hnumber ▸ h.lt f (.head _), h.pop.lt⟩
  · exact List.forall_mem_cons.mpr ⟨fun n hn => h.parts f (.head _) n (hparts hn), h.pop.parts⟩

theorem length_le (h : Along root path) : path.length ≤ root.preorder.length := by
  have hsub : path.map Node.number ⊆ List.range root.preorder.length := by
    intro i hi
    obtain ⟨f, hf, rfl⟩ := List.mem_map.mp hi
    exact List.mem_range.mpr (h.lt f hf)
  simpa using (List.subperm_of_subset h.nodup hsub).length_le

end Along

theorem resolve_mem {root n : Node} {w : Walk} (hnodes : w.nodes = root.all)
    (hn : n ∈ root.preorder) : w.resolve n ∈ root.preorder := by
  cases n with
  | «alias» number line target =>
    rw [resolve, hnodes, Node.all_eq, List.getElem?_toArray]
    cases h : root.preorder[target]? with
    | none => exact hn
    | some m => exact List.mem_of_getElem? h
  | _ => exact hn

/-! ## The recursion, step by step -/

section Recursion

/-- Goes on after what has not failed. -/
def andThen (r : Option Failure × Walk) (f : Walk → Option Failure × Walk) : Option Failure × Walk :=
  match r with
  | (none, w) => f w
  | stopped => stopped

def contents (fuel : Nat) (active : List Nat) (n : Node) (w : Walk) : Option Failure × Walk :=
  match n with
  | .scalar _ line tag style value =>
    match scalarToken tag style value with
    | .ok t => (none, w.emit line t)
    | .error f => (some f, w)
  | .sequence _ line _ list =>
    andThen (items fuel active list (w.emit line .beginArray)) fun w => (none, w.emit line .endArray)
  | .mapping _ line _ list =>
    andThen (entries fuel active list (w.emit line .beginObject)) fun w => (none, w.emit line .endObject)
  | .alias .. => node fuel active (w.resolve n) w

variable {fuel : Nat} {active : List Nat} {n k v : Node} {w : Walk}

theorem node_active (h : n.number ∈ active) :
    node fuel active n w = (some (.aliasCycle n.line), w) := by
  rw [node.eq_def, if_pos (List.contains_iff_mem.mpr h)]

theorem node_overdrawn (h : n.number ∉ active) (hbudget : w.budget < w.count) :
    node fuel active n w = (some (.aliasExpansion w.budget n.line), w) := by
  rw [node.eq_def, if_neg (by simpa using h), if_pos hbudget]

theorem node_entered (h : n.number ∉ active) (hbudget : w.count ≤ w.budget) :
    node (fuel + 1) active n w = contents fuel (n.number :: active) n w := by
  rw [node, if_neg (by simpa using h), if_neg (by omega)]
  cases n <;> rfl

theorem items_cons (rest : List Node) : items fuel active (n :: rest) w =
    andThen (node fuel active n w) (items fuel active rest) := by
  rw [items]
  rfl

theorem entries_key {line : Nat} {name : Text} (h : (w.resolve k).key? = some (line, name))
    (rest : List (Node × Node)) : entries fuel active ((k, v) :: rest) w =
      andThen (node fuel active v (w.emit line (.key name))) (entries fuel active rest) := by
  rw [entries]
  cases hk : w.resolve k <;> rw [hk] at h <;> cases h
  rfl

theorem entries_compound (h : (w.resolve k).key? = none) (rest : List (Node × Node)) :
    entries fuel active ((k, v) :: rest) w = (some (.compoundKey (w.resolve k).line), w) := by
  rw [entries]
  cases hk : w.resolve k <;> rw [hk] at h
  cases h

theorem andThen_assoc (r : Option Failure × Walk) (f g : Walk → Option Failure × Walk) :
    andThen (andThen r f) g = andThen r fun w => andThen (f w) g := by
  rcases r with ⟨_ | _, w⟩ <;> rfl

theorem andThen_eq_none_iff {r : Option Failure × Walk} {f : Walk → Option Failure × Walk} :
    andThen r f = (none, w) ↔ ∃ w', r = (none, w') ∧ f w' = (none, w) := by
  rcases r with ⟨_ | failure, w'⟩ <;> simp [andThen]

/-- Writes tokens in order. -/
def append (w : Walk) (l : List Located) : Walk :=
  { w with tokens := l.reverse ++ w.tokens, count := w.count + l.length }

theorem append_nil (w : Walk) : w.append [] = w := rfl

theorem append_append (w : Walk) (l l' : List Located) :
    (w.append l).append l' = w.append (l ++ l') := by
  simp [append, Nat.add_assoc]

theorem emit_eq (w : Walk) (line : Nat) (t : Token) : w.emit line t = w.append [⟨t, line⟩] := rfl

theorem andThen_appends {r : Option Failure × Walk} {f : Walk → Option Failure × Walk}
    (hr : ∃ l, r.2 = w.append l) (hf : ∀ w', ∃ l, (f w').2 = w'.append l) :
    ∃ l, (andThen r f).2 = w.append l := by
  obtain ⟨l, hl⟩ := hr
  rcases r with ⟨_ | failure, w'⟩
  · obtain ⟨l', hl'⟩ := hf w'
    exact ⟨l ++ l', by rw [andThen, hl', show w' = _ from hl, append_append]⟩
  · exact ⟨l, hl⟩

theorem items_appends (hnode : ∀ n w, ∃ l, (node fuel active n w).2 = w.append l)
    (list : List Node) (w : Walk) : ∃ l, (items fuel active list w).2 = w.append l := by
  induction list generalizing w with
  | nil => exact ⟨[], by rw [items, append_nil]⟩
  | cons n rest ih =>
    rw [items_cons]
    exact andThen_appends (hnode n w) ih

theorem entries_appends (hnode : ∀ n w, ∃ l, (node fuel active n w).2 = w.append l)
    (list : List (Node × Node)) (w : Walk) : ∃ l, (entries fuel active list w).2 = w.append l := by
  induction list generalizing w with
  | nil => exact ⟨[], by rw [entries, append_nil]⟩
  | cons e rest ih =>
    cases hkey : (w.resolve e.1).key? with
    | none => exact ⟨[], by rw [entries_compound hkey, append_nil]⟩
    | some key =>
      rw [entries_key hkey]
      refine andThen_appends ?_ ih
      obtain ⟨l, hl⟩ := hnode e.2 (w.emit key.1 (.key key.2))
      exact ⟨_ :: l, by rw [hl, emit_eq, append_append, List.singleton_append]⟩

theorem container_appends {line : Nat} {t t' : Token} {r : Option Failure × Walk}
    (h : ∃ l, r.2 = (w.emit line t).append l) :
    ∃ l, (andThen r fun w => (none, w.emit line t')).2 = w.append l := by
  refine andThen_appends ?_ fun w' => ⟨_, emit_eq w' line t'⟩
  obtain ⟨l, hl⟩ := h
  exact ⟨_ :: l, by rw [hl, emit_eq, append_append, List.singleton_append]⟩

theorem node_appends (fuel : Nat) (active : List Nat) (n : Node) (w : Walk) :
    ∃ l, (node fuel active n w).2 = w.append l := by
  induction fuel generalizing active n w with
  | zero =>
    refine ⟨[], ?_⟩
    rw [node, append_nil]
    split_ifs <;> rfl
  | succ fuel ih =>
    by_cases hactive : n.number ∈ active
    · exact ⟨[], by rw [node_active hactive, append_nil]⟩
    by_cases hbudget : w.budget < w.count
    · exact ⟨[], by rw [node_overdrawn hactive hbudget, append_nil]⟩
    rw [node_entered hactive (by omega)]
    cases n with
    | scalar number line tag style value =>
      rw [contents]
      split
      · exact ⟨_, emit_eq w line _⟩
      · exact ⟨[], rfl⟩
    | sequence number line tag list => exact container_appends (items_appends (ih _) list _)
    | mapping number line tag list => exact container_appends (entries_appends (ih _) list _)
    | «alias» => exact ih _ _ w

theorem nodes_of_node {f : Option Failure} {w' : Walk} (h : node fuel active n w = (f, w')) :
    w'.nodes = w.nodes := by
  obtain ⟨l, hl⟩ := node_appends fuel active n w
  obtain rfl : w' = w.append l := by rw [← hl, h]
  rfl

end Recursion

/-! ## The machine and the recursion -/

/-- Where the machine stands after a node of the path was written. -/
def State.after (path : List Node) : Option Failure × Walk → State
  | (none, w) => .inside path w
  | (some f, w) => .stopped (some f) w

/-- The machine comes from one state to another. -/
def Reaches (s t : State) : Prop := ∃ k, State.step^[k] s = t

namespace Reaches

open State

variable {s t u : State} {path path' : List Node} {r : Option Failure × Walk}
  {f : Walk → Option Failure × Walk}

theorem refl : Reaches s s := ⟨0, rfl⟩

theorem of_step (h : Reaches s.step t) : Reaches s t := by
  obtain ⟨k, rfl⟩ := h
  exact ⟨k + 1, rfl⟩

theorem trans (h : Reaches s t) (h' : Reaches t u) : Reaches s u := by
  obtain ⟨k, rfl⟩ := h
  obtain ⟨k', rfl⟩ := h'
  exact ⟨k' + k, Function.iterate_add_apply ..⟩

theorem andThen (hr : Reaches s (after path' r))
    (hf : ∀ w, r = (none, w) → Reaches (.inside path' w) (after path (f w))) :
    Reaches s (after path (Walk.andThen r f)) := by
  rcases r with ⟨_ | failure, w⟩
  · exact hr.trans (hf w rfl)
  · exact hr

theorem leave {number line target : Nat}
    (h : Reaches s (after (.alias number line target :: path) r)) : Reaches s (after path r) := by
  rcases r with ⟨_ | failure, w⟩
  · exact h.trans (.of_step .refl)
  · exact h

end Reaches

section Machine

open State

variable {root : Node} {fuel : Nat}

/-- The machine enters a node and leaves it as the recursion does. -/
def Follows (root : Node) (fuel : Nat) : Prop :=
  ∀ n path w, Along root path → fuel + path.length = root.preorder.length + 1 →
    n ∈ root.preorder → w.nodes = root.all →
    Reaches (.entering n path w) (after path (node fuel (path.map Node.number) n w))

theorem follows_items (h : Follows root fuel) {number line : Nat} {tag : Text}
    {list path : List Node} {w : Walk} (hpath : Along root (.sequence number line tag list :: path))
    (hfuel : fuel + path.length = root.preorder.length) (hnodes : w.nodes = root.all) :
    Reaches (.inside (.sequence number line tag list :: path) w)
      (after path (andThen (items fuel (number :: path.map Node.number) list w)
        fun w => (none, w.emit line .endArray))) := by
  induction list generalizing w with
  | nil =>
    rw [items]
    exact .of_step .refl
  | cons n rest ih =>
    have hrest : Along root (.sequence number line tag rest :: path) :=
      hpath.rest rfl (List.subset_cons_self ..)
    have hn : n ∈ root.preorder := hpath.parts _ (.head _) n (.head _)
    rw [items_cons, andThen_assoc]
    refine .of_step (.andThen (h n _ w hrest (by simp; omega) hn hnodes) ?_)
    intro w' hw'
    exact ih hrest ((nodes_of_node hw').trans hnodes)

theorem follows_entries (h : Follows root fuel) {number line : Nat} {tag : Text}
    {list : List (Node × Node)} {path : List Node} {w : Walk}
    (hpath : Along root (.mapping number line tag list :: path))
    (hfuel : fuel + path.length = root.preorder.length) (hnodes : w.nodes = root.all) :
    Reaches (.inside (.mapping number line tag list :: path) w)
      (after path (andThen (entries fuel (number :: path.map Node.number) list w)
        fun w => (none, w.emit line .endObject))) := by
  induction list generalizing w with
  | nil =>
    rw [entries]
    exact .of_step .refl
  | cons e rest ih =>
    obtain ⟨k, v⟩ := e
    have hrest : Along root (.mapping number line tag rest :: path) :=
      hpath.rest rfl (List.subset_cons_self ..)
    have hv : v ∈ root.preorder := hpath.parts _ (.head _) v (.head _)
    cases hkey : (w.resolve k).key? with
    | none =>
      rw [entries_compound hkey]
      refine .of_step ?_
      simp only [step, hkey]
      exact .refl
    | some key =>
      obtain ⟨keyLine, name⟩ := key
      rw [entries_key hkey, andThen_assoc]
      refine .of_step ?_
      simp only [step, hkey]
      refine .andThen (h v _ _ hrest (by simp; omega) hv hnodes) ?_
      intro w' hw'
      exact ih hrest ((nodes_of_node hw').trans hnodes)

/-- The nodes of a path are distinct, so that the fuel lasts. -/
theorem follows (hroot : root.WellFormed) (fuel : Nat) : Follows root fuel := by
  induction fuel with
  | zero =>
    intro n path w hpath hfuel hn hnodes
    have := hpath.length_le
    omega
  | succ fuel ih =>
    intro n path w hpath hfuel hn hnodes
    by_cases hactive : n.number ∈ path.map Node.number
    · rw [node_active hactive]
      refine .of_step ?_
      rw [step_active hactive]
      exact .refl
    by_cases hbudget : w.budget < w.count
    · rw [node_overdrawn hactive hbudget]
      refine .of_step ?_
      rw [step_overdrawn hactive hbudget]
      exact .refl
    have hpush : Along root (n :: path) := hpath.push hroot hn hactive
    have hbudget : w.count ≤ w.budget := by omega
    rw [node_entered hactive hbudget]
    refine .of_step ?_
    rw [step_entered hactive hbudget]
    cases n with
    | scalar number line tag style value =>
      refine .of_step ?_
      rw [contents, entered, step]
      split <;> exact .refl
    | sequence number line tag list => exact follows_items ih hpush (by omega) hnodes
    | mapping number line tag list => exact follows_entries ih hpush (by omega) hnodes
    | «alias» number line target =>
      have htarget := ih _ _ w hpush (by simp; omega) (resolve_mem hnodes hn) hnodes
      exact htarget.leave

end Machine

/-! ## What a run keeps -/

/-- A walk over a tree, before it has begun. -/
def start (root : Node) : Walk :=
  { nodes := root.all, budget := max 65536 (16 * root.all.size) }

/-- The walk knows the nodes of the tree and its budget, and counts its tokens. -/
structure Begun (root : Node) (w : Walk) : Prop where
  nodes : w.nodes = root.all
  budget : w.budget = (start root).budget
  count : w.count = w.tokens.length

theorem Begun.emit {root : Node} {w : Walk} (h : Begun root w) (line : Nat) (t : Token) :
    Begun root (w.emit line t) :=
  ⟨h.nodes, h.budget, by simp [Walk.emit, h.count]⟩

namespace State

/-- The tokens that are written and those that the path owes are within the bounds. -/
def Within (root : Node) : State → Prop
  | .entering n path w => Along root path ∧ Begun root w ∧ n ∈ root.preorder ∧
    w.count + path.length ≤ (start root).budget + root.preorder.length + 2
  | .inside path w => Along root path ∧ Begun root w ∧
    w.count + path.length ≤ (start root).budget + root.preorder.length + 1
  | .stopped _ w => Begun root w ∧ w.count ≤ (start root).budget + root.preorder.length + 2

variable {root n : Node} {path : List Node} {w : Walk}

/-- A node is entered within the budget, and the path is no longer than the tree has nodes. -/
theorem within_entered (hpath : Along root (n :: path)) (hw : Begun root w)
    (hn : n ∈ root.preorder) (hbudget : w.count ≤ w.budget) : (entered n path w).Within root := by
  have hlength := hpath.length_le
  rw [hw.budget] at hbudget
  cases n with
  | scalar => exact ⟨hpath, hw, by omega⟩
  | sequence | mapping => exact ⟨hpath, hw.emit _ _, by simp only [emit]; omega⟩
  | «alias» => exact ⟨hpath, hw, resolve_mem hw.nodes hn, by omega⟩

theorem within_inside (hpath : Along root (n :: path)) (hw : Begun root w)
    (hcount : w.count + (n :: path).length ≤ (start root).budget + root.preorder.length + 1) :
    (step (.inside (n :: path) w)).Within root := by
  rw [List.length_cons] at hcount
  have hemit (line : Nat) (t : Token) : (inside path (w.emit line t)).Within root :=
    ⟨hpath.pop, hw.emit _ _, by simp only [emit]; omega⟩
  have hstop (f : Failure) : (stopped (some f) w).Within root := ⟨hw, by omega⟩
  match n with
  | .scalar _ line tag style value =>
    rw [step]
    split
    · exact hemit _ _
    · exact hstop _
  | .sequence _ line _ [] => exact hemit _ _
  | .sequence number line tag (item :: rest) =>
    refine ⟨hpath.rest rfl (List.subset_cons_self ..), hw, ?_, by rw [List.length_cons]; omega⟩
    exact hpath.parts _ (.head _) _ (.head _)
  | .mapping _ line _ [] => exact hemit _ _
  | .mapping number line tag ((k, v) :: rest) =>
    rw [step]
    split
    · refine ⟨hpath.rest rfl (List.subset_cons_self ..), hw.emit _ _, ?_, ?_⟩
      · exact hpath.parts _ (.head _) _ (.head _)
      · simp only [emit, List.length_cons]
        omega
    · exact hstop _
  | .alias .. => exact ⟨hpath.pop, hw, by omega⟩

theorem within_step (hroot : root.WellFormed) {s : State} (h : s.Within root) :
    s.step.Within root := by
  match s, h with
  | .entering n path w, ⟨hpath, hw, hn, hcount⟩ =>
    by_cases hactive : n.number ∈ path.map Node.number
    · rw [step_active hactive]
      exact ⟨hw, by omega⟩
    by_cases hbudget : w.budget < w.count
    · rw [step_overdrawn hactive hbudget]
      exact ⟨hw, by omega⟩
    rw [step_entered hactive (by omega)]
    exact within_entered (hpath.push hroot hn hactive) hw hn (by omega)
  | .inside [] w, ⟨_, hw, hcount⟩ => exact ⟨hw, by simp at hcount; omega⟩
  | .inside (n :: path) w, ⟨hpath, hw, hcount⟩ => exact within_inside hpath hw hcount
  | .stopped _ w, h => exact h

theorem within_run (hroot : root.WellFormed) (k : Nat) :
    (step^[k] (.entering root [] (start root))).Within root := by
  induction k with
  | zero => exact ⟨.nil, ⟨rfl, rfl, rfl⟩, root.self_mem_preorder, by simp [start]⟩
  | succ k ih =>
    rw [Function.iterate_succ_apply']
    exact within_step hroot ih

theorem Within.nodup {s : State} (h : s.Within root) : (s.path.map Node.number).Nodup := by
  cases s with
  | entering => exact h.1.nodup
  | inside => exact h.1.nodup
  | stopped => exact List.nodup_nil

theorem Within.length_tokens {s : State} (h : s.Within root) :
    s.walk.tokens.length ≤ (start root).budget + root.preorder.length + 2 := by
  match s, h with
  | .entering _ _ w, ⟨_, hw, _, hcount⟩ | .inside _ w, ⟨_, hw, hcount⟩ | .stopped _ w, ⟨hw, hcount⟩ =>
    have := hw.count
    simp only [walk]
    omega

end State

/-- The machine ends where the recursion does. -/
theorem reaches_stopped {root : Node} (hroot : root.WellFormed) :
    Reaches (.entering root [] (start root))
      (.stopped (node (root.all.size + 1) [] root (start root)).1
        (node (root.all.size + 1) [] root (start root)).2) := by
  rw [Node.size_all]
  have h := follows hroot (root.preorder.length + 1) root [] (start root) .nil (by simp)
    root.self_mem_preorder rfl
  rcases hr : node (root.preorder.length + 1) [] root (start root) with ⟨_ | failure, w⟩
  · rw [List.map_nil, hr] at h
    exact h.trans (.of_step .refl)
  · rw [List.map_nil, hr] at h
    exact h

/-- On a well-formed tree of `N` nodes the walk ends, with or without a failure, as the recursion with
`N + 1` fuel does; the nodes on its path are always distinct; and it never has written more than
`max 65536 (16 * N) + N + 2` tokens. -/
theorem walk_ends_within_bounds {root : Node} (hroot : root.WellFormed) :
    let N := root.all.size
    let run (k : Nat) := State.step^[k] (.entering root [] (start root))
    let result := node (N + 1) [] root (start root)
    (∃ k, run k = .stopped result.1 result.2) ∧
      (∀ k, ((run k).path.map Node.number).Nodup ∧
        (run k).walk.tokens.length ≤ max 65536 (16 * N) + N + 2) ∧
      result.2.tokens.length ≤ max 65536 (16 * N) + N + 2 := by
  intro N run result
  have hbound (k : Nat) : (run k).walk.tokens.length ≤ max 65536 (16 * N) + N + 2 := by
    have h := (State.within_run hroot k).length_tokens
    rwa [← Node.size_all] at h
  obtain ⟨k, hk⟩ := reaches_stopped hroot
  refine ⟨⟨k, hk⟩, fun k => ⟨(State.within_run hroot k).nodup, hbound k⟩, ?_⟩
  have h := hbound k
  rwa [show run k = _ from hk] at h

/-- A sequence whose first item is used three times and that holds itself. -/
def selfSequence : Node :=
  .sequence 0 1 [] [.mapping 1 1 [] [(.scalar 2 1 [] .plain [], .scalar 3 1 [] .plain [])],
    .alias 4 2 1, .alias 5 2 1, .alias 6 3 0]

theorem wellFormed_selfSequence : selfSequence.WellFormed :=
  ⟨by decide, by decide⟩

theorem walk_ends_within_bounds_selfSequence :
    selfSequence.WellFormed ∧ ∃ k last,
      State.step^[k] (.entering selfSequence [] (start selfSequence)) =
        .stopped (some (.aliasCycle 1)) last ∧ last.tokens.length ≤ max 65536 (16 * 7) + 7 + 2 := by
  obtain ⟨-, h, -⟩ := walk_ends_within_bounds wellFormed_selfSequence
  exact ⟨wellFormed_selfSequence, 26, _, rfl, (h 26).2⟩

end Walk

end WireSchema.Yaml
