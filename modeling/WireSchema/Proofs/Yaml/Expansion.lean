import Mathlib.Data.Fintype.Card
import Mathlib.Data.Set.Finite.List
import Mathlib.Logic.Relation
import WireSchema.Proofs.Yaml.Walking

/-!
# Aliases stand for copies

The tokens of a document are those of its expansion, the tree in which every alias is replaced by a copy
of the node that it stands for. A tree has an expansion exactly if no path through items, values and
aliases comes back to a node, and its keys are scalars; the walk then never meets a node again, and writes
the tokens of the expansion if they are within the budget. On a tree without aliases it writes at most two
tokens for each node, so that the budget does not bind.
-/

namespace WireSchema.Yaml

open Relation Walk

/-! ## The expanded document -/

mutual

/-- A tree and the one in which its aliases are replaced by copies of nodes below `root`. -/
inductive Expands (root : Node) : Node → Node → Prop where
  | scalar {number line tag style value} :
    Expands root (.scalar number line tag style value) (.scalar number line tag style value)
  | sequence {number line tag items items'} (h : ItemsExpand root items items') :
    Expands root (.sequence number line tag items) (.sequence number line tag items')
  | mapping {number line tag entries entries'} (h : EntriesExpand root entries entries') :
    Expands root (.mapping number line tag entries) (.mapping number line tag entries')
  | target {number line target n e} (hn : root.preorder[target]? = some n) (h : Expands root n e) :
    Expands root (.alias number line target) e

inductive ItemsExpand (root : Node) : List Node → List Node → Prop where
  | nil : ItemsExpand root [] []
  | cons {n e rest rest'} (h : Expands root n e) (hrest : ItemsExpand root rest rest') :
    ItemsExpand root (n :: rest) (e :: rest')

/-- A key is a scalar, or an alias that stands for one. -/
inductive EntriesExpand (root : Node) : List (Node × Node) → List (Node × Node) → Prop where
  | nil : EntriesExpand root [] []
  | cons {k v e rest rest'} (hk : ((start root).resolve k).key?.isSome) (hv : Expands root v e)
      (hrest : EntriesExpand root rest rest') :
    EntriesExpand root ((k, v) :: rest) (((start root).resolve k, e) :: rest')

end

namespace Node

mutual

/-- The tokens of a tree without aliases, each with its line. -/
def tokens? : Node → Option (List Located)
  | .scalar _ line tag style value =>
    match scalarToken tag style value with
    | .ok t => some [⟨t, line⟩]
    | .error _ => none
  | .sequence _ line _ items =>
    (itemsTokens? items).map fun l => ⟨.beginArray, line⟩ :: (l ++ [⟨.endArray, line⟩])
  | .mapping _ line _ entries =>
    (entriesTokens? entries).map fun l => ⟨.beginObject, line⟩ :: (l ++ [⟨.endObject, line⟩])
  | .alias .. => none

def itemsTokens? : List Node → Option (List Located)
  | [] => some []
  | n :: rest => do return (← n.tokens?) ++ (← itemsTokens? rest)

def entriesTokens? : List (Node × Node) → Option (List Located)
  | [] => some []
  | (k, v) :: rest => do
    let (line, name) ← k.key?
    return ⟨.key name, line⟩ :: ((← v.tokens?) ++ (← entriesTokens? rest))

end

def keys : Node → List Node
  | .mapping _ _ _ entries => entries.map (·.1)
  | _ => []

end Node

/-! ## Paths -/

/-- From a node to an item or a value of it, or from an alias to what it stands for. -/
inductive Into (root n m : Node) : Prop where
  | part (h : m ∈ n.parts)
  | target {i : Nat} (h : n.target? = some i) (hm : root.preorder[i]? = some m)

def Node.Reached (root n : Node) : Prop := ReflTransGen (Into root) root n

/-- Some path from the root comes back to a node on it. -/
def Node.Reenters (root : Node) : Prop := ∃ n, root.Reached n ∧ TransGen (Into root) n n

/-- All paths from the node end. -/
def Ends (root n : Node) : Prop := Acc (Function.swap (Into root)) n

section Paths

variable {root n m e : Node}

theorem Into.mem (h : Into root n m) (hn : n ∈ root.preorder) : m ∈ root.preorder := by
  cases h with
  | part h => exact Node.mem_preorder_of_part hn h
  | target _ hm => exact List.mem_of_getElem? hm

theorem Node.Reached.mem (h : root.Reached n) : n ∈ root.preorder := by
  induction h with
  | refl => exact root.self_mem_preorder
  | tail _ h ih => exact h.mem ih

theorem Ends.into (h : Ends root n) (hm : Into root n m) : Ends root m := Acc.inv h hm

theorem Ends.of_reached (h : Ends root root) (hn : root.Reached n) : Ends root n := by
  induction hn with
  | refl => exact h
  | tail _ hstep ih => exact ih.into hstep

theorem Ends.not_reentered (h : Ends root n) : ¬ TransGen (Into root) n n := by
  have hacc : Acc (TransGen (Function.swap (Into root))) n := Acc.transGen h
  clear h
  intro hn
  induction hacc with
  | intro n _ ih => exact ih n (transGen_swap.mpr hn) hn

mutual

theorem Expands.ends : ∀ {n e : Node}, Expands root n e → Ends root n
  | _, _, .scalar => ⟨_, fun m hm => by rcases hm with h | ⟨h, _⟩ <;> cases h⟩
  | _, _, .sequence h => by
    have hitems := h.ends
    refine ⟨_, fun m hm => ?_⟩
    rcases hm with hm | ⟨hm, _⟩
    · exact hitems m hm
    · cases hm
  | _, _, .mapping h => by
    have hvalues := h.ends
    refine ⟨_, fun m hm => ?_⟩
    rcases hm with hm | ⟨hm, _⟩
    · exact hvalues m hm
    · cases hm
  | _, _, .target hn h => by
    have htarget := h.ends
    refine ⟨_, fun m hm => ?_⟩
    rcases hm with hm | ⟨hi, hm⟩
    · cases hm
    · cases hi
      cases hn.symm.trans hm
      exact htarget

theorem ItemsExpand.ends : ∀ {items items' : List Node}, ItemsExpand root items items' →
    ∀ m ∈ items, Ends root m
  | _, _, .nil => by simp
  | _, _, .cons h hrest => List.forall_mem_cons.mpr ⟨h.ends, hrest.ends⟩

theorem EntriesExpand.ends : ∀ {entries entries' : List (Node × Node)},
    EntriesExpand root entries entries' → ∀ m ∈ entries.map (·.2), Ends root m
  | _, _, .nil => by simp
  | _, _, .cons _ h hrest => List.forall_mem_cons.mpr ⟨h.ends, hrest.ends⟩

end

/-- A tree whose paths do not come back to a node has only paths that end. -/
theorem ends_of_not_reenters (h : ¬ root.Reenters) (hn : root.Reached n) : Ends root n := by
  let Place := { n : Node // n ∈ root.preorder ∧ root.Reached n }
  let after (a b : Place) : Prop := TransGen (Into root) b.1 a.1
  have : Finite Place := (List.finite_toSet root.preorder).subset fun n hn => hn.1
  have : IsTrans Place after := ⟨fun _ _ _ hab hbc => hbc.trans hab⟩
  have : Std.Irrefl after := ⟨fun a ha => h ⟨a.1, a.2.2, ha⟩⟩
  have hwf : WellFounded after := Finite.wellFounded_of_trans_of_irrefl after
  have hends (a : Place) : Ends root a.1 := by
    induction a using hwf.induction with
    | _ a ih =>
      refine ⟨_, fun m hm => ?_⟩
      have hm : Into root a.1 m := hm
      exact ih ⟨m, hm.mem a.2.1, a.2.2.tail hm⟩ (.single hm)
  exact hends ⟨n, hn.mem, hn⟩

end Paths

/-! ## An expansion from the lack of cycles -/

section Existence

variable {root n : Node}

theorem exists_items {items : List Node}
    (h : ∀ n ∈ items, ∃ e l, Expands root n e ∧ e.tokens? = some l) :
    ∃ items' l, ItemsExpand root items items' ∧ Node.itemsTokens? items' = some l := by
  induction items with
  | nil => exact ⟨[], [], .nil, rfl⟩
  | cons n rest ih =>
    obtain ⟨e, l, he, hl⟩ := h n (.head _)
    obtain ⟨rest', l', hrest, hl'⟩ := ih fun m hm => h m (.tail _ hm)
    exact ⟨e :: rest', l ++ l', .cons he hrest, by simp [Node.itemsTokens?, hl, hl']⟩

theorem exists_entries {entries : List (Node × Node)}
    (hkeys : ∀ k ∈ entries.map (·.1), ((start root).resolve k).key?.isSome)
    (h : ∀ n ∈ entries.map (·.2), ∃ e l, Expands root n e ∧ e.tokens? = some l) :
    ∃ entries' l, EntriesExpand root entries entries' ∧ Node.entriesTokens? entries' = some l := by
  induction entries with
  | nil => exact ⟨[], [], .nil, rfl⟩
  | cons e rest ih =>
    obtain ⟨k, v⟩ := e
    obtain ⟨e, l, he, hl⟩ := h v (.head _)
    obtain ⟨rest', l', hrest, hl'⟩ :=
      ih (fun m hm => hkeys m (.tail _ hm)) fun m hm => h m (.tail _ hm)
    have hk := hkeys k (.head _)
    obtain ⟨⟨line, name⟩, hkey⟩ := Option.isSome_iff_exists.mp hk
    exact ⟨_, _, .cons hk he hrest, by simp [Node.entriesTokens?, hkey, hl, hl']; rfl⟩

theorem exists_expands (hroot : root.WellFormed)
    (hkeys : ∀ n, root.Reached n → ∀ k ∈ n.keys, ((start root).resolve k).key?.isSome)
    (hscalars : ∀ number line tag style value, root.Reached (.scalar number line tag style value) →
      ∃ t, scalarToken tag style value = .ok t)
    (hn : root.Reached n) (hends : Ends root n) : ∃ e l, Expands root n e ∧ e.tokens? = some l := by
  induction hends with
  | intro n _ ih =>
    have hpart (m : Node) (hm : m ∈ n.parts) : ∃ e l, Expands root m e ∧ e.tokens? = some l :=
      ih m (.part hm) (hn.tail (.part hm))
    cases n with
    | scalar number line tag style value =>
      obtain ⟨t, ht⟩ := hscalars _ _ _ _ _ hn
      exact ⟨_, _, .scalar, by simp [Node.tokens?, ht]; rfl⟩
    | sequence number line tag items =>
      obtain ⟨items', l, hitems, hl⟩ := exists_items hpart
      exact ⟨_, _, .sequence hitems, by simp [Node.tokens?, hl]; rfl⟩
    | mapping number line tag entries =>
      obtain ⟨entries', l, hentries, hl⟩ := exists_entries (hkeys _ hn) hpart
      exact ⟨_, _, .mapping hentries, by simp [Node.tokens?, hl]; rfl⟩
    | «alias» number line target =>
      have htarget := hroot.targets _ hn.mem target rfl
      have hm := List.getElem?_eq_getElem htarget
      obtain ⟨e, l, he, hl⟩ := ih _ (.target rfl hm) (hn.tail (.target rfl hm))
      exact ⟨e, l, .target hm he, hl⟩

end Existence

/-! ## The walk over an expansion -/

/-- The walk comes to a node from which all paths end. The nodes around it lead to it, and there is fuel
for all others. -/
structure Arrives (root : Node) (fuel : Nat) (active : List Nat) (n : Node) : Prop where
  mem : n ∈ root.preorder
  ends : Ends root n
  nodup : active.Nodup
  path : ∀ i ∈ active, ∃ m ∈ root.preorder, m.number = i ∧ TransGen (Into root) m n
  fuel : fuel + active.length = root.preorder.length + 1

section Arrival

variable {root n m : Node} {fuel : Nat} {active : List Nat} {w : Walk}

theorem arrives_root (h : Ends root root) : Arrives root (root.preorder.length + 1) [] root :=
  ⟨root.self_mem_preorder, h, List.nodup_nil, by simp, by simp⟩

theorem Arrives.not_mem (h : Arrives root fuel active n) (hroot : root.WellFormed) :
    n.number ∉ active := by
  intro hi
  obtain ⟨m, hm, hnumber, hpath⟩ := h.path _ hi
  obtain rfl := hroot.eq_of_number hm h.mem hnumber
  exact h.ends.not_reentered hpath

theorem Arrives.fuel_pos (h : Arrives root fuel active n) (hroot : root.WellFormed) : 0 < fuel := by
  have hsub : n.number :: active ⊆ List.range root.preorder.length := by
    refine List.cons_subset.mpr ⟨List.mem_range.mpr (hroot.number_lt h.mem), fun i hi => ?_⟩
    obtain ⟨m, hm, rfl, -⟩ := h.path i hi
    exact List.mem_range.mpr (hroot.number_lt hm)
  have hnodup := List.nodup_cons.mpr ⟨h.not_mem hroot, h.nodup⟩
  have hlength := (List.subperm_of_subset hnodup hsub).length_le
  have := h.fuel
  simp only [List.length_cons, List.length_range] at hlength
  omega

/-- Within the budget the node is entered, and the walk arrives at the nodes that it leads to. -/
theorem Arrives.entered (h : Arrives root fuel active n) (hroot : root.WellFormed)
    (hbudget : w.count ≤ w.budget) : ∃ fuel',
      node fuel active n w = contents fuel' (n.number :: active) n w ∧
      ∀ m, Into root n m → Arrives root fuel' (n.number :: active) m := by
  have hnew := h.not_mem hroot
  obtain ⟨fuel, rfl⟩ : ∃ fuel', fuel = fuel' + 1 :=
    ⟨fuel - 1, by have := h.fuel_pos hroot; omega⟩
  refine ⟨fuel, node_entered hnew hbudget, fun m hm => ⟨hm.mem h.mem, h.ends.into hm, ?_, ?_, ?_⟩⟩
  · exact List.nodup_cons.mpr ⟨hnew, h.nodup⟩
  · refine List.forall_mem_cons.mpr ⟨⟨n, h.mem, rfl, .single hm⟩, fun i hi => ?_⟩
    obtain ⟨a, ha, hnumber, hpath⟩ := h.path i hi
    exact ⟨a, ha, hnumber, hpath.tail hm⟩
  · have := h.fuel
    simp only [List.length_cons]
    omega

theorem resolve_start (h : w.nodes = root.all) (n : Node) : w.resolve n = (start root).resolve n := by
  cases n <;> simp [resolve, start, h]

theorem resolve_target {number line target : Nat} (h : w.nodes = root.all)
    (hm : root.preorder[target]? = some m) : w.resolve (.alias number line target) = m := by
  simp [resolve, h, Node.all_eq, hm]

end Arrival

section Completeness

/-- Walking over a node writes the tokens of its expansion. -/
def WalksNode (root n e : Node) : Prop :=
  ∀ fuel active w l, e.tokens? = some l → Arrives root fuel active n → w.nodes = root.all →
    w.count + l.length ≤ w.budget → node fuel active n w = (none, w.append l)

def WalksItems (root : Node) (list list' : List Node) : Prop :=
  ∀ fuel active w l, Node.itemsTokens? list' = some l → (∀ m ∈ list, Arrives root fuel active m) →
    w.nodes = root.all → w.count + l.length ≤ w.budget →
    items fuel active list w = (none, w.append l)

def WalksEntries (root : Node) (list list' : List (Node × Node)) : Prop :=
  ∀ fuel active w l, Node.entriesTokens? list' = some l →
    (∀ m ∈ list.map (·.2), Arrives root fuel active m) →
    w.nodes = root.all → w.count + l.length ≤ w.budget →
    entries fuel active list w = (none, w.append l)

variable {root n e : Node} {number line : Nat} {tag : Text}

theorem andThen_container {r : Option Failure × Walk} {w : Walk} {l : List Located} {t t' : Token}
    (h : r = (none, (w.emit line t).append l)) : andThen r (fun w => (none, w.emit line t')) =
      (none, w.append (⟨t, line⟩ :: (l ++ [⟨t', line⟩]))) := by
  rw [h, andThen, emit_eq, emit_eq, append_append, append_append, List.singleton_append]

theorem walks_scalar (hroot : root.WellFormed) {style : ScalarStyle} {value : Text} :
    WalksNode root (.scalar number line tag style value) (.scalar number line tag style value) := by
  intro fuel active w l hl h hnodes hbudget
  obtain ⟨fuel', heq, -⟩ := h.entered (w := w) hroot (by omega)
  rw [heq, contents]
  rw [Node.tokens?] at hl
  cases ht : scalarToken tag style value with
  | ok t =>
    rw [ht] at hl
    cases hl
    rfl
  | error f =>
    rw [ht] at hl
    cases hl

theorem walks_sequence (hroot : root.WellFormed) {list list' : List Node}
    (hlist : WalksItems root list list') :
    WalksNode root (.sequence number line tag list) (.sequence number line tag list') := by
  intro fuel active w l hl h hnodes hbudget
  obtain ⟨fuel', heq, hinto⟩ := h.entered (w := w) hroot (by omega)
  rw [Node.tokens?] at hl
  obtain ⟨inner, hinner, rfl⟩ := Option.map_eq_some_iff.mp hl
  simp only [List.length_cons, List.length_append] at hbudget
  have hitems := hlist fuel' (number :: active) (w.emit line .beginArray) inner hinner
    (fun m hm => hinto m (.part hm)) hnodes (by simp only [emit]; omega)
  rw [heq]
  exact andThen_container hitems

theorem walks_mapping (hroot : root.WellFormed) {list list' : List (Node × Node)}
    (hlist : WalksEntries root list list') :
    WalksNode root (.mapping number line tag list) (.mapping number line tag list') := by
  intro fuel active w l hl h hnodes hbudget
  obtain ⟨fuel', heq, hinto⟩ := h.entered (w := w) hroot (by omega)
  rw [Node.tokens?] at hl
  obtain ⟨inner, hinner, rfl⟩ := Option.map_eq_some_iff.mp hl
  simp only [List.length_cons, List.length_append] at hbudget
  have hentries := hlist fuel' (number :: active) (w.emit line .beginObject) inner hinner
    (fun m hm => hinto m (.part hm)) hnodes (by simp only [emit]; omega)
  rw [heq]
  exact andThen_container hentries

theorem walks_target (hroot : root.WellFormed) {target : Nat}
    (hn : root.preorder[target]? = some n) (h : WalksNode root n e) :
    WalksNode root (.alias number line target) e := by
  intro fuel active w l hl harrives hnodes hbudget
  obtain ⟨fuel', heq, hinto⟩ := harrives.entered (w := w) hroot (by omega)
  rw [heq, contents, resolve_target hnodes hn]
  exact h _ _ _ _ hl (hinto _ (.target rfl hn)) hnodes hbudget

theorem walksItems_nil : WalksItems root [] [] := by
  intro fuel active w l hl _ _ _
  cases hl
  rw [items, append_nil]

theorem walksItems_cons {rest rest' : List Node} (h : WalksNode root n e)
    (hrest : WalksItems root rest rest') : WalksItems root (n :: rest) (e :: rest') := by
  intro fuel active w l hl harrives hnodes hbudget
  rw [Node.itemsTokens?] at hl
  obtain ⟨l₁, h₁, hl⟩ := Option.bind_eq_some_iff.mp hl
  obtain ⟨l₂, h₂, ⟨⟩⟩ := Option.bind_eq_some_iff.mp hl
  simp only [List.length_append] at hbudget
  have hn := h fuel active w l₁ h₁ (harrives n (.head _)) hnodes (by omega)
  have hrest := hrest fuel active (w.append l₁) l₂ h₂ (fun m hm => harrives m (.tail _ hm)) hnodes
    (by simp only [append]; omega)
  rw [items_cons, hn, andThen, hrest, append_append]

theorem walksEntries_nil : WalksEntries root [] [] := by
  intro fuel active w l hl _ _ _
  cases hl
  rw [entries, append_nil]

theorem walksEntries_cons {k : Node} {rest rest' : List (Node × Node)} (h : WalksNode root n e)
    (hrest : WalksEntries root rest rest') :
    WalksEntries root ((k, n) :: rest) (((start root).resolve k, e) :: rest') := by
  intro fuel active w l hl harrives hnodes hbudget
  rw [Node.entriesTokens?] at hl
  obtain ⟨⟨line, name⟩, hkey, hl⟩ := Option.bind_eq_some_iff.mp hl
  obtain ⟨l₁, h₁, hl⟩ := Option.bind_eq_some_iff.mp hl
  obtain ⟨l₂, h₂, ⟨⟩⟩ := Option.bind_eq_some_iff.mp hl
  simp only [List.length_cons, List.length_append] at hbudget
  rw [← resolve_start hnodes] at hkey
  have hn := h fuel active (w.emit line (.key name)) l₁ h₁ (harrives n (.head _)) hnodes
    (by simp only [emit]; omega)
  have hrest := hrest fuel active ((w.emit line (.key name)).append l₁) l₂ h₂
    (fun m hm => harrives m (.tail _ hm)) hnodes (by simp only [emit, append]; omega)
  rw [entries_key hkey, hn, andThen, hrest, emit_eq, append_append, append_append,
    List.singleton_append]

mutual

theorem Expands.walks (hroot : root.WellFormed) : ∀ {n e : Node}, Expands root n e → WalksNode root n e
  | _, _, .scalar => walks_scalar hroot
  | _, _, .sequence h => walks_sequence hroot (h.walks hroot)
  | _, _, .mapping h => walks_mapping hroot (h.walks hroot)
  | _, _, .target hn h => walks_target hroot hn (h.walks hroot)

theorem ItemsExpand.walks (hroot : root.WellFormed) : ∀ {list list' : List Node},
    ItemsExpand root list list' → WalksItems root list list'
  | _, _, .nil => walksItems_nil
  | _, _, .cons h hrest => walksItems_cons (h.walks hroot) (hrest.walks hroot)

theorem EntriesExpand.walks (hroot : root.WellFormed) : ∀ {list list' : List (Node × Node)},
    EntriesExpand root list list' → WalksEntries root list list'
  | _, _, .nil => walksEntries_nil
  | _, _, .cons _ h hrest => walksEntries_cons (h.walks hroot) (hrest.walks hroot)

end

end Completeness

/-! ## What a walk that ends has expanded -/

section Soundness

variable {root : Node} {fuel : Nat} {active : List Nat}

theorem expands_of_items
    (h : ∀ n w w', w.nodes = root.all → node fuel active n w = (none, w') → ∃ e, Expands root n e)
    {list : List Node} {w w' : Walk} (hnodes : w.nodes = root.all)
    (hw : items fuel active list w = (none, w')) : ∃ list', ItemsExpand root list list' := by
  induction list generalizing w with
  | nil => exact ⟨[], .nil⟩
  | cons n rest ih =>
    rw [items_cons, andThen_eq_none_iff] at hw
    obtain ⟨w₁, hn, hrest⟩ := hw
    obtain ⟨e, he⟩ := h n w w₁ hnodes hn
    obtain ⟨rest', hrest'⟩ := ih ((nodes_of_node hn).trans hnodes) hrest
    exact ⟨e :: rest', .cons he hrest'⟩

theorem expands_of_entries
    (h : ∀ n w w', w.nodes = root.all → node fuel active n w = (none, w') → ∃ e, Expands root n e)
    {list : List (Node × Node)} {w w' : Walk} (hnodes : w.nodes = root.all)
    (hw : entries fuel active list w = (none, w')) : ∃ list', EntriesExpand root list list' := by
  induction list generalizing w with
  | nil => exact ⟨[], .nil⟩
  | cons e rest ih =>
    obtain ⟨k, v⟩ := e
    cases hkey : (w.resolve k).key? with
    | none =>
      rw [entries_compound hkey] at hw
      cases hw
    | some key =>
      rw [entries_key hkey, andThen_eq_none_iff] at hw
      obtain ⟨w₁, hv, hrest⟩ := hw
      obtain ⟨e, he⟩ := h v (w.emit key.1 (.key key.2)) w₁ hnodes hv
      obtain ⟨rest', hrest'⟩ := ih ((nodes_of_node hv).trans hnodes) hrest
      rw [resolve_start hnodes] at hkey
      exact ⟨_, .cons (Option.isSome_of_eq_some hkey) he hrest'⟩

/-- A walk that does not fail has come to the end of every path. -/
theorem expands_of_node {n : Node} {w w' : Walk} (hnodes : w.nodes = root.all)
    (hw : node fuel active n w = (none, w')) : ∃ e, Expands root n e := by
  induction fuel generalizing active n w w' with
  | zero =>
    rw [node] at hw
    split_ifs at hw <;> cases hw
  | succ fuel ih =>
    by_cases hactive : n.number ∈ active
    · rw [node_active hactive] at hw
      cases hw
    by_cases hbudget : w.budget < w.count
    · rw [node_overdrawn hactive hbudget] at hw
      cases hw
    rw [node_entered hactive (by omega)] at hw
    cases n with
    | scalar number line tag style value => exact ⟨_, .scalar⟩
    | sequence number line tag list =>
      obtain ⟨w₁, hlist, -⟩ := andThen_eq_none_iff.mp hw
      obtain ⟨list', hlist'⟩ := expands_of_items (fun _ _ _ => ih) (by exact hnodes) hlist
      exact ⟨_, .sequence hlist'⟩
    | mapping number line tag list =>
      obtain ⟨w₁, hlist, -⟩ := andThen_eq_none_iff.mp hw
      obtain ⟨list', hlist'⟩ := expands_of_entries (fun _ _ _ => ih) (by exact hnodes) hlist
      exact ⟨_, .mapping hlist'⟩
    | «alias» number line target =>
      rw [contents] at hw
      cases hm : root.preorder[target]? with
      | some m =>
        rw [resolve_target hnodes hm] at hw
        obtain ⟨e, he⟩ := ih hnodes hw
        exact ⟨e, .target hm he⟩
      | none =>
        -- An alias that stands for nothing would stand for itself.
        have hself : w.resolve (.alias number line target) = .alias number line target := by
          simp [resolve, hnodes, Node.all_eq, hm]
        rw [hself, node_active (.head _)] at hw
        cases hw

end Soundness

/-! ## How a walk fails -/

inductive Refuses : Failure → Prop where
  | aliasCycle (line : Int) : Refuses (.aliasCycle line)
  | aliasExpansion (budget : Nat) (line : Int) : Refuses (.aliasExpansion budget line)
  | compoundKey (line : Int) : Refuses (.compoundKey line)
  | malformedYaml (text : Text) : Refuses (.malformedYaml text)

section Failing

variable {fuel : Nat} {active : List Nat}

theorem exists_of_scalarToken {tag value : Text} {style : ScalarStyle} {f : Failure}
    (h : scalarToken tag style value = .error f) : ∃ text, f = .malformedYaml text := by
  dsimp only [scalarToken] at h
  split_ifs at h
  all_goals (repeat' split at h)
  all_goals cases h
  all_goals exact ⟨_, rfl⟩

def OnlyRefuses (r : Option Failure × Walk) : Prop := ∀ f, r.1 = some f → Refuses f

theorem onlyRefuses_none (w : Walk) : OnlyRefuses (none, w) := by
  rintro f ⟨⟩

theorem onlyRefuses_some {f : Failure} (h : Refuses f) (w : Walk) : OnlyRefuses (some f, w) := by
  rintro _ ⟨⟩
  exact h

theorem OnlyRefuses.andThen {r : Option Failure × Walk} {g : Walk → Option Failure × Walk}
    (hr : OnlyRefuses r) (hg : ∀ w, OnlyRefuses (g w)) : OnlyRefuses (andThen r g) := by
  rcases r with ⟨_ | failure, w⟩
  · exact hg w
  · exact hr

theorem onlyRefuses_items (hnode : ∀ n w, OnlyRefuses (node fuel active n w)) (list : List Node)
    (w : Walk) : OnlyRefuses (items fuel active list w) := by
  induction list generalizing w with
  | nil =>
    rw [items]
    exact onlyRefuses_none w
  | cons n rest ih =>
    rw [items_cons]
    exact (hnode n w).andThen ih

theorem onlyRefuses_entries (hnode : ∀ n w, OnlyRefuses (node fuel active n w))
    (list : List (Node × Node)) (w : Walk) : OnlyRefuses (entries fuel active list w) := by
  induction list generalizing w with
  | nil =>
    rw [entries]
    exact onlyRefuses_none w
  | cons e rest ih =>
    cases hkey : (w.resolve e.1).key? with
    | none =>
      rw [entries_compound hkey]
      exact onlyRefuses_some (.compoundKey _) w
    | some key =>
      rw [entries_key hkey]
      exact (hnode _ _).andThen ih

theorem onlyRefuses_node (fuel : Nat) (active : List Nat) (n : Node) (w : Walk) :
    OnlyRefuses (node fuel active n w) := by
  induction fuel generalizing active n w with
  | zero =>
    rw [node]
    split_ifs
    · exact onlyRefuses_some (.aliasCycle _) w
    · exact onlyRefuses_some (.aliasExpansion _ _) w
    · exact onlyRefuses_some (.aliasCycle _) w
  | succ fuel ih =>
    by_cases hactive : n.number ∈ active
    · rw [node_active hactive]
      exact onlyRefuses_some (.aliasCycle _) w
    by_cases hbudget : w.budget < w.count
    · rw [node_overdrawn hactive hbudget]
      exact onlyRefuses_some (.aliasExpansion _ _) w
    rw [node_entered hactive (by omega)]
    cases n with
    | scalar number line tag style value =>
      rw [contents]
      split
      next => exact onlyRefuses_none _
      next ht =>
        obtain ⟨text, rfl⟩ := exists_of_scalarToken ht
        exact onlyRefuses_some (.malformedYaml text) w
    | sequence number line tag list =>
      exact (onlyRefuses_items (ih _) list _).andThen fun _ => onlyRefuses_none _
    | mapping number line tag list =>
      exact (onlyRefuses_entries (ih _) list _).andThen fun _ => onlyRefuses_none _
    | «alias» number line target => exact ih _ _ w

end Failing

/-! ## Trees without aliases -/

section Frugality

theorem sizeOf_part {m n : Node} (h : m ∈ n.parts) : sizeOf m < sizeOf n := by
  match n, h with
  | .sequence number line tag list, h =>
    have : sizeOf m < sizeOf list := List.sizeOf_lt_of_mem h
    simp only [Node.sequence.sizeOf_spec]
    omega
  | .mapping number line tag list, h =>
    obtain ⟨⟨k, v⟩, hmem, rfl⟩ := List.mem_map.mp h
    have := List.sizeOf_lt_of_mem hmem
    simp only [Node.mapping.sizeOf_spec, Prod.mk.sizeOf_spec] at *
    omega

theorem ends_of_no_aliases {root : Node} (hfree : ∀ m ∈ root.preorder, m.target? = none) (n : Node)
    (hn : n ∈ root.preorder) : Ends root n := by
  refine ⟨_, fun m hm => ?_⟩
  rcases hm with hm | ⟨hi, _⟩
  · have := sizeOf_part hm
    exact ends_of_no_aliases hfree m (Node.mem_preorder_of_part hn hm)
  · rw [hfree n hn] at hi
    cases hi
termination_by sizeOf n

/-- At most so many tokens are written, and nothing fails for the sake of aliases. -/
structure Frugal (w : Walk) (tokens : Nat) (r : Option Failure × Walk) : Prop where
  count : r.2.count ≤ w.count + tokens
  budget : r.2.budget = w.budget
  cycle : ∀ line, r.1 ≠ some (.aliasCycle line)
  expansion : ∀ budget line, r.1 ≠ some (.aliasExpansion budget line)

variable {root : Node} {fuel : Nat} {active : List Nat} {w : Walk}

theorem frugal_none : Frugal w 0 (none, w) := ⟨by simp, rfl, by simp, by simp⟩

theorem Frugal.mono {k k' : Nat} {r : Option Failure × Walk} (h : Frugal w k r) (hk : k ≤ k') :
    Frugal w k' r :=
  ⟨h.count.trans (by omega), h.budget, h.cycle, h.expansion⟩

theorem Frugal.emit {k line : Nat} {t : Token} {r : Option Failure × Walk}
    (h : Frugal (w.emit line t) k r) : Frugal w (k + 1) r :=
  ⟨h.count.trans (by simp only [Walk.emit]; omega), h.budget, h.cycle, h.expansion⟩

theorem Frugal.andThen {k k' : Nat} {r : Option Failure × Walk} {g : Walk → Option Failure × Walk}
    (h : Frugal w k r)
    (hg : ∀ w', w'.count ≤ w.count + k → w'.budget = w.budget → Frugal w' k' (g w')) :
    Frugal w (k + k') (andThen r g) := by
  rcases r with ⟨_ | failure, w'⟩
  · have hg := hg w' h.count h.budget
    have := h.count
    exact ⟨hg.count.trans (by simp only at *; omega), hg.budget.trans h.budget, hg.cycle, hg.expansion⟩
  · exact h.mono (by omega)

theorem frugal_emit {line : Nat} {t : Token} : Frugal w 1 (none, w.emit line t) := frugal_none.emit

/-- At most two tokens are written for each node. -/
def FrugalNode (root n : Node) : Prop :=
  ∀ fuel active w, Arrives root fuel active n → w.count + 2 * n.preorder.length ≤ w.budget →
    Frugal w (2 * n.preorder.length) (node fuel active n w)

theorem frugal_items {list : List Node} (h : ∀ m ∈ list, FrugalNode root m)
    (harrives : ∀ m ∈ list, Arrives root fuel active m)
    (hbudget : w.count + 2 * (Node.itemsPreorder list).length ≤ w.budget) :
    Frugal w (2 * (Node.itemsPreorder list).length) (items fuel active list w) := by
  induction list generalizing w with
  | nil =>
    rw [items]
    exact frugal_none
  | cons n rest ih =>
    simp only [Node.itemsPreorder, List.length_append, Nat.mul_add] at hbudget ⊢
    rw [items_cons]
    refine (h n (.head _) _ _ _ (harrives n (.head _)) (by omega)).andThen fun w' hcount hw' => ?_
    exact ih (fun m hm => h m (.tail _ hm)) (fun m hm => harrives m (.tail _ hm)) (by omega)

theorem frugal_entries {list : List (Node × Node)} (h : ∀ m ∈ list.map (·.2), FrugalNode root m)
    (harrives : ∀ m ∈ list.map (·.2), Arrives root fuel active m)
    (hbudget : w.count + 2 * (Node.entriesPreorder list).length ≤ w.budget) :
    Frugal w (2 * (Node.entriesPreorder list).length) (entries fuel active list w) := by
  induction list generalizing w with
  | nil =>
    rw [entries]
    exact frugal_none
  | cons e rest ih =>
    obtain ⟨k, v⟩ := e
    have hkey := List.length_pos_of_mem k.self_mem_preorder
    simp only [Node.entriesPreorder, List.length_append, Nat.mul_add] at hbudget ⊢
    cases hk : (w.resolve k).key? with
    | none =>
      rw [entries_compound hk]
      exact ⟨by simp, rfl, by simp, by simp⟩
    | some key =>
      rw [entries_key hk]
      have hv := h v (.head _) fuel active (w.emit key.1 (.key key.2)) (harrives v (.head _))
        (by simp only [Walk.emit]; omega)
      have hall := hv.emit.andThen fun w' hcount hw' =>
        ih (fun m hm => h m (.tail _ hm)) (fun m hm => harrives m (.tail _ hm)) (by omega)
      exact hall.mono (by omega)

theorem frugal_node (hroot : root.WellFormed) (hfree : ∀ m ∈ root.preorder, m.target? = none)
    {n : Node} (hends : Ends root n) : FrugalNode root n := by
  induction hends with
  | intro n _ ih =>
    intro fuel active w h hbudget
    obtain ⟨fuel', heq, hinto⟩ := h.entered (w := w) hroot (by omega)
    rw [heq]
    cases n with
    | scalar number line tag style value =>
      rw [contents]
      split
      next => exact frugal_emit.mono (by simp [Node.preorder])
      next ht =>
        obtain ⟨text, rfl⟩ := exists_of_scalarToken ht
        exact ⟨by simp, rfl, by simp, by simp⟩
    | sequence number line tag list =>
      simp only [Node.preorder, List.length_cons, Nat.mul_add] at hbudget ⊢
      have hlist : Frugal (w.emit line .beginArray) (2 * (Node.itemsPreorder list).length)
          (items fuel' (number :: active) list (w.emit line .beginArray)) :=
        frugal_items (fun m hm => ih m (.part hm)) (fun m hm => hinto m (.part hm))
          (by simp only [Walk.emit]; omega)
      exact hlist.emit.andThen fun _ _ _ => frugal_emit
    | mapping number line tag list =>
      simp only [Node.preorder, List.length_cons, Nat.mul_add] at hbudget ⊢
      have hlist : Frugal (w.emit line .beginObject) (2 * (Node.entriesPreorder list).length)
          (entries fuel' (number :: active) list (w.emit line .beginObject)) :=
        frugal_entries (fun m hm => ih m (.part hm)) (fun m hm => hinto m (.part hm))
          (by simp only [Walk.emit]; omega)
      exact hlist.emit.andThen fun _ _ _ => frugal_emit
    | «alias» number line target => cases hfree _ h.mem

end Frugality

/-! ## The source -/

section Source

variable {stream : Text} {broken : Bool} {root : Node}

theorem Node.source_eq (root : Node) :
    root.source =
      .document (node (root.preorder.length + 1) [] root (start root)).2.tokens.reverse (-1)
        ((node (root.preorder.length + 1) [] root (start root)).1.getD (.exhausted .clean)) := by
  rw [Node.source, ← Node.size_all]
  rfl

theorem Node.WellFormed.source_of_expands (hroot : root.WellFormed) {e : Node} {l : List Located}
    (he : Expands root root e) (hl : e.tokens? = some l)
    (hbudget : l.length ≤ max 65536 (16 * root.all.size)) :
    root.source = .document l (-1) (.exhausted .clean) := by
  have hwalk := he.walks hroot _ _ (start root) l hl (arrives_root he.ends) rfl
    (by simpa [start] using hbudget)
  rw [Node.source_eq, hwalk]
  simp [append, start]

theorem source_of_parse (h : parse stream broken = some (some root)) :
    source stream broken =
      .document (node (root.preorder.length + 1) [] root (start root)).2.tokens.reverse (-1)
        ((node (root.preorder.length + 1) [] root (start root)).1.getD (.exhausted .clean)) := by
  rw [source, h]
  exact root.source_eq

theorem source_of_expands (h : parse stream broken = some (some root)) {e : Node}
    {l : List Located} (he : Expands root root e) (hl : e.tokens? = some l)
    (hbudget : l.length ≤ max 65536 (16 * root.all.size)) :
    source stream broken = .document l (-1) (.exhausted .clean) := by
  rw [source, h]
  exact (wellFormed_of_parse h).source_of_expands he hl hbudget

theorem source_of_reenters (h : parse stream broken = some (some root)) (hcycle : root.Reenters) :
    ∃ l f, source stream broken = .document l (-1) f ∧ ∀ how, f ≠ .exhausted how := by
  refine ⟨_, _, source_of_parse h, ?_⟩
  rcases hr : node (root.preorder.length + 1) [] root (start root) with ⟨_ | failure, w⟩
  · obtain ⟨e, he⟩ := expands_of_node rfl hr
    obtain ⟨n, hn, hloop⟩ := hcycle
    exact absurd hloop (he.ends.of_reached hn).not_reentered
  · have hrefuses : Refuses failure := onlyRefuses_node _ _ _ _ failure (by rw [hr])
    rintro how rfl
    cases hrefuses

theorem source_of_no_aliases (h : parse stream broken = some (some root))
    (hfree : ∀ n ∈ root.preorder, n.target? = none) :
    ∃ l f, source stream broken = .document l (-1) f ∧ (∀ line, f ≠ .aliasCycle line) ∧
      ∀ budget line, f ≠ .aliasExpansion budget line := by
  refine ⟨_, _, source_of_parse h, ?_⟩
  have hends := ends_of_no_aliases hfree root root.self_mem_preorder
  have hfrugal := frugal_node (wellFormed_of_parse h) hfree hends _ _ (start root)
    (arrives_root hends) (by simp only [start, Node.size_all]; omega)
  rcases hr : (node (root.preorder.length + 1) [] root (start root)).1 with _ | failure
  · simp
  · have hcycle := hfrugal.cycle
    have hexpansion := hfrugal.expansion
    rw [hr] at hcycle hexpansion
    exact ⟨fun line hf => hcycle line (congrArg some hf),
      fun budget line hf => hexpansion budget line (congrArg some hf)⟩

/-- A document whose paths through items, values and aliases come back to no node, whose keys are scalars
or aliases of scalars, and whose scalars have a meaning, has an expansion; within the budget the source
has exactly the tokens of the expansion. Where a path comes back to a node the source ends with a failure,
and one without aliases is never refused for their sake. -/
theorem aliases_expand_exactly (h : parse stream broken = some (some root)) :
    (¬ root.Reenters →
      (∀ n, root.Reached n → ∀ k ∈ n.keys, ((start root).resolve k).key?.isSome) →
      (∀ number line tag style value, root.Reached (.scalar number line tag style value) →
        ∃ t, scalarToken tag style value = .ok t) →
      ∃ e l, Expands root root e ∧ e.tokens? = some l) ∧
    (∀ e l, Expands root root e → e.tokens? = some l →
      l.length ≤ max 65536 (16 * root.all.size) →
      source stream broken = .document l (-1) (.exhausted .clean)) ∧
    (root.Reenters →
      ∃ l f, source stream broken = .document l (-1) f ∧ ∀ how, f ≠ .exhausted how) ∧
    ((∀ n ∈ root.preorder, n.target? = none) →
      ∃ l f, source stream broken = .document l (-1) f ∧ (∀ line, f ≠ .aliasCycle line) ∧
        ∀ budget line, f ≠ .aliasExpansion budget line) := by
  refine ⟨fun hcycle hkeys hscalars => ?_, fun e l => source_of_expands h, source_of_reenters h,
    source_of_no_aliases h⟩
  have hends : Ends root root := ends_of_not_reenters hcycle .refl
  exact exists_expands (wellFormed_of_parse h) hkeys hscalars .refl hends

end Source

/-! A mapping and its key that are used again, and a sequence that holds itself. -/

def sharedText : Text := "- &x\n  &k k: 1\n- *x\n- *k : *x\n"

def shared : Node :=
  .sequence 0 1 [] [.mapping 1 1 [] [(.scalar 2 2 [] .plain "k", .scalar 3 2 [] .plain "1")],
    .alias 4 3 1, .mapping 5 4 [] [(.alias 6 4 2, .alias 7 4 1)]]

def loopText : Text := "&a\n- *a\n"

def loop : Node := .sequence 0 1 [] [.alias 1 2 0]

theorem parse_sharedText : parse sharedText false = some (some shared) := by
  decide +kernel

theorem parse_loopText : parse loopText false = some (some loop) := by
  decide +kernel

theorem aliases_expand_exactly_shared :
    parse sharedText false = some (some shared) ∧
    source sharedText false = .document
      ([⟨.beginArray, 1⟩] ++ [⟨.beginObject, 1⟩, ⟨.key "k", 2⟩, ⟨.number "1", 2⟩, ⟨.endObject, 1⟩] ++
        [⟨.beginObject, 1⟩, ⟨.key "k", 2⟩, ⟨.number "1", 2⟩, ⟨.endObject, 1⟩] ++
        [⟨.beginObject, 4⟩, ⟨.key "k", 2⟩] ++
        [⟨.beginObject, 1⟩, ⟨.key "k", 2⟩, ⟨.number "1", 2⟩, ⟨.endObject, 1⟩] ++
        [⟨.endObject, 4⟩, ⟨.endArray, 1⟩])
      (-1) (.exhausted .clean) ∧
    parse loopText false = some (some loop) ∧ loop.Reenters ∧
    ∃ l f, source loopText false = .document l (-1) f ∧ ∀ how, f ≠ .exhausted how := by
  obtain ⟨-, hexact, -, -⟩ := aliases_expand_exactly parse_sharedText
  obtain ⟨-, -, hcycle, -⟩ := aliases_expand_exactly parse_loopText
  have hmapping : Expands shared
      (.mapping 1 1 [] [(.scalar 2 2 [] .plain "k", .scalar 3 2 [] .plain "1")])
      (.mapping 1 1 [] [(.scalar 2 2 [] .plain "k", .scalar 3 2 [] .plain "1")]) :=
    .mapping (.cons rfl .scalar .nil)
  have hexpands : Expands shared shared _ :=
    .sequence (.cons hmapping (.cons (.target rfl hmapping)
      (.cons (.mapping (.cons rfl (.target rfl hmapping) .nil)) .nil)))
  have hloop : loop.Reenters :=
    ⟨loop, .refl, .tail (.single (.part (.head _))) (.target rfl rfl)⟩
  refine ⟨parse_sharedText, hexact _ _ hexpands ?_ ?_, parse_loopText, hloop, hcycle hloop⟩
  · decide +kernel
  · decide +kernel

end WireSchema.Yaml
