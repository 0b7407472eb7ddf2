import Mathlib.Tactic.SplitIfs
import WireSchema.Yaml.Tokens

/-!
# The numbers of nodes

A document that was parsed is `WellFormed`: its nodes are numbered in the order in which they begin,
so that each one stands at its number among `Node.all`, and every alias stands for one of them. The
parser gives out the numbers one by one, before what is below a node is read; its part of the proof is
therefore a calculus of what has begun so far, `Read.Marks`.
-/

namespace WireSchema.Yaml

namespace Node

mutual

/-- A node and those below it, in the order in which they begin. -/
def preorder : Node → List Node
  | .scalar number line tag style value => [.scalar number line tag style value]
  | .sequence number line tag items => .sequence number line tag items :: itemsPreorder items
  | .mapping number line tag entries => .mapping number line tag entries :: entriesPreorder entries
  | .alias number line target => [.alias number line target]

def itemsPreorder : List Node → List Node
  | [] => []
  | n :: rest => n.preorder ++ itemsPreorder rest

/-- The nodes of the keys and values of a mapping. -/
def entriesPreorder : List (Node × Node) → List Node
  | [] => []
  | (k, v) :: rest => k.preorder ++ (v.preorder ++ entriesPreorder rest)

end

mutual

theorem collect_eq : ∀ (n : Node) (seen : List Node), collect seen n = n.preorder.reverse ++ seen
  | .scalar .., seen | .alias .., seen => by simp [collect, preorder]
  | .sequence number line tag items, seen => by
    rw [collect, collectItems_eq]
    simp [preorder]
  | .mapping number line tag entries, seen => by
    rw [collect, collectEntries_eq]
    simp [preorder]

theorem collectItems_eq : ∀ items seen : List Node,
    collect.collectItems seen items = (itemsPreorder items).reverse ++ seen
  | [], seen => by simp [collect.collectItems, itemsPreorder]
  | n :: rest, seen => by
    rw [collect.collectItems, collect_eq n, collectItems_eq rest]
    simp [itemsPreorder]

theorem collectEntries_eq : ∀ (entries : List (Node × Node)) (seen : List Node),
    collect.collectEntries seen entries = (entriesPreorder entries).reverse ++ seen
  | [], seen => by simp [collect.collectEntries, entriesPreorder]
  | (k, v) :: rest, seen => by
    rw [collect.collectEntries, collect_eq k, collect_eq v, collectEntries_eq rest]
    simp [entriesPreorder]

end

theorem all_eq (n : Node) : n.all = n.preorder.toArray := by
  simp [all, collect_eq]

theorem size_all (n : Node) : n.all.size = n.preorder.length := by
  simp [all_eq]

theorem itemsPreorder_append (l l' : List Node) :
    itemsPreorder (l ++ l') = itemsPreorder l ++ itemsPreorder l' := by
  induction l with
  | nil => rfl
  | cons n l ih => simp [itemsPreorder, ih]

theorem entriesPreorder_append (l l' : List (Node × Node)) :
    entriesPreorder (l ++ l') = entriesPreorder l ++ entriesPreorder l' := by
  induction l with
  | nil => rfl
  | cons e l ih => simp [entriesPreorder, ih]

def target? : Node → Option Nat
  | .alias _ _ target => some target
  | _ => none

/-- The nodes of the tree are numbered in the order in which they begin, and each alias stands for one
of them. -/
structure WellFormed (root : Node) : Prop where
  numbers : root.preorder.map number = List.range root.preorder.length
  targets : ∀ n ∈ root.preorder, ∀ i ∈ n.target?, i < root.preorder.length

/-! ## What is below a node -/

/-- The nodes right below a node that have tokens of their own: the items of a sequence and the values
of a mapping. -/
def parts : Node → List Node
  | .sequence _ _ _ items => items
  | .mapping _ _ _ entries => entries.map (·.2)
  | _ => []

theorem self_mem_preorder (n : Node) : n ∈ n.preorder := by
  cases n <;> simp [preorder]

theorem preorder_subset_items {n : Node} {items : List Node} (h : n ∈ items) :
    n.preorder ⊆ itemsPreorder items := by
  induction h with
  | head => exact List.subset_append_left _ _
  | tail _ _ ih => exact List.subset_append_of_subset_right _ ih

theorem preorder_subset_entries {k v : Node} {entries : List (Node × Node)} (h : (k, v) ∈ entries) :
    v.preorder ⊆ entriesPreorder entries := by
  induction entries with
  | nil => cases h
  | cons e rest ih =>
    refine List.subset_append_of_subset_right _ ?_
    rcases List.mem_cons.mp h with rfl | h
    · exact List.subset_append_left _ _
    · exact List.subset_append_of_subset_right _ (ih h)

theorem preorder_subset_of_part {m n : Node} (h : m ∈ n.parts) : m.preorder ⊆ n.preorder := by
  match n, h with
  | .sequence number line tag items, h =>
    exact List.subset_cons_of_subset _ (preorder_subset_items h)
  | .mapping number line tag entries, h =>
    obtain ⟨⟨k, v⟩, hmem, rfl⟩ := List.mem_map.mp h
    exact List.subset_cons_of_subset _ (preorder_subset_entries hmem)

mutual

theorem preorder_subset : ∀ {m : Node} (n : Node), m ∈ n.preorder → m.preorder ⊆ n.preorder
  | m, .scalar .., h | m, .alias .., h => by
    obtain rfl := List.mem_singleton.mp h
    exact List.Subset.refl _
  | m, .sequence number line tag items, h => by
    rcases List.mem_cons.mp h with rfl | h
    · exact List.Subset.refl _
    · exact List.subset_cons_of_subset _ (itemsPreorder_subset items h)
  | m, .mapping number line tag entries, h => by
    rcases List.mem_cons.mp h with rfl | h
    · exact List.Subset.refl _
    · exact List.subset_cons_of_subset _ (entriesPreorder_subset entries h)

theorem itemsPreorder_subset : ∀ {m : Node} (items : List Node),
    m ∈ itemsPreorder items → m.preorder ⊆ itemsPreorder items
  | m, n :: rest, h => by
    rcases List.mem_append.mp h with h | h
    · exact List.subset_append_of_subset_left _ (preorder_subset n h)
    · exact List.subset_append_of_subset_right _ (itemsPreorder_subset rest h)

theorem entriesPreorder_subset : ∀ {m : Node} (entries : List (Node × Node)),
    m ∈ entriesPreorder entries → m.preorder ⊆ entriesPreorder entries
  | m, (k, v) :: rest, h => by
    rcases List.mem_append.mp h with h | h
    · exact List.subset_append_of_subset_left _ (preorder_subset k h)
    · refine List.subset_append_of_subset_right _ ?_
      rcases List.mem_append.mp h with h | h
      · exact List.subset_append_of_subset_left _ (preorder_subset v h)
      · exact List.subset_append_of_subset_right _ (entriesPreorder_subset rest h)

end

theorem mem_preorder_of_part {root m n : Node} (hn : n ∈ root.preorder) (h : m ∈ n.parts) :
    m ∈ root.preorder :=
  preorder_subset root hn (preorder_subset_of_part h (self_mem_preorder m))

namespace WellFormed

variable {root m n : Node}

theorem getElem?_number (h : root.WellFormed) (hn : n ∈ root.preorder) :
    root.preorder[n.number]? = some n := by
  obtain ⟨i, hi⟩ := List.mem_iff_getElem?.mp hn
  have hlt : i < root.preorder.length := (List.getElem?_eq_some_iff.mp hi).1
  have hnumber : (root.preorder.map number)[i]? = some n.number := by simp [hi]
  rw [h.numbers, List.getElem?_range hlt] at hnumber
  cases hnumber
  exact hi

theorem number_lt (h : root.WellFormed) (hn : n ∈ root.preorder) :
    n.number < root.preorder.length :=
  (List.getElem?_eq_some_iff.mp (h.getElem?_number hn)).1

theorem eq_of_number (h : root.WellFormed) (hm : m ∈ root.preorder) (hn : n ∈ root.preorder)
    (heq : m.number = n.number) : m = n :=
  Option.some.inj ((h.getElem?_number hm).symm.trans (heq ▸ h.getElem?_number hn))

end WellFormed

end Node

/-! ## What has begun -/

open Node (itemsPreorder entriesPreorder)

/-- The number of a node and, for an alias, of what it stands for. -/
abbrev Mark := Nat × Option Nat

def Node.mark (n : Node) : Mark := (n.number, n.target?)

/-- The nodes begun so far have the marks `l`: they are numbered in order, and aliases and anchors
know only nodes among them. -/
structure Reading.Marked (s : Reading) (l : List Mark) : Prop where
  numbers : l.map (·.1) = List.range s.count
  targets : ∀ m ∈ l, ∀ i ∈ m.2, i < s.count
  anchors : ∀ a ∈ s.anchors, a.2 < s.count

namespace Reading

/-- One more node begins. -/
theorem Marked.snoc {s s' : Reading} {l : List Mark} (h : s.Marked l) {target : Option Nat}
    (htarget : ∀ i ∈ target, i < s.count) (hcount : s'.count = s.count + 1)
    (hanchors : ∀ a ∈ s'.anchors, a ∈ s.anchors ∨ a.2 = s.count) :
    s'.Marked (l ++ [(s.count, target)]) := by
  refine ⟨?_, ?_, ?_⟩
  · rw [List.map_append, h.numbers, hcount, List.range_succ]
    rfl
  · intro m hm i hi
    rw [hcount]
    rcases List.mem_append.mp hm with hm | hm
    · exact Nat.lt_succ_of_lt (h.targets m hm i hi)
    · obtain rfl := List.mem_singleton.mp hm
      exact Nat.lt_succ_of_lt (htarget i hi)
  · intro a ha
    rw [hcount]
    rcases hanchors a ha with ha | ha
    · exact Nat.lt_succ_of_lt (h.anchors a ha)
    · omega

end Reading

namespace Read

/-- Where nodes with the marks `before` have begun, reading leads to where those with the marks
`after` have. -/
def Marks {α : Type} (before : List Mark) (x : Read α) (after : α → List Mark) : Prop :=
  ∀ s a s', s.Marked before → x s = some (a, s') → s'.Marked (after a)

variable {α β : Type} {l : List Mark}

theorem of_bind {x : Read α} {f : α → Read β} {s s' : Reading} {b : β}
    (h : (x >>= f) s = some (b, s')) : ∃ a s₁, x s = some (a, s₁) ∧ f a s₁ = some (b, s') := by
  obtain ⟨⟨a, s₁⟩, hx, hf⟩ := Option.bind_eq_some_iff.mp h
  exact ⟨a, s₁, hx, hf⟩

theorem Marks.bind {x : Read α} {f : α → Read β} {m : α → List Mark} {m' : β → List Mark}
    (hx : Marks l x m) (hf : ∀ a, Marks (m a) (f a) m') : Marks l (x >>= f) m' := by
  intro s b s' hs h
  obtain ⟨a, s₁, h₁, h₂⟩ := of_bind h
  exact hf a s₁ b s' (hx s a s₁ hs h₁) h₂

theorem marks_pure {a : α} {m : α → List Mark} (h : m a = l) : Marks l (pure a) m := by
  rintro s b s' hs ⟨⟩
  exact h ▸ hs

theorem marks_failure {m : α → List Mark} : Marks l failure m := by
  rintro s a s' hs ⟨⟩

theorem marks_peek : Marks l peek fun _ => l := by
  intro s a s' hs h
  obtain ⟨_, -, heq⟩ := Option.map_eq_some_iff.mp h
  cases heq
  exact hs

theorem marks_expansion (handle : List Char) : Marks l (expansion handle) fun _ => l := by
  intro s a s' hs h
  obtain ⟨_, -, heq⟩ := Option.map_eq_some_iff.mp h
  cases heq
  exact hs

theorem marks_skip : Marks l skip fun _ => l := by
  rintro s a s' hs ⟨⟩
  exact ⟨hs.numbers, hs.targets, hs.anchors⟩

theorem marks_fresh (anchor : Option (List Char)) :
    Marks l (fresh anchor) fun number => l ++ [(number, none)] := by
  rintro s number s' hs ⟨⟩
  refine hs.snoc (by simp) rfl ?_
  cases anchor with
  | none => exact fun a ha => .inl ha
  | some name =>
    intro a ha
    rcases List.mem_cons.mp ha with rfl | ha
    · exact .inr rfl
    · exact .inl ha

theorem marks_alias (name : List Char) (line : Nat) :
    Marks l (do return Node.alias (← fresh none) line (← target name))
      fun n => l ++ n.preorder.map Node.mark := by
  intro s n s' hs h
  obtain ⟨number, s₁, ⟨⟩, h⟩ := of_bind h
  obtain ⟨i, s₂, htarget, ⟨⟩⟩ := of_bind h
  obtain ⟨_, hlookup, heq⟩ := Option.map_eq_some_iff.mp htarget
  cases heq
  have hmem : (name, i) ∈ s.anchors := by
    obtain ⟨l₁, l₂, heq, -⟩ := List.lookup_eq_some_iff.mp hlookup
    simp [show s.anchors = _ from heq]
  have htarget : ∀ j ∈ some i, j < s.count := by
    rintro j ⟨⟩
    exact hs.anchors _ hmem
  exact hs.snoc htarget rfl fun a ha => .inl ha

end Read

/-! ## Reading nodes -/

section Nodes

open Read

variable {l : List Mark}

theorem marks_readAnchor (p : Properties) : Marks l p.readAnchor fun _ => l := by
  refine marks_peek.bind fun t => ?_
  split
  · exact marks_skip.bind fun _ => marks_pure rfl
  · exact marks_pure rfl

theorem marks_readTag (p : Properties) : Marks l p.readTag fun _ => l := by
  refine marks_peek.bind fun t => ?_
  split
  · refine marks_skip.bind fun _ => ?_
    extract_lets done
    split
    · exact marks_pure rfl
    · refine .bind (m := fun _ => l) ?_ fun _ => marks_pure rfl
      exact (marks_expansion _).bind fun _ => marks_pure rfl
  · exact marks_pure rfl

theorem marks_properties : Marks l Properties.read fun _ => l := by
  refine (marks_readAnchor _).bind fun p => (marks_readTag p).bind fun p => ?_
  split
  · exact marks_pure rfl
  · exact marks_readAnchor p

theorem marks_emptyScalar (line : Nat) :
    Marks l (emptyScalar line) fun n => l ++ n.preorder.map Node.mark :=
  (marks_fresh none).bind fun _ => marks_pure rfl

theorem marks_bare (p : Properties) (line : Nat) :
    Marks l (bare p line) fun n => l ++ n.preorder.map Node.mark := by
  rw [bare]
  split
  · exact marks_failure
  · exact (marks_fresh _).bind fun _ => marks_pure rfl

theorem marks_separator (first : Bool) (close : Word) : Marks l (separator first close) fun _ => l := by
  rw [separator]
  refine marks_peek.bind fun t => ?_
  extract_lets w
  split_ifs
  · exact marks_pure rfl
  · exact marks_skip
  · exact marks_failure

def MarksNode (x : Read Node) : Prop := ∀ l, Marks l x fun n => l ++ n.preorder.map Node.mark

/-- Reading on after the items `seen`, last first, begins the nodes of the items that follow. -/
def MarksItems (seen : List Node) (x : Read (List Node)) : Prop :=
  ∀ l, Marks (l ++ (itemsPreorder seen.reverse).map Node.mark) x
    fun items => l ++ (itemsPreorder items).map Node.mark

/-- Reading on after the entries `seen`, last first, begins the nodes of the entries that follow. -/
def MarksEntries (seen : List (Node × Node)) (x : Read (List (Node × Node))) : Prop :=
  ∀ l, Marks (l ++ (entriesPreorder seen.reverse).map Node.mark) x
    fun entries => l ++ (entriesPreorder entries).map Node.mark

theorem marks_sequence {anchor : Option (List Char)} {line : Nat} {tag : Text}
    {x : Read (List Node)} (h : MarksItems [] x) :
    Marks l (do return Node.sequence (← fresh anchor) line tag (← x))
      fun n => l ++ n.preorder.map Node.mark := by
  refine (marks_fresh anchor).bind fun number => ?_
  refine .bind (by simpa [itemsPreorder] using h (l ++ [(number, none)])) fun items => marks_pure ?_
  simp [Node.preorder, Node.mark, Node.number, Node.target?]

theorem marks_mapping {anchor : Option (List Char)} {line : Nat} {tag : Text}
    {x : Read (List (Node × Node))} (h : MarksEntries [] x) :
    Marks l (do return Node.mapping (← fresh anchor) line tag (← x))
      fun n => l ++ n.preorder.map Node.mark := by
  refine (marks_fresh anchor).bind fun number => ?_
  refine .bind (by simpa [entriesPreorder] using h (l ++ [(number, none)])) fun entries =>
    marks_pure ?_
  simp [Node.preorder, Node.mark, Node.number, Node.target?]

theorem marksItems_cons {seen : List Node} {x : Read Node} {next : Node → Read (List Node)}
    (hx : MarksNode x) (hnext : ∀ n, MarksItems (n :: seen) (next n)) :
    MarksItems seen (x >>= next) := by
  intro l
  refine (hx _).bind fun n => ?_
  simpa [Node.itemsPreorder_append, itemsPreorder] using hnext n l

theorem MarksEntries.cons {seen : List (Node × Node)} {k v : Node} {x : Read (List (Node × Node))}
    (h : MarksEntries ((k, v) :: seen) x) (l : List Mark) :
    Marks (l ++ (entriesPreorder seen.reverse).map Node.mark ++ k.preorder.map Node.mark ++
      v.preorder.map Node.mark) x fun entries => l ++ (entriesPreorder entries).map Node.mark := by
  simpa [Node.entriesPreorder_append, entriesPreorder] using h l

/-- One more entry, and those after it. -/
theorem marksEntries_cons {seen : List (Node × Node)} {x : Read Node} {y : Node → Read Node}
    {next : Node → Node → Read (List (Node × Node))} (hx : MarksNode x) (hy : ∀ k, MarksNode (y k))
    (hnext : ∀ k v, MarksEntries ((k, v) :: seen) (next k v)) :
    MarksEntries seen (do let k ← x; let v ← y k; next k v) := by
  intro l
  exact (hx _).bind fun k => (hy k _).bind fun v => (hnext k v).cons l

/-- With the given fuel every reader begins the nodes that it reads. -/
structure AllMark (fuel : Nat) : Prop where
  node : ∀ block indentless, MarksNode (readNode block indentless fuel)
  blockItems : ∀ seen, MarksItems seen (readBlockItems seen fuel)
  plainItems : ∀ seen, MarksItems seen (readPlainItems seen fuel)
  flowItems : ∀ first seen, MarksItems seen (readFlowItems first seen fuel)
  blockEntries : ∀ seen, MarksEntries seen (readBlockEntries seen fuel)
  flowEntries : ∀ first seen, MarksEntries seen (readFlowEntries first seen fuel)
  blockValue : MarksNode (readBlockValue fuel)
  flowValue : ∀ close, MarksNode (readFlowValue close fuel)

namespace AllMark

variable {fuel : Nat}

theorem node_succ (h : AllMark fuel) (block indentless : Bool) :
    MarksNode (readNode block indentless (fuel + 1)) := by
  intro l
  rw [readNode]
  refine marks_peek.bind fun t => ?_
  split
  · exact marks_skip.bind fun _ => marks_alias _ _
  · refine marks_properties.bind fun p => marks_peek.bind fun t => ?_
    extract_lets line
    split
    · exact marks_skip.bind fun _ => (marks_fresh _).bind fun _ => marks_pure rfl
    · exact marks_skip.bind fun _ => marks_sequence (h.flowItems true [])
    · exact marks_skip.bind fun _ => marks_mapping (h.flowEntries true [])
    · split
      · exact marks_sequence (h.plainItems [])
      · exact marks_bare p line
    · split
      · exact marks_skip.bind fun _ => marks_sequence (h.blockItems [])
      · exact marks_bare p line
    · split
      · exact marks_skip.bind fun _ => marks_mapping (h.blockEntries [])
      · exact marks_bare p line
    · exact marks_bare p line

theorem blockItems_succ (h : AllMark fuel) (seen : List Node) :
    MarksItems seen (readBlockItems seen (fuel + 1)) := by
  intro l
  rw [readBlockItems]
  refine marks_peek.bind fun t => marks_skip.bind fun _ => ?_
  split
  · refine marks_peek.bind fun next => ?_
    extract_lets w done
    split
    · exact marksItems_cons (fun _ => marks_emptyScalar _) (fun n => h.blockItems _) l
    · exact marksItems_cons (h.node _ _) (fun n => h.blockItems _) l
  · exact marks_pure rfl
  · exact marks_failure

theorem plainItems_succ (h : AllMark fuel) (seen : List Node) :
    MarksItems seen (readPlainItems seen (fuel + 1)) := by
  intro l
  rw [readPlainItems]
  refine marks_peek.bind fun t => ?_
  split
  · refine marks_skip.bind fun _ => marks_peek.bind fun next => ?_
    extract_lets w done
    split
    · exact marksItems_cons (fun _ => marks_emptyScalar _) (fun n => h.plainItems _) l
    · exact marksItems_cons (h.node _ _) (fun n => h.plainItems _) l
  · exact marks_pure rfl

theorem blockEntries_succ (h : AllMark fuel) (seen : List (Node × Node)) :
    MarksEntries seen (readBlockEntries seen (fuel + 1)) := by
  intro l
  rw [readBlockEntries]
  refine marks_peek.bind fun t => marks_skip.bind fun _ => ?_
  split
  · refine marks_peek.bind fun next => ?_
    extract_lets done
    split
    · exact marksEntries_cons (fun _ => marks_emptyScalar _) (fun k => h.blockValue)
        (fun k v => h.blockEntries _) l
    · exact marksEntries_cons (h.node _ _) (fun k => h.blockValue) (fun k v => h.blockEntries _) l
  · exact marks_pure rfl
  · exact marks_failure

theorem blockValue_succ (h : AllMark fuel) : MarksNode (readBlockValue (fuel + 1)) := by
  intro l
  rw [readBlockValue]
  refine marks_peek.bind fun t => ?_
  split
  · refine marks_skip.bind fun _ => marks_peek.bind fun next => ?_
    split
    · exact marks_emptyScalar _
    · exact h.node _ _ l
  · exact marks_emptyScalar _

theorem flowValue_succ (h : AllMark fuel) (close : Word) :
    MarksNode (readFlowValue close (fuel + 1)) := by
  intro l
  rw [readFlowValue]
  refine marks_peek.bind fun t => ?_
  split
  · refine marks_skip.bind fun _ => marks_peek.bind fun next => ?_
    split
    · exact marks_emptyScalar _
    · exact h.node _ _ l
  · exact marks_emptyScalar _

theorem flowEntries_succ (h : AllMark fuel) (first : Bool) (seen : List (Node × Node)) :
    MarksEntries seen (readFlowEntries first seen (fuel + 1)) := by
  intro l
  rw [readFlowEntries]
  refine (marks_separator _ _).bind fun _ => marks_peek.bind fun t => ?_
  split
  · exact marks_skip.bind fun _ => marks_pure rfl
  · refine marks_skip.bind fun _ => marks_peek.bind fun next => ?_
    extract_lets done
    split
    · exact marksEntries_cons (fun _ => marks_emptyScalar _) (fun k => h.flowValue _)
        (fun k v => h.flowEntries _ _) l
    · exact marksEntries_cons (h.node _ _) (fun k => h.flowValue _) (fun k v => h.flowEntries _ _) l
  · exact (h.node _ _ _).bind fun k => marks_peek.bind fun _ => (marks_emptyScalar _).bind fun v =>
      (h.flowEntries _ _).cons l

theorem flowItems_succ (h : AllMark fuel) (first : Bool) (seen : List Node) :
    MarksItems seen (readFlowItems first seen (fuel + 1)) := by
  intro l
  rw [readFlowItems]
  refine (marks_separator _ _).bind fun _ => marks_peek.bind fun t => ?_
  split
  · exact marks_skip.bind fun _ => marks_pure rfl
  · refine marks_skip.bind fun _ => (marks_fresh none).bind fun number => marks_peek.bind fun next => ?_
    -- a mapping of one entry, the number of which is given out before its key is read
    have hpair (k v : Node) : Marks (l ++ (itemsPreorder seen.reverse).map Node.mark ++
        [(number, none)] ++ k.preorder.map Node.mark ++ v.preorder.map Node.mark)
        (readFlowItems false (.mapping number (t.line + 1) [] [(k, v)] :: seen) fuel)
        fun items => l ++ (itemsPreorder items).map Node.mark := by
      simpa [Node.itemsPreorder_append, itemsPreorder, Node.preorder, entriesPreorder, Node.mark,
        Node.number, Node.target?] using
        h.flowItems false (.mapping number (t.line + 1) [] [(k, v)] :: seen) l
    extract_lets done
    split
    · exact marks_skip.bind fun _ => (marks_emptyScalar _).bind fun k =>
        (h.flowValue _ _).bind (hpair k)
    · exact (h.node _ _ _).bind fun k => (h.flowValue _ _).bind (hpair k)
  · exact marksItems_cons (h.node _ _) (fun n => h.flowItems _ _) l

end AllMark

theorem allMark_zero : AllMark 0 := by
  constructor <;> intros <;> intro l <;> exact marks_failure

theorem allMark (fuel : Nat) : AllMark fuel := by
  induction fuel with
  | zero => exact allMark_zero
  | succ fuel ih =>
    exact ⟨ih.node_succ, ih.blockItems_succ, ih.plainItems_succ, ih.flowItems_succ,
      ih.blockEntries_succ, ih.flowEntries_succ, ih.blockValue_succ, ih.flowValue_succ⟩

theorem marks_readDirectives (fuel : Nat) (version : Bool) (handles : List (List Char × List Char)) :
    Marks l (readDirectives fuel version handles) fun _ => l := by
  induction fuel generalizing version handles with
  | zero => exact marks_failure
  | succ fuel ih =>
    rw [readDirectives]
    refine marks_peek.bind fun t => ?_
    split
    · split
      · exact marks_failure
      · exact marks_skip.bind fun _ => ih _ _
    · split
      · exact marks_failure
      · exact marks_skip.bind fun _ => ih _ _
    · exact marks_pure rfl

theorem marks_handles (handles : List (List Char × List Char)) :
    Marks l (modify fun s => { s with handles := handles ++ s.handles }) fun _ => l := by
  rintro s a s' hs ⟨⟩
  exact ⟨hs.numbers, hs.targets, hs.anchors⟩

theorem marks_readDocument (fuel : Nat) :
    Marks [] (readDocument fuel) fun root? => root?.toList.flatMap (·.preorder.map Node.mark) := by
  have hroot (x : Read Node) (h : MarksNode x) :
      Marks [] (do let n ← x; let _ ← peek; return some n)
        fun root? => root?.toList.flatMap (·.preorder.map Node.mark) :=
    (h []).bind fun n => marks_peek.bind fun _ => marks_pure (by simp)
  rw [readDocument]
  refine marks_peek.bind fun t => ?_
  split
  · exact marks_pure rfl
  iterate 3
    · refine (marks_readDirectives _ _ _).bind fun handles => marks_peek.bind fun t => ?_
      split
      · exact marks_failure
      · refine marks_skip.bind fun _ => (marks_handles handles).bind fun _ => ?_
        refine marks_peek.bind fun t => ?_
        extract_lets done
        split
        iterate 5
          · exact hroot _ fun _ => marks_emptyScalar _
        · exact hroot _ ((allMark fuel).node _ _)
  · exact hroot _ ((allMark fuel).node _ _)

end Nodes

/-- A document that is parsed is well-formed. -/
theorem wellFormed_of_parse {stream : Text} {broken : Bool} {root : Node}
    (h : parse stream broken = some (some root)) : root.WellFormed := by
  obtain ⟨cs, -, h⟩ := Option.bind_eq_some_iff.mp h
  obtain ⟨⟨n, s⟩, hread, heq⟩ := Option.bind_eq_some_iff.mp h
  cases heq
  have hs := marks_readDocument _ _ _ s ⟨rfl, by simp, by simp⟩ hread
  have hnumbers : root.preorder.map Node.number = List.range s.count := by
    simpa [Function.comp_def, Node.mark] using hs.numbers
  have hcount : root.preorder.length = s.count := by
    simpa using congrArg List.length hnumbers
  refine ⟨hcount ▸ hnumbers, fun n hn i hi => ?_⟩
  rw [hcount]
  exact hs.targets n.mark (by simpa using ⟨n, hn, rfl⟩) i hi

end WireSchema.Yaml
