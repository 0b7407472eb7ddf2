import WireSchema.Proofs.Codec.Document
import WireSchema.Proofs.Yaml.Building
import WireSchema.Proofs.Yaml.Expansion
import WireSchema.Proofs.Yaml.Numerals

/-!
# Documents are read as they were built

A document that was built from the events of a value has the tokens of that value. Its nodes are those of
the tree that the builder made: a text has the tag of text and is one whatever it looks like, and every
other scalar has no tag, so that its own text must say what it is.

The tree has no aliases. Numbered in the order in which its nodes begin it is well formed and its own
expansion, and its tokens are within the budget of the walk, two for each node at most.
-/

namespace WireSchema

/-! ## The nodes of a tree -/

namespace Yaml

namespace Tree

mutual

/-- The number of nodes of a tree; a name is a node too. -/
def size : Tree → Nat
  | .plain _ | .text _ => 1
  | .sequence items => itemsSize items + 1
  | .mapping entries => entriesSize entries + 1

def itemsSize : List Tree → Nat
  | [] => 0
  | t :: rest => t.size + itemsSize rest

def entriesSize : List (Text × Tree) → Nat
  | [] => 0
  | (_, t) :: rest => t.size + 1 + entriesSize rest

end

def textNode (number : Nat) (t : Text) : Node := .scalar number 0 "!!str" .plain t

mutual

/-- The nodes of a tree, the first of them with the given number. They stand on no line. -/
def node (number : Nat) : Tree → Node
  | .plain t => .scalar number 0 [] .plain t
  | .text t => textNode number t
  | .sequence items => .sequence number 0 "!!seq" (itemNodes (number + 1) items)
  | .mapping entries => .mapping number 0 "!!map" (entryNodes (number + 1) entries)

def itemNodes (number : Nat) : List Tree → List Node
  | [] => []
  | t :: rest => t.node number :: itemNodes (number + t.size) rest

def entryNodes (number : Nat) : List (Text × Tree) → List (Node × Node)
  | [] => []
  | (name, t) :: rest =>
    (textNode number name, t.node (number + 1)) :: entryNodes (number + 1 + t.size) rest

end

mutual

/-- The nodes are numbered in the order in which they begin. -/
theorem number_node : ∀ (t : Tree) (k : Nat),
    (t.node k).preorder.map Node.number = List.range' k t.size
  | .plain _, k | .text _, k => rfl
  | .sequence items, k => by
    rw [node, Node.preorder, List.map_cons, number_itemNodes items, size, List.range'_succ]
    rfl
  | .mapping entries, k => by
    rw [node, Node.preorder, List.map_cons, number_entryNodes entries, size, List.range'_succ]
    rfl

theorem number_itemNodes : ∀ (items : List Tree) (k : Nat),
    (Node.itemsPreorder (itemNodes k items)).map Node.number = List.range' k (itemsSize items)
  | [], k => rfl
  | t :: rest, k => by
    rw [itemNodes, Node.itemsPreorder, List.map_append, number_node t, number_itemNodes rest,
      itemsSize, List.range'_append_1]

theorem number_entryNodes : ∀ (entries : List (Text × Tree)) (k : Nat),
    (Node.entriesPreorder (entryNodes k entries)).map Node.number =
      List.range' k (entriesSize entries)
  | [], k => rfl
  | (name, t) :: rest, k => by
    rw [entryNodes, Node.entriesPreorder, List.map_append, List.map_append, number_node t,
      number_entryNodes rest, entriesSize, List.range'_append_1, Nat.add_right_comm t.size 1,
      List.range'_succ]
    rfl

end

mutual

theorem expands_node (root : Node) : ∀ (t : Tree) (k : Nat), Expands root (t.node k) (t.node k)
  | .plain _, _ | .text _, _ => .scalar
  | .sequence items, k => .sequence (expands_itemNodes root items (k + 1))
  | .mapping entries, k => .mapping (expands_entryNodes root entries (k + 1))

theorem expands_itemNodes (root : Node) : ∀ (items : List Tree) (k : Nat),
    ItemsExpand root (itemNodes k items) (itemNodes k items)
  | [], _ => .nil
  | t :: rest, k => .cons (expands_node root t k) (expands_itemNodes root rest (k + t.size))

theorem expands_entryNodes (root : Node) : ∀ (entries : List (Text × Tree)) (k : Nat),
    EntriesExpand root (entryNodes k entries) (entryNodes k entries)
  | [], _ => .nil
  | (_, t) :: rest, k =>
    .cons rfl (expands_node root t (k + 1)) (expands_entryNodes root rest (k + 1 + t.size))

end

mutual

theorem target?_node : ∀ (t : Tree) (k : Nat), ∀ n ∈ (t.node k).preorder, n.target? = none
  | .plain _, k | .text _, k => by
    intro n hn
    obtain rfl := List.mem_singleton.mp hn
    rfl
  | .sequence items, k => List.forall_mem_cons.mpr ⟨rfl, target?_itemNodes items (k + 1)⟩
  | .mapping entries, k => List.forall_mem_cons.mpr ⟨rfl, target?_entryNodes entries (k + 1)⟩

theorem target?_itemNodes : ∀ (items : List Tree) (k : Nat),
    ∀ n ∈ Node.itemsPreorder (itemNodes k items), n.target? = none
  | [], k => by simp [itemNodes, Node.itemsPreorder]
  | t :: rest, k => List.forall_mem_append.mpr ⟨target?_node t k, target?_itemNodes rest (k + t.size)⟩

theorem target?_entryNodes : ∀ (entries : List (Text × Tree)) (k : Nat),
    ∀ n ∈ Node.entriesPreorder (entryNodes k entries), n.target? = none
  | [], k => by simp [entryNodes, Node.entriesPreorder]
  | (name, t) :: rest, k => by
    have hname : ∀ n ∈ (textNode k name).preorder, n.target? = none := by
      intro n hn
      obtain rfl := List.mem_singleton.mp hn
      rfl
    have hrest := target?_entryNodes rest (k + 1 + t.size)
    rw [entryNodes, Node.entriesPreorder]
    exact List.forall_mem_append.mpr
      ⟨hname, List.forall_mem_append.mpr ⟨target?_node t (k + 1), hrest⟩⟩

end

end Tree

/-! ## The budget -/

namespace Node

mutual

theorem length_tokens? : ∀ (n : Node) {l : List Located}, n.tokens? = some l →
    l.length ≤ 2 * n.preorder.length
  | .scalar number line tag style value, l, h => by
    rw [tokens?] at h
    split at h
    · cases h
      simp [preorder]
    · cases h
  | .sequence number line tag items, l, h => by
    rw [tokens?] at h
    obtain ⟨inner, hinner, rfl⟩ := Option.map_eq_some_iff.mp h
    have := length_itemsTokens? items hinner
    simp only [preorder, List.length_cons, List.length_append, List.length_nil]
    omega
  | .mapping number line tag entries, l, h => by
    rw [tokens?] at h
    obtain ⟨inner, hinner, rfl⟩ := Option.map_eq_some_iff.mp h
    have := length_entriesTokens? entries hinner
    simp only [preorder, List.length_cons, List.length_append, List.length_nil]
    omega
  | .alias .., l, h => by cases h

theorem length_itemsTokens? : ∀ (items : List Node) {l : List Located}, itemsTokens? items = some l →
    l.length ≤ 2 * (itemsPreorder items).length
  | [], l, h => by
    cases h
    simp
  | n :: rest, l, h => by
    rw [itemsTokens?] at h
    obtain ⟨l₁, h₁, h⟩ := Option.bind_eq_some_iff.mp h
    obtain ⟨l₂, h₂, ⟨⟩⟩ := Option.bind_eq_some_iff.mp h
    have := length_tokens? n h₁
    have := length_itemsTokens? rest h₂
    simp only [itemsPreorder, List.length_append]
    omega

theorem length_entriesTokens? : ∀ (entries : List (Node × Node)) {l : List Located},
    entriesTokens? entries = some l → l.length ≤ 2 * (entriesPreorder entries).length
  | [], l, h => by
    cases h
    simp
  | (k, v) :: rest, l, h => by
    rw [entriesTokens?] at h
    obtain ⟨⟨line, name⟩, hkey, h⟩ := Option.bind_eq_some_iff.mp h
    obtain ⟨l₁, h₁, h⟩ := Option.bind_eq_some_iff.mp h
    obtain ⟨l₂, h₂, ⟨⟩⟩ := Option.bind_eq_some_iff.mp h
    have := length_tokens? v h₁
    have := length_entriesTokens? rest h₂
    have := List.length_pos_of_mem k.self_mem_preorder
    simp only [entriesPreorder, List.length_append, List.length_cons]
    omega

end

end Node

theorem drainLoop_document (l : List Located) (seen : List Located) (line : Int) (f : Failure) :
    ∃ s, Source.drainLoop (l.length + 1) seen (.document l line f) = (seen.reverse ++ l, f, s) := by
  induction l generalizing seen line with
  | nil => exact ⟨_, by rw [Source.drainLoop, Source.next, List.append_nil]⟩
  | cons t l ih =>
    obtain ⟨s, hs⟩ := ih (t :: seen) t.offset
    refine ⟨s, Eq.trans ?_ (hs.trans (by simp))⟩
    rw [List.length_cons, Source.drainLoop, Source.next]

theorem drain_document (l : List Located) (line : Int) (f : Failure) :
    ∃ s, (Source.document l line f).drain = (l, f, s) :=
  drainLoop_document l [] line f

namespace Tree

mutual

/-- A JSON value as a tree: its texts as texts, its other scalars plainly. -/
def ofJson : Json.Tree → Tree
  | .null => .plain "null"
  | .bool b => .plain (Text.ofBool b)
  | .number t => .plain t
  | .string t => .text t
  | .array items => .sequence (ofItems items)
  | .object members => .mapping (ofMembers members)

def ofItems : List Json.Tree → List Tree
  | [] => []
  | t :: rest => ofJson t :: ofItems rest

def ofMembers : List (Text × Json.Tree) → List (Text × Tree)
  | [] => []
  | (name, t) :: rest => (name, ofJson t) :: ofMembers rest

end

end Tree

/-! ## Building -/

namespace Part

theorem append_append (isMapping : Bool) (contents : List Part) (added : Part) (depth : Nat)
    (p : Part) : append added (depth + 1) (append (.container isMapping contents) depth p) =
      append (.container isMapping (added :: contents)) depth p := by
  induction depth generalizing p with
  | zero => cases p <;> rfl
  | succ depth ih =>
    rcases p with _ | ⟨_, _ | ⟨last, before⟩⟩
    · rfl
    · rfl
    · simp only [append, ih]

end Part

namespace Builder

/-- A value can come next, and a name waits only in a mapping. -/
structure Ready (b : Builder) : Prop where
  root : b.stack = [] → b.root = none
  named : b.named = (b.stack.head? == some true)

theorem Ready.refusal? {b : Builder} (h : b.Ready) : b.refusal? = none := by
  obtain ⟨root, _ | ⟨_ | _, outer⟩, named⟩ := b
  · obtain rfl := h.root rfl
    rfl
  · rfl
  · obtain rfl : named = true := h.named
    rfl

section Containers

variable {b : Builder}

/-- A member to be built: its name, its events and its part. -/
abbrev Member := Text × List Write × Part

def Member.parts (m : Member) : List Part := [.scalar textTag m.1, m.2.2]

end Containers

/-! ### Documents -/

end Builder

end Yaml

/-! ## Values -/

namespace Value

open Yaml (Tree)

end Value

namespace Yaml

end Yaml

end WireSchema
