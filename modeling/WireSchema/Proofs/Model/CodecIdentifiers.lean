import WireSchema.Proofs.Model.ArrayCodecs

/-!
# Identifiers of array codecs

The identifier of an array codec is searched for: the name of the owner's type and the exported name
of the field, then the same with 2, 3 and so on after it, until one is free. The search has no bound
of its own. It ends since the identifiers it tries are all different and only finitely many are
taken, and what it finds is the first free one, so that identifiers never repeat.
-/

namespace WireSchema.Resolve

/-! ## The search -/

/-- The search that has come to the identifier `id`, with the number `n` to be tried after it, ends
with the identifier `found`. -/
inductive Search (taken : List Text) (base : Text) : (id : Text) → (n : Nat) → (found : Text) → Prop
  | free {id : Text} {n : Nat} : id ∉ taken → Search taken base id n id
  | next {id found : Text} {n : Nat} : id ∈ taken →
      Search taken base (base ++ Text.ofNat n) (n + 1) found → Search taken base id n found

namespace Search

variable {taken : List Text} {base id a b : Text} {n k : Nat}

theorem unique (ha : Search taken base id n a) (hb : Search taken base id n b) : a = b := by
  induction ha with
  | free hfree =>
    cases hb with
    | free => rfl
    | next htaken => exact absurd htaken hfree
  | next htaken _ ih =>
    cases hb with
    | free hfree => exact absurd htaken hfree
    | next _ hb => exact ih hb

theorem of_candidates (hfree : codecCandidate base n ∉ taken)
    (htaken : ∀ i < n, codecCandidate base i ∈ taken) (hk : k ≤ n) :
    Search taken base (codecCandidate base k) (k + 2) (codecCandidate base n) := by
  induction hk using Nat.decreasingInduction with
  | self => exact .free hfree
  | of_succ i hi ih => exact .next (htaken i hi) ih

/-- The search from the base on ends with the first free candidate and with nothing else. -/
theorem iff_first (hfree : codecCandidate base n ∉ taken)
    (htaken : ∀ i < n, codecCandidate base i ∈ taken) :
    Search taken base base 2 a ↔ a = codecCandidate base n := by
  have hends : Search taken base base 2 (codecCandidate base n) :=
    of_candidates hfree htaken (Nat.zero_le n)
  exact ⟨fun h => h.unique hends, fun h => h ▸ hends⟩

end Search

/-! ## Requests for codecs -/

structure Request where
  owner : Object
  field : Text
  elem : ElemType

/-- The text that the identifiers for a request begin with. -/
def Request.base (r : Request) : Text := r.owner.typeName ++ Names.exported r.field

/-- The answers to requests made one after another, and the codecs of the model after them. -/
def issueAll (arrays : List ArrayCodec) : List Request → List Text × List ArrayCodec
  | [] => ([], arrays)
  | r :: rest =>
    let given := Draft.arrayCodec ⟨r.owner, arrays⟩ r.field r.elem
    let later := issueAll given.2.arrays rest
    (given.1 :: later.1, later.2)

/-- The identifiers among the answers: an interface is answered with the empty text, which is
none. -/
def issued (arrays : List ArrayCodec) (requests : List Request) : List Text :=
  (issueAll arrays requests).1.filter (!·.isEmpty)

section

variable (arrays : List ArrayCodec) (r : Request) (rest : List Request)

/-- An interface is given no codec, and any other object one under the first free identifier. -/
theorem issueAll_cons :
    (r.owner.isInterface = true ∧
      issueAll arrays (r :: rest) = ([] :: (issueAll arrays rest).1, (issueAll arrays rest).2)) ∨
    ∃ c : ArrayCodec, r.owner.isInterface = false ∧ c.id ≠ [] ∧
      c.id = freshCodec (arrays.map (·.id)) r.base ∧
      issueAll arrays (r :: rest) =
        (c.id :: (issueAll (arrays ++ [c]) rest).1, (issueAll (arrays ++ [c]) rest).2) := by
  rw [issueAll]
  cases hinterface : r.owner.isInterface with
  | true => exact .inl ⟨rfl, by simp [Draft.arrayCodec, hinterface]⟩
  | false =>
    refine .inr ⟨⟨freshCodec (arrays.map (·.id)) r.base, r.owner.id, r.field, r.elem⟩, rfl, ?_, rfl,
      by simp [Draft.arrayCodec, hinterface, Request.base]⟩
    exact codecCandidate_ne_nil
      (List.append_ne_nil_of_right_ne_nil _ (Names.exported_ne_nil r.field)) _

theorem issueAll_append (before : List Request) :
    issueAll arrays (before ++ rest) =
      ((issueAll arrays before).1 ++ (issueAll (issueAll arrays before).2 rest).1,
        (issueAll (issueAll arrays before).2 rest).2) := by
  induction before generalizing arrays with
  | nil => rfl
  | cons b before ih => simp [issueAll, ih]

end

theorem isEmpty_issueAll (arrays : List ArrayCodec) (requests : List Request) :
    (issueAll arrays requests).1.map List.isEmpty = requests.map (·.owner.isInterface) := by
  induction requests generalizing arrays with
  | nil => rfl
  | cons r rest ih =>
    rcases issueAll_cons arrays r rest with ⟨hinterface, heq⟩ | ⟨c, hconcrete, hne, -, heq⟩
    · simp [heq, hinterface, ih]
    · simp [heq, hconcrete, hne, ih]

theorem ids_issueAll (arrays : List ArrayCodec) (requests : List Request) :
    (issueAll arrays requests).2.map (·.id) = arrays.map (·.id) ++ issued arrays requests := by
  induction requests generalizing arrays with
  | nil => simp [issueAll, issued]
  | cons r rest ih =>
    unfold issued at ih
    rcases issueAll_cons arrays r rest with ⟨-, heq⟩ | ⟨c, -, hne, -, heq⟩
    · simp [issued, heq, ih]
    · simp [issued, heq, hne, ih]

/-- No identifier is issued twice, and none that was taken before. -/
theorem nodup_issued (arrays : List ArrayCodec) (requests : List Request) :
    (issued arrays requests).Nodup ∧
      ∀ id ∈ issued arrays requests, id ∉ arrays.map (·.id) := by
  induction requests generalizing arrays with
  | nil => simp [issueAll, issued]
  | cons r rest ih =>
    rcases issueAll_cons arrays r rest with ⟨-, heq⟩ | ⟨c, -, hne, hid, heq⟩
    · have hsame : issued arrays (r :: rest) = issued arrays rest := by simp [issued, heq]
      rw [hsame]
      exact ih arrays
    · have hcons : issued arrays (r :: rest) = c.id :: issued (arrays ++ [c]) rest := by
        simp [issued, heq, hne]
      have hfree : c.id ∉ arrays.map (·.id) := hid ▸ freshCodec_not_mem _ _
      obtain ⟨hnodup, hnew⟩ := ih (arrays ++ [c])
      simp only [List.map_append, List.mem_append, not_or] at hnew
      rw [hcons]
      refine ⟨List.nodup_cons.mpr ⟨fun h => (hnew _ h).2 (by simp), hnodup⟩, ?_⟩
      intro id hmem
      rcases List.mem_cons.mp hmem with rfl | hmem
      · exact hfree
      · exact (hnew id hmem).1

/-- **Fresh identifiers.** The search for an identifier ends, with the first candidate that is not
taken. So over any requests each object that is no interface is answered with the first candidate
that was neither taken before them nor issued to an earlier one, and no identifier is issued
twice. -/
theorem identifiers_fresh (arrays : List ArrayCodec) (requests : List Request) :
    (∀ (taken : List Text) (typeName field : Text),
      ∃ n ≤ taken.length,
        codecCandidate (typeName ++ Names.exported field) n ∉ taken ∧
        (∀ k < n, codecCandidate (typeName ++ Names.exported field) k ∈ taken) ∧
        freshCodec taken (typeName ++ Names.exported field) =
          codecCandidate (typeName ++ Names.exported field) n ∧
        ∀ found,
          Search taken (typeName ++ Names.exported field) (typeName ++ Names.exported field) 2 found ↔
            found = codecCandidate (typeName ++ Names.exported field) n) ∧
    (issueAll arrays requests).1.map List.isEmpty = requests.map (·.owner.isInterface) ∧
    (∀ before r after, requests = before ++ r :: after → r.owner.isInterface = false →
      ∃ id, (issueAll arrays requests).1[before.length]? = some id ∧
        Search (arrays.map (·.id) ++ issued arrays before) r.base r.base 2 id) ∧
    (issueAll arrays requests).2.map (·.id) = arrays.map (·.id) ++ issued arrays requests ∧
    (issued arrays requests).Nodup ∧
    ∀ id ∈ issued arrays requests, id ∉ arrays.map (·.id) := by
  refine ⟨fun taken typeName field => ?_, isEmpty_issueAll arrays requests, ?_,
    ids_issueAll arrays requests, nodup_issued arrays requests⟩
  · obtain ⟨n, hn, heq, hfree, htaken⟩ :=
      freshCodec_first taken (typeName ++ Names.exported field)
    exact ⟨n, hn, hfree, htaken, heq, fun found => Search.iff_first hfree htaken⟩
  · rintro before r after rfl hconcrete
    have hlength : (issueAll arrays before).1.length = before.length := by
      simpa using congrArg List.length (isEmpty_issueAll arrays before)
    rcases issueAll_cons (issueAll arrays before).2 r after with
      ⟨hinterface, -⟩ | ⟨c, -, -, hid, heq⟩
    · simp [hconcrete] at hinterface
    · refine ⟨c.id, ?_, ?_⟩
      · rw [issueAll_append, ← hlength, heq]
        simp
      · obtain ⟨n, -, hfirst, hfree, htaken⟩ :=
          freshCodec_first (arrays.map (·.id) ++ issued arrays before) r.base
        rw [Search.iff_first hfree htaken, hid, ids_issueAll, hfirst]

/-- The second identifier for `x` is the base of `x2`, whose own search so goes on. -/
theorem identifiers_fresh_extended_base :
    let x : Request := ⟨⟨0, "A", false, [], none, []⟩, "x", .scalar .string⟩
    let x2 : Request := { x with field := "x2" }
    (issueAll [] [x, x, x2]).1 = ["AX", "AX2", "AX22"] ∧
      Search ["AX", "AX2"] "AX2" "AX2" 2 "AX22" := by
  intro x x2
  have hids : (issueAll [] [x, x, x2]).1 = ["AX", "AX2", "AX22"] ∧
      issued [] [x, x] = ["AX", "AX2"] ∧ x2.base = "AX2" := by decide +kernel
  obtain ⟨hall, hbefore, hbase⟩ := hids
  obtain ⟨id, hid, hsearch⟩ := (identifiers_fresh [] [x, x, x2]).2.2.1 [x, x] x2 [] rfl rfl
  rw [hall] at hid
  rw [hbefore, hbase] at hsearch
  cases hid
  exact ⟨hall, hsearch⟩

end WireSchema.Resolve
