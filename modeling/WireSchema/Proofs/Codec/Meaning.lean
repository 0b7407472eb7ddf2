import WireSchema.Codec.Decode
import WireSchema.Proofs.Token.Emission

/-!
# What a document means to a codec

A reference semantics of decoding that knows nothing of tokens: it takes a document as a tree and its
members in order. The main statement is that decoding from a reader that stands at the beginning of
the document has exactly this result, whatever comes after the document, and takes exactly the tokens
of the document.
-/

namespace WireSchema.Codec

open Json (Tree)

/-! ## The meaning of trees -/

namespace Meaning

def ofScalar (label : Text) : Scalar → Tree → Got
  | .bool, .bool b => .value (.bool b)
  | .string, .string t => .value (.text t)
  | .int32, .number t => numeral label .integer (Integer.parse 32 t)
  | .int64, .number t => numeral label .integer (Integer.parse 64 t)
  | .decimal, .number t => numeral label .decimal (readDecimal t)
  | .float, .number t => numeral label (.float .single) (Binary.parse .single t)
  | .double, .number t => numeral label (.float .double) (Binary.parse .double t)
  | _, _ => .refused

/-- What is made of a value that was read: it is put into the object, or it is the failure. -/
def settle (label : Text) (kind : TokenKind) (target : Target) (put : Value → Target) :
    Got → Option Failure × Target
  | .value v => (none, put v)
  | .refused => (some (.unexpectedToken label kind), target)
  | .failed f => (some f, target)

mutual

def ofTree (m : Model) (label : Text) (type : ElemType) (t : Tree) : Got :=
  match type, t with
  | .scalar s, t => ofScalar label s t
  | .object id, .object members =>
    match m.object? id with
    | none => .refused
    | some o =>
      match ofMembers m o (Target.empty o) members with
      | (none, target) => .value target.value
      | (some f, _) => .failed f
  | .object _, _ => .refused
termination_by (sizeOf t, 0)

/-- The elements of an array up to the first failure. Null is an absent object, and no scalar; what is
of the wrong kind is left out. -/
def ofItems (m : Model) (label : Text) (type : ElemType) (items : List Tree) :
    Option Failure × List (Option Value) :=
  match items with
  | [] => (none, [])
  | .null :: rest =>
    match type with
    | .scalar _ => (some (.nullElement label), [])
    | .object _ => ((ofItems m label type rest).1, none :: (ofItems m label type rest).2)
  | t :: rest =>
    match ofTree m label type t with
    | .value v => ((ofItems m label type rest).1, some v :: (ofItems m label type rest).2)
    | .failed f => (some f, [])
    | .refused => ofItems m label type rest
termination_by (sizeOf items, 0)

def ofArray (m : Model) (label : Text) (type : ElemType) (t : Tree) :
    Option (Option Failure × List (Option Value)) :=
  match t with
  | .array items => some (ofItems m label type items)
  | _ => none
termination_by (sizeOf t, 0)

def ofField (m : Model) (target : Target) (f : Field) (t : Tree) : Option Failure × Target :=
  let label := Names.exported f.name
  if t.head = .null then (none, target.set f.key none)
  else
    match f.type with
    | .single type =>
      settle label t.head.kind target (target.set f.key <| some ·) (ofTree m label type t)
    | .array elem _ =>
      match ofArray m label elem t with
      | some (none, items) => (none, target.set f.key (some (.array items)))
      | some (some e, items) => (some e, overwrite target f.key items)
      | none => (some (.unexpectedToken label t.head.kind), target)
termination_by (sizeOf t, 1)

/-- What an entry of the dictionary does to the object it stands in. -/
def ofEntry (m : Model) (target : Target) (w : Wildcard) (name : Text) (t : Tree) :
    Option Failure × Target :=
  let label := Names.exported w.name
  if t.head = .null then (none, target)
  else settle label t.head.kind target (target.insert name) (ofTree m label w.elem t)
termination_by (sizeOf t, 1)

/-- What a member does to the object it stands in. A name that is no field and has no dictionary to go
to does nothing, whatever its value. -/
def ofMember (m : Model) (o : Object) (target : Target) (name : Text) (t : Tree) :
    Option Failure × Target :=
  match o.fields.find? (·.key == name), o.wildcard with
  | some f, _ => ofField m target f t
  | none, some w => ofEntry m target w name t
  | none, none => (none, target)
termination_by (sizeOf t, 2)

/-- What members do, one after another, up to the first failure. -/
def ofMembers (m : Model) (o : Object) (target : Target) (members : List (Text × Tree)) :
    Option Failure × Target :=
  match members with
  | [] => (none, target)
  | (name, t) :: rest =>
    match ofMember m o target name t with
    | (none, target) => ofMembers m o target rest
    | (some f, target) => (some f, target)
termination_by (sizeOf members, 0)

end

end Meaning

/-! ## Reading and meaning -/

/-- What is left of a reader that was to take the tokens `ts` of a source and to end as `goal`: it ends
so, or it failed after some of the tokens. -/
def Leaves (s : Source) (ts : List Token) (goal : Reader) : Option Failure → Reader → Prop
  | none, r' => r' = goal
  | some _, r' => ∃ used, used <+: ts ∧ s.Emits used r'.source

theorem Leaves.refl {s : Source} {ts : List Token} {goal r : Reader} {f : Failure}
    (h : s = r.source) : Leaves s ts goal (some f) r :=
  ⟨[], List.nil_prefix, h ▸ .nil _⟩

theorem Leaves.after {s s₁ : Source} {goal r' : Reader} {ts us : List Token} {f : Option Failure}
    (he : s.Emits ts s₁) (h : Leaves s₁ us goal f r') : Leaves s (ts ++ us) goal f r' := by
  cases f with
  | none => exact h
  | some f =>
    obtain ⟨used, hp, hu⟩ := h
    exact ⟨ts ++ used, List.prefix_append_right_inj ts |>.mpr hp, he.append hu⟩

theorem Leaves.of_append {s : Source} {goal goal' r' : Reader} {ts : List Token} {f : Failure}
    (h : Leaves s ts goal (some f) r') (us : List Token) : Leaves s (ts ++ us) goal' (some f) r' := by
  obtain ⟨used, hp, hu⟩ := h
  exact ⟨used, hp.trans (List.prefix_append ts us), hu⟩

/-- Reading a value gives what its tree means; a value of the wrong kind is left where it begins. -/
def ReadsValue (m : Model) (t : Tree) : Prop :=
  ∀ (label : Text) (type : ElemType) (fuel : Nat) (r : Reader) (s : Source),
    2 * t.tail.length + 1 ≤ fuel → r.current = some t.head → r.source.Emits t.tail s →
    match Meaning.ofTree m label type t with
    | .value v => decodeValue m label type t.head fuel r = (.value v, r.on s t.last)
    | .refused => decodeValue m label type t.head fuel r = (.refused, r)
    | .failed f => ∃ r', decodeValue m label type t.head fuel r = (.failed f, r') ∧
      Leaves r.source t.tail (r.on s t.last) (some f) r'

def ReadsItems (m : Model) (items : List Tree) : Prop :=
  ∀ (label : Text) (type : ElemType) (seen : List (Option Value)) (fuel : Nat) (r : Reader)
    (s : Source), 2 * (Tree.itemTokens items).length + 1 ≤ fuel →
    r.source.Emits (Tree.itemTokens items ++ [.endArray]) s →
    ∃ r', decodeItems m label type seen fuel r =
        ((Meaning.ofItems m label type items).1,
          seen.reverse ++ (Meaning.ofItems m label type items).2, r') ∧
      Leaves r.source (Tree.itemTokens items ++ [.endArray]) (r.on s .endArray)
        (Meaning.ofItems m label type items).1 r'

def ReadsMember (m : Model) (t : Tree) : Prop :=
  ∀ (o : Object) (target : Target) (name : Text) (fuel : Nat) (r : Reader) (s : Source),
    2 * t.tail.length + 2 ≤ fuel → r.current = some (.key name) → r.source.Emits t.tokens s →
    ∃ r', decodeMember m o name fuel (some target) r =
        ⟨(Meaning.ofMember m o target name t).1, some (Meaning.ofMember m o target name t).2, r'⟩ ∧
      Leaves r.source t.tokens (r.on s t.last) (Meaning.ofMember m o target name t).1 r'

def ReadsMembers (m : Model) (members : List (Text × Tree)) : Prop :=
  ∀ (o : Object) (target : Target) (fuel : Nat) (r : Reader) (s : Source),
    2 * (Tree.memberTokens members).length + 1 ≤ fuel →
    r.source.Emits (Tree.memberTokens members ++ [.endObject]) s →
    ∃ r', decodeMembers m o fuel (some target) r =
        ⟨(Meaning.ofMembers m o target members).1,
          some (Meaning.ofMembers m o target members).2, r'⟩ ∧
      Leaves r.source (Tree.memberTokens members ++ [.endObject]) (r.on s .endObject)
        (Meaning.ofMembers m o target members).1 r'

theorem readScalar_head (label : Text) (s : Scalar) (t : Tree) :
    readScalar label s t.head = Meaning.ofScalar label s t := by
  cases s <;> cases t <;> rfl

theorem tail_eq_nil_of_ofScalar {label : Text} {s : Scalar} {t : Tree}
    (h : Meaning.ofScalar label s t ≠ .refused) : t.tail = [] ∧ t.last = t.head := by
  cases t with
  | array items => cases s <;> simp [Meaning.ofScalar] at h
  | object members => cases s <;> simp [Meaning.ofScalar] at h
  | _ => exact ⟨rfl, rfl⟩

theorem readsValue_of_members {m : Model} {t : Tree}
    (h : ∀ members, t = .object members → ReadsMembers m members) : ReadsValue m t := by
  intro label type fuel r s hf hc he
  obtain ⟨fuel, rfl⟩ : ∃ k, fuel = k + 1 := ⟨fuel - 1, by omega⟩
  cases type with
  | scalar sc =>
    have hr : decodeValue m label (.scalar sc) t.head (fuel + 1) r =
        (Meaning.ofScalar label sc t, r) := by
      rw [decodeValue, readScalar_head]
    simp only [Meaning.ofTree, hr]
    split
    · rename_i v hv
      obtain ⟨ht, hl⟩ := tail_eq_nil_of_ofScalar (by rw [hv]; simp)
      rw [ht] at he
      obtain rfl := Source.Emits.nil_iff.mp he
      rw [hv, hl, Reader.on_eq_self hc]
    · rename_i hv
      rw [hv]
    · rename_i f hv
      exact ⟨r, by rw [hv], .refl rfl⟩
  | object id =>
    cases t with
    | object members =>
      simp only [Meaning.ofTree, Tree.head]
      cases ho : m.object? id with
      | none => simp only [decodeValue, ho]
      | some o =>
        simp only [Tree.tail, List.length_append, List.length_singleton] at hf
        obtain ⟨r', hd, hl⟩ := h members rfl o (Target.empty o) fuel r s (by omega) he
        rcases hm : Meaning.ofMembers m o (Target.empty o) members with ⟨_ | f, target⟩
        · rw [hm] at hd hl
          obtain rfl : r' = r.on s .endObject := hl
          simp only [decodeValue, ho, hd, hm, Tree.last]
        · rw [hm] at hd hl
          simp only [decodeValue, ho, hd, hm]
          exact ⟨r', rfl, hl⟩
    | _ => simp only [Meaning.ofTree, Tree.head, decodeValue]

theorem readsItems_nil (m : Model) : ReadsItems m [] := by
  intro label type seen fuel r s hf he
  obtain ⟨fuel, rfl⟩ : ∃ k, fuel = k + 1 := ⟨fuel - 1, by omega⟩
  obtain ⟨offset, s₁, hn, he⟩ := Source.Emits.cons_iff.mp he
  obtain rfl := Source.Emits.nil_iff.mp he
  refine ⟨r.on s .endArray, ?_, ?_⟩
  · simp only [decodeItems, Reader.next_on hn, Meaning.ofItems, List.append_nil]
  · simp only [Meaning.ofItems, Leaves]

theorem Meaning.ofItems_of_ne_null {t : Tree} (h : t ≠ .null) (m : Model) (label : Text)
    (type : ElemType) (items : List Tree) :
    ofItems m label type (t :: items) =
      match ofTree m label type t with
      | .value v => ((ofItems m label type items).1, some v :: (ofItems m label type items).2)
      | .failed f => (some f, [])
      | .refused => ofItems m label type items := by
  rw [ofItems]
  exact h

theorem decodeItems_of_head {r r₁ : Reader} {t : Tree} (hn : r.next = (.ok t.head, r₁))
    (h : t ≠ .null) (m : Model) (label : Text) (type : ElemType) (seen : List (Option Value))
    (fuel : Nat) :
    decodeItems m label type seen (fuel + 1) r =
      match decodeValue m label type t.head fuel r₁ with
      | (.value v, r) => decodeItems m label type (some v :: seen) fuel r
      | (.failed f, r) => (some f, seen.reverse, r)
      | (.refused, r) =>
        match r.skip with
        | (some f, r) => (some f, seen.reverse, r)
        | (none, r) => decodeItems m label type seen fuel r := by
  rw [decodeItems, hn]
  cases t with
  | null => exact absurd rfl h
  | _ => rfl

theorem readsItems_cons {m : Model} {t : Tree} {items : List Tree} (ht : ReadsValue m t)
    (hi : ReadsItems m items) : ReadsItems m (t :: items) := by
  intro label type seen fuel r s hf he
  obtain ⟨fuel, rfl⟩ : ∃ k, fuel = k + 1 := ⟨fuel - 1, by omega⟩
  simp only [Tree.itemTokens, List.length_append, List.length_cons] at hf
  have htokens : Tree.itemTokens (t :: items) ++ [.endArray] =
      [t.head] ++ (t.tail ++ (Tree.itemTokens items ++ [.endArray])) := by
    simp [Tree.itemTokens]
  rw [htokens] at he ⊢
  obtain ⟨s₁, hhead, he⟩ := Source.Emits.append_iff.mp he
  obtain ⟨s₂, htail, he⟩ := Source.Emits.append_iff.mp he
  obtain ⟨offset, s₁, hn, hnil⟩ := Source.Emits.cons_iff.mp hhead
  obtain rfl := Source.Emits.nil_iff.mp hnil
  have hn := Reader.next_on hn
  -- the rest of the elements, whatever was made of this one
  have hrest (seen : List (Option Value)) :
      ∃ r', decodeItems m label type seen fuel (r.on s₂ t.last) =
          ((Meaning.ofItems m label type items).1,
            seen.reverse ++ (Meaning.ofItems m label type items).2, r') ∧
        Leaves r.source ([t.head] ++ (t.tail ++ (Tree.itemTokens items ++ [.endArray])))
          (r.on s .endArray) (Meaning.ofItems m label type items).1 r' := by
    obtain ⟨r', hd, hl⟩ := hi label type seen fuel (r.on s₂ t.last) s (by omega) he
    exact ⟨r', hd, .after hhead (.after htail hl)⟩
  by_cases hnull : t = .null
  · subst hnull
    obtain rfl := Source.Emits.nil_iff.mp htail
    simp only [Tree.head] at hn
    cases type with
    | scalar sc =>
      simp only [decodeItems, hn, Meaning.ofItems, List.append_nil]
      exact ⟨_, rfl, .after hhead (.refl rfl)⟩
    | object id =>
      obtain ⟨r', hd, hl⟩ := hrest (none :: seen)
      simp only [decodeItems, hn, Meaning.ofItems]
      exact ⟨r', by simpa [Tree.last, Tree.head] using hd, hl⟩
  · rw [decodeItems_of_head hn hnull, Meaning.ofItems_of_ne_null hnull]
    have hv := ht label type fuel (r.on s₁ t.head) s₂ (by omega) rfl htail
    cases hm : Meaning.ofTree m label type t with
    | value v =>
      simp only [hm] at hv
      obtain ⟨r', hd, hl⟩ := hrest (some v :: seen)
      exact ⟨r', by simpa [hv] using hd, hl⟩
    | refused =>
      simp only [hm] at hv
      obtain ⟨r', hd, hl⟩ := hrest seen
      have hs : (r.on s₁ t.head).skip = (none, r.on s₂ t.last) := Reader.skip_tree rfl htail
      exact ⟨r', by simpa [hv, hs] using hd, hl⟩
    | failed f =>
      simp only [hm] at hv
      obtain ⟨r', hd, hl⟩ := hv
      exact ⟨r', by simp [hd], .after hhead (hl.of_append _)⟩

/-- What decoding makes of a value that was read in the place of a field or an entry. -/
def settled (label : Text) (kind : TokenKind) (target : Target) (put : Target → Value → Target) :
    Got × Reader → Outcome
  | (.value v, r) => store (some target) r (put · v)
  | (.refused, r) => ⟨some (.unexpectedToken label kind), some target, r⟩
  | (.failed e, r) => ⟨some e, some target, r⟩

/-- A value in the place of a field or an entry: what is stored, and what is left to read. -/
theorem settle_reads {m : Model} {t : Tree} (ht : ReadsValue m t) {fuel : Nat} {r : Reader}
    {s : Source} (label : Text) (type : ElemType) (target : Target) (put : Target → Value → Target)
    (hf : 2 * t.tail.length + 1 ≤ fuel) (hc : r.current = some t.head)
    (he : r.source.Emits t.tail s) :
    ∃ r', settled label t.head.kind target put (decodeValue m label type t.head fuel r) =
        (let settled := Meaning.settle label t.head.kind target (put target)
          (Meaning.ofTree m label type t)
        ⟨settled.1, some settled.2, r'⟩ : Outcome) ∧
      Leaves r.source t.tail (r.on s t.last)
        (Meaning.settle label t.head.kind target (put target) (Meaning.ofTree m label type t)).1 r' := by
  have hv := ht label type fuel r s hf hc he
  cases hm : Meaning.ofTree m label type t with
  | value v =>
    simp only [hm] at hv
    exact ⟨_, by rw [hv]; rfl, rfl⟩
  | refused =>
    simp only [hm] at hv
    exact ⟨_, by rw [hv]; rfl, .refl rfl⟩
  | failed f =>
    simp only [hm] at hv
    obtain ⟨r', hd, hl⟩ := hv
    exact ⟨_, by rw [hd]; rfl, hl⟩

theorem Tree.eq_null_of_head {t : Tree} (h : t.head = .null) : t = .null := by
  cases t <;> simp_all [Tree.head]

theorem readsMember_field {m : Model} {t : Tree} (ht : ReadsValue m t)
    (hi : ∀ items, t = .array items → ReadsItems m items) {o : Object} {name : Text} {f : Field}
    (hfind : o.fields.find? (·.key == name) = some f) (target : Target) {fuel : Nat} {r : Reader}
    {s : Source} (hf : 2 * t.tail.length + 1 ≤ fuel) (he : r.source.Emits t.tokens s) :
    ∃ r', decodeMember m o name (fuel + 1) (some target) r =
        ⟨(Meaning.ofField m target f t).1, some (Meaning.ofField m target f t).2, r'⟩ ∧
      Leaves r.source t.tokens (r.on s t.last) (Meaning.ofField m target f t).1 r' := by
  obtain ⟨offset, s₁, hn, htail⟩ := Source.Emits.cons_iff.mp he
  have hhead : r.source.Emits [t.head] s₁ := .cons hn (.nil _)
  have hn := Reader.next_on hn
  rw [Meaning.ofField]
  by_cases hnull : t.head = .null
  · obtain rfl := Tree.eq_null_of_head hnull
    obtain rfl := Source.Emits.nil_iff.mp htail
    simp only [decodeMember, hfind, hn, Tree.head, if_true]
    exact ⟨_, rfl, rfl⟩
  rw [if_neg hnull]
  cases htype : f.type with
  | single type =>
    obtain ⟨r', hd, hl⟩ := settle_reads ht (Names.exported f.name) type target
      (fun target v => target.set f.key (some v)) hf (show (r.on s₁ t.head).current = _ from rfl) htail
    refine ⟨r', Eq.trans ?_ hd, .after hhead hl⟩
    simp only [decodeMember, hfind, hn]
    cases t with
    | null => exact absurd rfl hnull
    | _ =>
      simp only [Tree.head, htype]
      rfl
  | array elem codec =>
    cases t with
    | null => exact absurd rfl hnull
    | array items =>
      simp only [Tree.tail, List.length_append, List.length_singleton] at hf
      obtain ⟨r', hd, hl⟩ := hi items rfl (Names.exported f.name) elem [] fuel (r.on s₁ .beginArray) s
        (by omega) htail
      simp only [decodeMember, hfind, hn, Tree.head, htype, hd, Meaning.ofArray]
      rcases hm : Meaning.ofItems m (Names.exported f.name) elem items with ⟨_ | e, items'⟩
      · rw [hm] at hl
        exact ⟨r', rfl, .after hhead hl⟩
      · rw [hm] at hl
        exact ⟨r', rfl, .after hhead hl⟩
    | _ =>
      simp only [decodeMember, hfind, hn, Tree.head, htype, Meaning.ofArray]
      exact ⟨_, rfl, .after hhead (.refl rfl)⟩

theorem readsMember_entry {m : Model} {t : Tree} (ht : ReadsValue m t) {o : Object} {name : Text}
    {w : Wildcard} (hfind : o.fields.find? (·.key == name) = none) (hw : o.wildcard = some w)
    (target : Target) {fuel : Nat} {r : Reader} {s : Source} (hf : 2 * t.tail.length + 1 ≤ fuel)
    (he : r.source.Emits t.tokens s) :
    ∃ r', decodeMember m o name (fuel + 1) (some target) r =
        ⟨(Meaning.ofEntry m target w name t).1, some (Meaning.ofEntry m target w name t).2, r'⟩ ∧
      Leaves r.source t.tokens (r.on s t.last) (Meaning.ofEntry m target w name t).1 r' := by
  obtain ⟨offset, s₁, hn, htail⟩ := Source.Emits.cons_iff.mp he
  have hhead : r.source.Emits [t.head] s₁ := .cons hn (.nil _)
  have hn := Reader.next_on hn
  rw [Meaning.ofEntry]
  by_cases hnull : t.head = .null
  · obtain rfl := Tree.eq_null_of_head hnull
    obtain rfl := Source.Emits.nil_iff.mp htail
    simp only [decodeMember, hfind, hw, hn, Tree.head, if_true]
    exact ⟨_, rfl, rfl⟩
  · rw [if_neg hnull]
    obtain ⟨r', hd, hl⟩ := settle_reads ht (Names.exported w.name) w.elem target
      (fun target v => target.insert name v) hf (show (r.on s₁ t.head).current = _ from rfl) htail
    refine ⟨r', Eq.trans ?_ hd, .after hhead hl⟩
    simp only [decodeMember, hfind, hw, hn]
    cases t with
    | null => exact absurd rfl hnull
    | _ => rfl

theorem readsMember_of {m : Model} {t : Tree} (ht : ReadsValue m t)
    (hi : ∀ items, t = .array items → ReadsItems m items) : ReadsMember m t := by
  intro o target name fuel r s hf hc he
  obtain ⟨fuel, rfl⟩ : ∃ k, fuel = k + 1 := ⟨fuel - 1, by omega⟩
  rw [Meaning.ofMember]
  cases hfind : o.fields.find? (·.key == name) with
  | some f => exact readsMember_field ht hi hfind target (by omega) he
  | none =>
    cases hw : o.wildcard with
    | some w => exact readsMember_entry ht hfind hw target (by omega) he
    | none =>
      simp only [decodeMember, hfind, hw, Reader.skip_key hc he]
      exact ⟨_, rfl, rfl⟩

theorem readsMembers_nil (m : Model) : ReadsMembers m [] := by
  intro o target fuel r s hf he
  obtain ⟨fuel, rfl⟩ : ∃ k, fuel = k + 1 := ⟨fuel - 1, by omega⟩
  obtain ⟨offset, s₁, hn, he⟩ := Source.Emits.cons_iff.mp he
  obtain rfl := Source.Emits.nil_iff.mp he
  simp only [decodeMembers, Reader.next_on hn, Meaning.ofMembers]
  exact ⟨_, rfl, rfl⟩

theorem readsMembers_cons {m : Model} {name : Text} {t : Tree} {members : List (Text × Tree)}
    (ht : ReadsMember m t) (hm : ReadsMembers m members) : ReadsMembers m ((name, t) :: members) := by
  intro o target fuel r s hf he
  obtain ⟨fuel, rfl⟩ : ∃ k, fuel = k + 1 := ⟨fuel - 1, by omega⟩
  have htokens : Tree.memberTokens ((name, t) :: members) ++ [.endObject] =
      [.key name] ++ (t.tokens ++ (Tree.memberTokens members ++ [.endObject])) := by
    simp [Tree.memberTokens, Tree.tokens]
  rw [htokens] at he ⊢
  simp only [Tree.memberTokens, List.length_append, List.length_cons] at hf
  obtain ⟨s₁, hkey, he⟩ := Source.Emits.append_iff.mp he
  obtain ⟨s₂, hvalue, he⟩ := Source.Emits.append_iff.mp he
  obtain ⟨offset, s₁, hn, hnil⟩ := Source.Emits.cons_iff.mp hkey
  obtain rfl := Source.Emits.nil_iff.mp hnil
  obtain ⟨r', hd, hl⟩ := ht o target name fuel (r.on s₁ (.key name)) s₂ (by omega) rfl hvalue
  simp only [decodeMembers, Reader.next_on hn, Meaning.ofMembers, hd]
  rcases hmember : Meaning.ofMember m o target name t with ⟨_ | e, target'⟩
  · rw [hmember] at hl
    obtain rfl : r' = r.on s₂ t.last := hl
    obtain ⟨r', hd, hl⟩ := hm o target' fuel (r.on s₂ t.last) s (by omega) he
    exact ⟨r', hd, .after hkey (.after hvalue hl)⟩
  · rw [hmember] at hl
    exact ⟨r', rfl, .after hkey (hl.of_append _)⟩

mutual

theorem readsValue (m : Model) : ∀ t : Tree, ReadsValue m t
  | .object members => readsValue_of_members fun _ h => Tree.object.inj h ▸ readsMembers m members
  | .array _ | .null | .bool _ | .number _ | .string _ => readsValue_of_members nofun

theorem readsItems (m : Model) : ∀ items : List Tree, ReadsItems m items
  | [] => readsItems_nil m
  | t :: items => readsItems_cons (readsValue m t) (readsItems m items)

theorem readsMember (m : Model) : ∀ t : Tree, ReadsMember m t
  | .object members =>
    readsMember_of (readsValue_of_members fun _ h => Tree.object.inj h ▸ readsMembers m members) nofun
  | .array items =>
    readsMember_of (readsValue_of_members nofun) fun _ h => Tree.array.inj h ▸ readsItems m items
  | .null | .bool _ | .number _ | .string _ => readsMember_of (readsValue_of_members nofun) nofun

theorem readsMembers (m : Model) : ∀ members : List (Text × Tree), ReadsMembers m members
  | [] => readsMembers_nil m
  | (_, t) :: members => readsMembers_cons (readsMember m t) (readsMembers m members)

end

/-! ## What decoding leaves alone -/

theorem Target.get?_set_of_ne {key name : Text} (h : name ≠ key) (t : Target) (v : Option Value) :
    (t.set name v).get? key = t.get? key := by
  obtain ⟨fields, extra⟩ := t
  simp only [Target.get?, Target.set]
  induction fields with
  | nil => rfl
  | cons f fields ih =>
    obtain ⟨k, x⟩ := f
    by_cases hk : k = name
    · subst hk
      have : (key == k) = false := by simpa using h.symm
      simpa [List.lookup_cons, this] using ih
    · have : (if k == name then (name, v) else (k, x)) = (k, x) := if_neg (by simpa using hk)
      simp only [List.map_cons, this, List.lookup_cons]
      cases key == k with
      | false => exact ih
      | true => rfl

theorem overwrite_get?_of_ne {key name : Text} (h : name ≠ key) (t : Target)
    (items : List (Option Value)) : (overwrite t name items).get? key = t.get? key := by
  unfold overwrite
  split
  · exact Target.get?_set_of_ne h t _
  · rfl

namespace Meaning

theorem settle_get? {key label : Text} {kind : TokenKind} {target : Target} {put : Value → Target}
    (h : ∀ v, (put v).get? key = target.get? key) (got : Got) :
    (settle label kind target put got).2.get? key = target.get? key := by
  cases got with
  | value v => exact h v
  | refused => rfl
  | failed f => rfl

theorem ofField_get? {f : Field} {key : Text} (h : f.key ≠ key) (m : Model) (target : Target)
    (t : Tree) : (ofField m target f t).2.get? key = target.get? key := by
  rw [ofField]
  split
  · exact target.get?_set_of_ne h _
  split
  · exact settle_get? (fun v => target.get?_set_of_ne h _) _
  · split
    · exact target.get?_set_of_ne h _
    · exact overwrite_get?_of_ne h target _
    · rfl

theorem ofMember_get? {name key : Text} (h : name ≠ key) (m : Model) (o : Object) (target : Target)
    (t : Tree) : (ofMember m o target name t).2.get? key = target.get? key := by
  rw [ofMember]
  split
  · rename_i f hf
    have hkey : f.key = name := by simpa using List.find?_some hf
    exact ofField_get? (hkey ▸ h) m target t
  · rw [ofEntry]
    split
    · rfl
    · exact settle_get? (fun v => show (target.insert name v).get? key = target.get? key from rfl) _
  · rfl

/-- A field whose key does not occur keeps its value. -/
theorem ofMembers_get? {key : Text} (m : Model) (o : Object) :
    ∀ (members : List (Text × Tree)) (target : Target), key ∉ members.map (·.1) →
      (ofMembers m o target members).2.get? key = target.get? key
  | [], target, _ => by rw [ofMembers]
  | (name, t) :: rest, target, h => by
    simp only [List.map_cons, List.mem_cons, not_or] at h
    have hmember := ofMember_get? (Ne.symm h.1) m o target t
    rw [ofMembers]
    rcases hm : ofMember m o target name t with ⟨_ | f, target'⟩
    · exact (ofMembers_get? m o rest target' h.2).trans (by simpa only [hm] using hmember)
    · simpa only [hm] using hmember

end Meaning

/-- **Decoding has its meaning on trees.** On a reader whose source goes on with the members of an
object and its closing bracket, and then with anything, decoding into an object ends as the members
say when taken in order: with the same failure, if there is one, and the same object. Without a
failure exactly the tokens of the object are taken; with one, only tokens of the object are. Fields
whose keys do not occur keep their values. -/
theorem decodeMembers_eq_meaning (m : Model) (o : Object) (target : Target)
    (members : List (Text × Tree)) {r : Reader} {s : Source}
    (h : r.source.Emits (Tree.memberTokens members ++ [.endObject]) s) :
    (∃ r', decodeMembers m o (steps r) (some target) r =
        ⟨(Meaning.ofMembers m o target members).1,
          some (Meaning.ofMembers m o target members).2, r'⟩ ∧
      Leaves r.source (Tree.memberTokens members ++ [.endObject]) (r.on s .endObject)
        (Meaning.ofMembers m o target members).1 r') ∧
    ∀ key, key ∉ members.map (·.1) →
      (Meaning.ofMembers m o target members).2.get? key = target.get? key := by
  refine ⟨readsMembers m members o target (steps r) r s ?_ h,
    fun key hkey => Meaning.ofMembers_get? m o members target hkey⟩
  have hsize := h.length_le
  simp only [List.length_append, List.length_singleton] at hsize
  simp only [steps]
  omega

/-- Of the elements `"a"` and an object an array of strings keeps the first; the member after it is no
field; and a string in the place of a number is the failure, at which the array is stored and the
number still what it was. The brackets after the object are not looked at. -/
theorem decodeMembers_skips_then_fails :
    let o : Object := ⟨0, "T", false, [⟨"tags", "tags", .array (.scalar .string) "", 0⟩,
      ⟨"n", "n", .single (.scalar .int32), 0⟩], none, []⟩
    let r : Reader := { source := .replay [⟨.key "tags", 0⟩, ⟨.beginArray, 1⟩, ⟨.string "a", 2⟩,
      ⟨.beginObject, 3⟩, ⟨.key "x", 4⟩, ⟨.null, 5⟩, ⟨.endObject, 6⟩, ⟨.endArray, 7⟩, ⟨.key "z", 8⟩,
      ⟨.null, 9⟩, ⟨.key "n", 10⟩, ⟨.string "b", 11⟩, ⟨.endObject, 12⟩, ⟨.endArray, 13⟩] 0 }
    ∃ r', decodeMembers ⟨[], [], .anyone, [], [], []⟩ o (steps r)
        (some ⟨[("tags", none), ("n", some (.integer 3))], {}⟩) r =
      ⟨some (.unexpectedToken "N" .string),
        some ⟨[("tags", some (.array [some (.text "a")])), ("n", some (.integer 3))], {}⟩, r'⟩ := by
  intro o r
  have he : r.source.Emits (Tree.memberTokens [("tags", .array [.string "a", .object [("x", .null)]]),
      ("z", .null), ("n", .string "b")] ++ [.endObject]) (.replay [⟨.endArray, 13⟩] 13) :=
    Source.Emits.replay [⟨.key "tags", 0⟩, ⟨.beginArray, 1⟩, ⟨.string "a", 2⟩, ⟨.beginObject, 3⟩,
      ⟨.key "x", 4⟩, ⟨.null, 5⟩, ⟨.endObject, 6⟩, ⟨.endArray, 7⟩, ⟨.key "z", 8⟩, ⟨.null, 9⟩,
      ⟨.key "n", 10⟩, ⟨.string "b", 11⟩, ⟨.endObject, 12⟩] [⟨.endArray, 13⟩] 0
  obtain ⟨⟨r', hd, -⟩, -⟩ := decodeMembers_eq_meaning ⟨[], [], .anyone, [], [], []⟩ o
    ⟨[("tags", none), ("n", some (.integer 3))], {}⟩ _ he
  have hm : Meaning.ofMembers ⟨[], [], .anyone, [], [], []⟩ o
      ⟨[("tags", none), ("n", some (.integer 3))], {}⟩
      [("tags", .array [.string "a", .object [("x", .null)]]), ("z", .null), ("n", .string "b")] =
      (some (.unexpectedToken "N" .string),
        ⟨[("tags", some (.array [some (.text "a")])), ("n", some (.integer 3))], {}⟩) := by
    have hlabel : Names.exported "n" = "N" := by decide +kernel
    have hnames : ("tags" : Text) ≠ "z" ∧ ("n" : Text) ≠ "z" ∧ ("tags" : Text) ≠ "n" ∧
        ("n" : Text) ≠ "tags" := by decide
    simp [o, Meaning.ofMembers, Meaning.ofMember, Meaning.ofField, Meaning.ofArray, Meaning.ofItems,
      Meaning.ofTree, Meaning.ofScalar, Meaning.settle, Tree.head, Token.kind, Target.set, hlabel,
      hnames]
  exact ⟨r', by rw [hd, hm]⟩

end WireSchema.Codec
