import Mathlib.Order.Basic
import Mathlib.Tactic.Set
import WireSchema.Proofs.Codec.Meaning
import WireSchema.Proofs.Token.Stopping

/-!
# Decoding from a source that stops

A source that stops inside an object cannot be decoded: the failure is the one of the source, or one
that the whole object would have had as well. The argument follows the tree of the object and goes
down to the container in which the source stops. Everything before it is complete and is decoded as
it means.
-/

namespace WireSchema.Codec

open Json (Tree)
open Source (whileSkipping)

/-- Decoding reports the failure of a source as it is, or as skipping does. -/
def Breaks (f e : Failure) : Prop := e = Reader.report f ∨ e = Reader.report (whileSkipping f)

/-! ## Where a source can stop -/

theorem prefix_append_cases {ts xs ys : List Token} (h : ts <+: xs ++ ys) :
    (ts <+: xs ∧ ts ≠ xs) ∨ ∃ us, ts = xs ++ us ∧ us <+: ys := by
  by_cases hle : xs.length ≤ ts.length
  · obtain ⟨us, rfl⟩ := List.prefix_of_prefix_length_le (List.prefix_append xs ys) h hle
    exact .inr ⟨us, rfl, (List.prefix_append_right_inj xs).mp h⟩
  · refine .inl ⟨List.prefix_of_prefix_length_le h (List.prefix_append xs ys) (by omega), ?_⟩
    rintro rfl
    exact hle le_rfl

/-- Inside a value means before its first token or between the brackets of a container. -/
theorem inside_cases {ts : List Token} {t : Tree} (h : ts <+: t.tokens) (hne : ts ≠ t.tokens) :
    ts = [] ∨ ∃ us, ts = t.head :: us ∧ t.head.opens = true ∧ us <+: t.contents := by
  rw [Tree.tokens] at h hne
  cases ts with
  | nil => exact .inl rfl
  | cons u us =>
    obtain ⟨rfl, hus⟩ := List.cons_prefix_cons.mp h
    have hne : us ≠ t.tail := fun heq => hne (by rw [heq])
    cases ho : t.head.opens with
    | false =>
      rw [Tree.tail_eq_nil ho] at hus hne
      exact absurd (List.prefix_nil.mp hus) hne
    | true =>
      rw [Tree.tail_eq ho] at hus hne
      exact .inr ⟨us, rfl, rfl, (List.prefix_concat_iff.mp hus).resolve_left hne⟩

/-! ## Reading up to the stop -/

def StopsValue (m : Model) (t : Tree) : Prop :=
  ∀ (label : Text) (type : ElemType) (fuel : Nat) (r : Reader) (ts : List Token) (f : Failure),
    2 * ts.length + 2 ≤ fuel → t.head.opens = true → ts <+: t.contents → r.source.Stops ts f →
    (decodeValue m label type t.head fuel r = (.refused, r) ∧
      Meaning.ofTree m label type t = .refused) ∨
    ∃ e r', decodeValue m label type t.head fuel r = (.failed e, r') ∧
      (Breaks f e ∨ ∃ e', Meaning.ofTree m label type t = .failed e')

def StopsItems (m : Model) (items : List Tree) : Prop :=
  ∀ (label : Text) (type : ElemType) (seen : List (Option Value)) (fuel : Nat) (r : Reader)
    (ts : List Token) (f : Failure),
    2 * ts.length + 1 ≤ fuel → ts <+: Tree.itemTokens items → r.source.Stops ts f →
    ∃ e read r', decodeItems m label type seen fuel r = (some e, read, r') ∧
      (Breaks f e ∨ (Meaning.ofItems m label type items).1.isSome = true)

def StopsMember (m : Model) (t : Tree) : Prop :=
  ∀ (o : Object) (target : Target) (name : Text) (fuel : Nat) (r : Reader) (ts : List Token)
    (f : Failure),
    2 * ts.length + 2 ≤ fuel → r.current = some (.key name) → ts <+: t.tokens → ts ≠ t.tokens →
    r.source.Stops ts f →
    ∃ e target' r', decodeMember m o name fuel (some target) r = ⟨some e, target', r'⟩ ∧
      (Breaks f e ∨ (Meaning.ofMember m o target name t).1.isSome = true)

def StopsMembers (m : Model) (members : List (Text × Tree)) : Prop :=
  ∀ (o : Object) (target : Target) (fuel : Nat) (r : Reader) (ts : List Token) (f : Failure),
    2 * ts.length + 1 ≤ fuel → ts <+: Tree.memberTokens members → r.source.Stops ts f →
    ∃ e target' r', decodeMembers m o fuel (some target) r = ⟨some e, target', r'⟩ ∧
      (Breaks f e ∨ (Meaning.ofMembers m o target members).1.isSome = true)

variable {m : Model} {t : Tree}

theorem ofScalar_of_opens (label : Text) (s : Scalar) (h : t.head.opens = true) :
    Meaning.ofScalar label s t = .refused := by
  cases t with
  | array items => cases s <;> rfl
  | object members => cases s <;> rfl
  | _ => cases h

theorem stopsValue_of_members (h : ∀ members, t = .object members → StopsMembers m members) :
    StopsValue m t := by
  intro label type fuel r ts f hf ho hts hstops
  obtain ⟨fuel, rfl⟩ : ∃ k, fuel = k + 1 := ⟨fuel - 1, by omega⟩
  cases type with
  | scalar s =>
    have hrefused := ofScalar_of_opens label s ho
    refine .inl ⟨?_, by rw [Meaning.ofTree, hrefused]⟩
    rw [decodeValue, readScalar_head, hrefused]
  | object id =>
    cases t with
    | array items => exact .inl ⟨by simp only [decodeValue, Tree.head], by rw [Meaning.ofTree]; simp⟩
    | object members =>
      cases hid : m.object? id with
      | none =>
        exact .inl ⟨by simp only [decodeValue, Tree.head, hid], by simp only [Meaning.ofTree, hid]⟩
      | some o =>
        obtain ⟨e, target, r', hd, hblame⟩ :=
          h members rfl o (Target.empty o) fuel r ts f (by omega) hts hstops
        refine .inr ⟨e, r', by simp only [decodeValue, Tree.head, hid, hd], ?_⟩
        refine hblame.imp (fun hbreaks => hbreaks) fun hsome => ?_
        rcases hm : Meaning.ofMembers m o (Target.empty o) members with ⟨_ | e', target'⟩
        · rw [hm] at hsome
          cases hsome
        · exact ⟨e', by simp only [Meaning.ofTree, hid, hm]⟩
    | _ => cases ho

theorem stopsItems_nil (m : Model) : StopsItems m [] := by
  intro label type seen fuel r ts f hf hts hstops
  obtain ⟨fuel, rfl⟩ : ∃ k, fuel = k + 1 := ⟨fuel - 1, by omega⟩
  obtain rfl := List.prefix_nil.mp hts
  obtain ⟨r', hn⟩ := Reader.next_stops hstops
  exact ⟨_, seen.reverse, r', by rw [decodeItems, hn], .inl (.inl rfl)⟩

theorem Meaning.ofItems_isSome {label : Text} {type : ElemType} {items : List Tree} {e : Failure}
    (h : t ≠ .null) (hv : ofTree m label type t = .failed e) :
    (ofItems m label type (t :: items)).1.isSome = true := by
  rw [ofItems_of_ne_null h, hv]
  rfl

section Items

variable {label : Text} {type : ElemType} {seen : List (Option Value)} {items : List Tree} {fuel : Nat}
  {r : Reader} {ts : List Token} {f : Failure}

theorem stopsItems_inside (ht : StopsValue m t) (ho : t.head.opens = true) (hts : ts <+: t.contents)
    (hf : 2 * ts.length + 2 ≤ fuel) (hstops : r.source.Stops (t.head :: ts) f) :
    ∃ e read r', decodeItems m label type seen (fuel + 1) r = (some e, read, r') ∧
      (Breaks f e ∨ (Meaning.ofItems m label type (t :: items)).1.isSome = true) := by
  have hnull : t ≠ .null := by
    rintro rfl
    cases ho
  obtain ⟨offset, s₁, hn, hstops⟩ := Source.Stops.cons_iff.mp hstops
  rw [decodeItems_of_head (Reader.next_on hn) hnull]
  rcases ht label type fuel (r.on s₁ t.head) ts f hf ho hts hstops with
    ⟨hd, hmeaning⟩ | ⟨e, r', hd, hblame⟩
  · obtain ⟨r', hskip⟩ := Reader.skip_stops (r := r.on s₁ t.head) rfl ho hts hstops
    exact ⟨_, seen.reverse, r', by simp only [hd, hskip], .inl (.inr rfl)⟩
  · refine ⟨e, seen.reverse, r', by simp only [hd], hblame.imp_right ?_⟩
    rintro ⟨e', hmeaning⟩
    exact Meaning.ofItems_isSome hnull hmeaning

theorem stopsItems_after (hi : StopsItems m items) (hts : ts <+: Tree.itemTokens items)
    (hf : 2 * (t.tokens ++ ts).length ≤ fuel) (hstops : r.source.Stops (t.tokens ++ ts) f) :
    ∃ e read r', decodeItems m label type seen (fuel + 1) r = (some e, read, r') ∧
      (Breaks f e ∨ (Meaning.ofItems m label type (t :: items)).1.isSome = true) := by
  obtain ⟨s₂, htree, hstops⟩ := Source.Stops.append_iff.mp hstops
  obtain ⟨offset, s₁, hn, htail⟩ := Source.Emits.cons_iff.mp htree
  have hn := Reader.next_on hn
  simp only [Tree.tokens, List.length_append, List.length_cons] at hf
  have hrest (seen : List (Option Value)) := hi label type seen fuel (r.on s₂ t.last) ts f
    (by omega) hts hstops
  by_cases hnull : t = .null
  · subst hnull
    obtain rfl := Source.Emits.nil_iff.mp htail
    simp only [Tree.head] at hn
    cases type with
    | scalar sc =>
      refine ⟨.nullElement label, seen.reverse, r.on s₂ .null, ?_, .inr ?_⟩
      · simp only [decodeItems, hn]
      · rw [Meaning.ofItems]
        rfl
    | object id =>
      obtain ⟨e, read, r', hd, hblame⟩ := hrest (none :: seen)
      refine ⟨e, read, r', ?_, hblame.imp_right ?_⟩
      · simpa only [decodeItems, hn, Tree.last, Tree.head] using hd
      · rw [Meaning.ofItems]
        exact fun hsome => hsome
  · rw [decodeItems_of_head hn hnull, Meaning.ofItems_of_ne_null hnull]
    have hv := readsValue m t label type fuel (r.on s₁ t.head) s₂ (by omega) rfl htail
    cases hm : Meaning.ofTree m label type t with
    | value v =>
      simp only [hm] at hv
      simpa only [hv, Reader.on_on] using hrest (some v :: seen)
    | refused =>
      simp only [hm] at hv
      have hskip : (r.on s₁ t.head).skip = (none, r.on s₂ t.last) := Reader.skip_tree rfl htail
      simpa only [hv, hskip] using hrest seen
    | failed e =>
      simp only [hm] at hv
      obtain ⟨r', hd, -⟩ := hv
      exact ⟨e, seen.reverse, r', by simp only [hd], .inr rfl⟩

theorem stopsItems_cons (ht : StopsValue m t) (hi : StopsItems m items) :
    StopsItems m (t :: items) := by
  intro label type seen fuel r ts f hf hts hstops
  obtain ⟨fuel, rfl⟩ : ∃ k, fuel = k + 1 := ⟨fuel - 1, by omega⟩
  have htokens : Tree.itemTokens (t :: items) = t.tokens ++ Tree.itemTokens items := by
    simp [Tree.itemTokens, Tree.tokens]
  rw [htokens] at hts
  rcases prefix_append_cases hts with ⟨hinside, hne⟩ | ⟨us, rfl, hus⟩
  · rcases inside_cases hinside hne with rfl | ⟨us, rfl, ho, hus⟩
    · obtain ⟨r', hn⟩ := Reader.next_stops hstops
      exact ⟨_, seen.reverse, r', by rw [decodeItems, hn], .inl (.inl rfl)⟩
    · simp only [List.length_cons] at hf
      exact stopsItems_inside ht ho hus (by omega) hstops
  · exact stopsItems_after hi hus (by omega) hstops

end Items

/-! ### Members -/

section Members

variable {o : Object} {target : Target} {name : Text} {fuel : Nat} {r : Reader} {f : Failure}

/-- What is made of a value in the place of a field or an entry, if the source stops inside it. -/
theorem settled_stops (label : Text) (type : ElemType) (target : Target)
    (put : Target → Value → Target) {ts : List Token} (ht : StopsValue m t)
    (hf : 2 * ts.length + 2 ≤ fuel) (ho : t.head.opens = true) (hts : ts <+: t.contents)
    (hstops : r.source.Stops ts f) :
    ∃ e target' r',
      settled label t.head.kind target put (decodeValue m label type t.head fuel r) =
        ⟨some e, target', r'⟩ ∧
      (Breaks f e ∨ (Meaning.settle label t.head.kind target (put target)
        (Meaning.ofTree m label type t)).1.isSome = true) := by
  rcases ht label type fuel r ts f hf ho hts hstops with ⟨hd, hm⟩ | ⟨e, r', hd, hblame⟩
  · rw [hd, hm]
    exact ⟨_, _, _, rfl, .inr rfl⟩
  · rw [hd]
    refine ⟨e, some target, r', rfl, hblame.imp_right ?_⟩
    rintro ⟨e', hm⟩
    rw [hm]
    rfl

theorem ne_null_of_opens (ho : t.head.opens = true) : t.head ≠ .null := by
  intro hnull
  rw [hnull] at ho
  cases ho

theorem stopsMember_field {field : Field} (hfind : o.fields.find? (·.key == name) = some field)
    (ht : StopsValue m t) (hi : ∀ items, t = .array items → StopsItems m items) {ts : List Token}
    (ho : t.head.opens = true) (hts : ts <+: t.contents) (hf : 2 * ts.length + 2 ≤ fuel)
    (hstops : r.source.Stops (t.head :: ts) f) :
    ∃ e target' r', decodeMember m o name (fuel + 1) (some target) r = ⟨some e, target', r'⟩ ∧
      (Breaks f e ∨ (Meaning.ofField m target field t).1.isSome = true) := by
  obtain ⟨offset, s₁, hn, hinside⟩ := Source.Stops.cons_iff.mp hstops
  have hn := Reader.next_on hn
  rw [Meaning.ofField, if_neg (ne_null_of_opens ho)]
  cases htype : field.type with
  | single type =>
    obtain ⟨e, target', r', hd, hblame⟩ := settled_stops (r := r.on s₁ t.head)
      (Names.exported field.name) type target (fun target v => target.set field.key (some v)) ht hf
      ho hts hinside
    refine ⟨e, target', r', Eq.trans ?_ hd, hblame⟩
    simp only [decodeMember, hfind, hn]
    cases t with
    | array items =>
      simp only [Tree.head, htype]
      rfl
    | object members =>
      simp only [Tree.head, htype]
      rfl
    | _ => cases ho
  | array elem codec =>
    cases t with
    | array items =>
      obtain ⟨e, read, r', hd, hblame⟩ := hi items rfl (Names.exported field.name) elem [] fuel
        (r.on s₁ .beginArray) ts f (by omega) hts hinside
      refine ⟨e, some (overwrite target field.key read), r', ?_, hblame.imp_right fun hsome => ?_⟩
      · simp only [decodeMember, hfind, hn, Tree.head, htype, hd]
        rfl
      · simp only [Meaning.ofArray]
        rcases hm : Meaning.ofItems m (Names.exported field.name) elem items with ⟨_ | e', read'⟩
        · rw [hm] at hsome
          cases hsome
        · rfl
    | object members =>
      refine ⟨.unexpectedToken (Names.exported field.name) .startObject, some target,
        r.on s₁ .beginObject, ?_, .inr (by simp [Meaning.ofArray])⟩
      simp only [decodeMember, hfind, hn, Tree.head, htype]
      rfl
    | _ => cases ho

theorem stopsMember_entry {w : Wildcard} (hfind : o.fields.find? (·.key == name) = none)
    (hw : o.wildcard = some w) (ht : StopsValue m t) {ts : List Token}
    (ho : t.head.opens = true) (hts : ts <+: t.contents) (hf : 2 * ts.length + 2 ≤ fuel)
    (hstops : r.source.Stops (t.head :: ts) f) :
    ∃ e target' r', decodeMember m o name (fuel + 1) (some target) r = ⟨some e, target', r'⟩ ∧
      (Breaks f e ∨ (Meaning.ofEntry m target w name t).1.isSome = true) := by
  obtain ⟨offset, s₁, hn, hstops⟩ := Source.Stops.cons_iff.mp hstops
  have hn := Reader.next_on hn
  rw [Meaning.ofEntry, if_neg (ne_null_of_opens ho)]
  obtain ⟨e, target', r', hd, hblame⟩ := settled_stops (r := r.on s₁ t.head)
    (Names.exported w.name) w.elem target (fun target v => target.insert name v) ht hf ho hts hstops
  refine ⟨e, target', r', Eq.trans ?_ hd, hblame⟩
  simp only [decodeMember, hfind, hw, hn]
  cases t with
  | array items => rfl
  | object members => rfl
  | _ => cases ho

theorem stopsMember_skipped (hfind : o.fields.find? (·.key == name) = none)
    (hw : o.wildcard = none) {ts : List Token} (hc : r.current = some (.key name))
    (ho : t.head.opens = true) (hts : ts <+: t.contents) (hstops : r.source.Stops (t.head :: ts) f) :
    ∃ target' r', decodeMember m o name (fuel + 1) (some target) r =
      ⟨some (Reader.report (whileSkipping f)), target', r'⟩ := by
  obtain ⟨offset, s₁, hn, hstops⟩ := Source.Stops.cons_iff.mp hstops
  obtain ⟨r', hskip⟩ := Reader.skip_stops (r := r.on s₁ t.head) rfl ho hts hstops
  refine ⟨some target, r', ?_⟩
  have hkey : r.skip = (r.on s₁ t.head).skip := by
    simp only [Reader.skip, hc, Reader.next_on hn]
    cases t <;> rfl
  simp only [decodeMember, hfind, hw, hkey, hskip]

theorem stopsMember_of (ht : StopsValue m t)
    (hi : ∀ items, t = .array items → StopsItems m items) : StopsMember m t := by
  intro o target name fuel r ts f hf hc hts hne hstops
  obtain ⟨fuel, rfl⟩ : ∃ k, fuel = k + 1 := ⟨fuel - 1, by omega⟩
  rw [Meaning.ofMember]
  rcases inside_cases hts hne with rfl | ⟨us, rfl, ho, hus⟩
  · -- every way to read a member begins with the next token
    obtain ⟨r', hn⟩ := Reader.next_stops hstops
    have hskip : r.skip = (some (Reader.report f), r') := by
      simp only [Reader.skip, hc, hn]
    refine ⟨Reader.report f, some target, r', ?_, .inl (.inl rfl)⟩
    cases hfind : o.fields.find? (·.key == name) with
    | some field => simp only [decodeMember, hfind, hn]
    | none => cases hw : o.wildcard <;> simp only [decodeMember, hfind, hw, hn, hskip]
  · simp only [List.length_cons] at hf
    cases hfind : o.fields.find? (·.key == name) with
    | some field => exact stopsMember_field hfind ht hi ho hus (by omega) hstops
    | none =>
      cases hw : o.wildcard with
      | some w => exact stopsMember_entry hfind hw ht ho hus (by omega) hstops
      | none =>
        obtain ⟨target', r', hd⟩ := stopsMember_skipped hfind hw hc ho hus hstops
        exact ⟨_, target', r', hd, .inl (.inr rfl)⟩

end Members

theorem stopsMembers_nil (m : Model) : StopsMembers m [] := by
  intro o target fuel r ts f hf hts hstops
  obtain ⟨fuel, rfl⟩ : ∃ k, fuel = k + 1 := ⟨fuel - 1, by omega⟩
  obtain rfl := List.prefix_nil.mp hts
  obtain ⟨r', hn⟩ := Reader.next_stops hstops
  exact ⟨_, some target, r', by rw [decodeMembers, hn], .inl (.inl rfl)⟩

theorem stopsMembers_cons {name : Text} {members : List (Text × Tree)} (ht : StopsMember m t)
    (hm : StopsMembers m members) : StopsMembers m ((name, t) :: members) := by
  intro o target fuel r ts f hf hts hstops
  obtain ⟨fuel, rfl⟩ : ∃ k, fuel = k + 1 := ⟨fuel - 1, by omega⟩
  have htokens : Tree.memberTokens ((name, t) :: members) =
      .key name :: (t.tokens ++ Tree.memberTokens members) := by
    simp [Tree.memberTokens, Tree.tokens]
  rw [htokens, List.prefix_cons_iff] at hts
  rcases hts with rfl | ⟨ts, rfl, hts⟩
  · obtain ⟨r', hn⟩ := Reader.next_stops hstops
    exact ⟨_, some target, r', by rw [decodeMembers, hn], .inl (.inl rfl)⟩
  obtain ⟨offset, s₁, hn, hstops⟩ := Source.Stops.cons_iff.mp hstops
  have hn := Reader.next_on hn
  simp only [List.length_cons] at hf
  rw [Meaning.ofMembers]
  rcases prefix_append_cases hts with ⟨hinside, hne⟩ | ⟨us, rfl, hus⟩
  · obtain ⟨e, target', r', hd, hblame⟩ := ht o target name fuel (r.on s₁ (.key name)) ts f
      (by omega) rfl hinside hne hstops
    refine ⟨e, target', r', by simp only [decodeMembers, hn, hd], hblame.imp_right fun hsome => ?_⟩
    rcases hmember : Meaning.ofMember m o target name t with ⟨_ | e', target''⟩
    · rw [hmember] at hsome
      cases hsome
    · rfl
  · -- the member is complete, and the source stops after it
    obtain ⟨s₂, htree, hstops⟩ := Source.Stops.append_iff.mp hstops
    simp only [Tree.tokens, List.length_append, List.length_cons] at hf
    obtain ⟨r', hd, hleaves⟩ := readsMember m t o target name fuel (r.on s₁ (.key name)) s₂
      (by omega) rfl htree
    rcases hmember : Meaning.ofMember m o target name t with ⟨_ | e, target'⟩
    · rw [hmember] at hd hleaves
      obtain rfl : r' = r.on s₂ t.last := hleaves
      obtain ⟨e, target'', r', hrest, hblame⟩ := hm o target' fuel (r.on s₂ t.last) us f (by omega)
        hus hstops
      exact ⟨e, target'', r', by simp only [decodeMembers, hn, hd, hrest], hblame⟩
    · rw [hmember] at hd
      exact ⟨e, some target', r', by simp only [decodeMembers, hn, hd], .inr rfl⟩

mutual

theorem stopsValue (m : Model) : ∀ t : Tree, StopsValue m t
  | .object members => stopsValue_of_members fun _ h => Tree.object.inj h ▸ stopsMembers m members
  | .array _ | .null | .bool _ | .number _ | .string _ => stopsValue_of_members nofun

theorem stopsItems (m : Model) : ∀ items : List Tree, StopsItems m items
  | [] => stopsItems_nil m
  | t :: items => stopsItems_cons (stopsValue m t) (stopsItems m items)

theorem stopsMember (m : Model) : ∀ t : Tree, StopsMember m t
  | .object members =>
    stopsMember_of (stopsValue_of_members fun _ h => Tree.object.inj h ▸ stopsMembers m members) nofun
  | .array items =>
    stopsMember_of (stopsValue_of_members nofun) fun _ h => Tree.array.inj h ▸ stopsItems m items
  | .null | .bool _ | .number _ | .string _ => stopsMember_of (stopsValue_of_members nofun) nofun

theorem stopsMembers (m : Model) : ∀ members : List (Text × Tree), StopsMembers m members
  | [] => stopsMembers_nil m
  | (_, t) :: members => stopsMembers_cons (stopsMember m t) (stopsMembers m members)

end

/-- From a source that stops inside an object nothing is decoded without a failure. The failure is that
of the source, unless the object could not be decoded as a whole. -/
theorem decode_stops (m : Model) (o : Object) (target : Target) {members : List (Text × Tree)}
    {ts : List Token} (hts : ts <+: (Tree.object members).tokens)
    (hne : ts ≠ (Tree.object members).tokens) {s : Source} {f : Failure} (h : s.Stops ts f) :
    ∃ e, (decode m o (some target) { source := s }).failure = some e ∧
      (Breaks f e ∨ (Meaning.ofMembers m o target members).1.isSome = true) := by
  rcases inside_cases hts hne with rfl | ⟨us, rfl, -, hus⟩
  · obtain ⟨r', hn⟩ := Reader.next_stops (r := { source := s }) h
    exact ⟨_, by simp only [decode, hn], .inl (.inl rfl)⟩
  · obtain ⟨offset, s₁, hn, hinside⟩ := Source.Stops.cons_iff.mp h
    have hn := Reader.next_on (r := { source := s }) hn
    have hlength := hinside.length_le
    obtain ⟨e, target', r', hd, hblame⟩ := stopsMembers m members o target
      (steps (Reader.on { source := s } s₁ .beginObject)) (Reader.on { source := s } s₁ .beginObject)
      us f (by simp only [steps, Reader.on_source]; omega) hus hinside
    simp only [Tree.head] at hn
    exact ⟨e, by simp only [decode, hn, hd], hblame⟩

end WireSchema.Codec
