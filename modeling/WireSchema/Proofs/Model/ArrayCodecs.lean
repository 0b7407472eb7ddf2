import Mathlib.Data.List.Perm.Subperm
import WireSchema.Proofs.Model.Resolution
import WireSchema.Proofs.Number.Digits

/-!
# Array codecs

Every array field of a concrete object has a codec of its own, and there are no other codecs: the
codecs of a model are those of its objects, one object after the other, under distinct identifiers.
-/

namespace WireSchema

theorem Names.exported_ne_nil (t : Text) : exported t ≠ [] := by
  unfold exported
  split
  · decide
  · split <;> simp

/-- The codec that a field of an object needs: one if it is an array. -/
def Field.codec? (f : Field) (owner : Nat) : Option ArrayCodec :=
  match f.type with
  | .single _ => none
  | .array elem codec => some ⟨codec, owner, f.name, elem⟩

namespace Field

variable {f : Field} {owner : Nat}

theorem codec?_of_array {elem : ElemType} {codec : Text} (h : f.type = .array elem codec) :
    f.codec? owner = some ⟨codec, owner, f.name, elem⟩ := by
  rw [codec?, h]

theorem array_of_codec? {c : ArrayCodec} (h : f.codec? owner = some c) :
    f.type = .array c.elem c.id ∧ c.owner = owner ∧ c.field = f.name := by
  unfold codec? at h
  split at h
  · cases h
  · rename_i elem codec htype
    cases h
    exact ⟨htype, rfl, rfl⟩

end Field

/-- The codecs for the arrays of an object. An interface has none. -/
def Object.codecs (o : Object) : List ArrayCodec :=
  if o.isInterface then [] else o.fields.filterMap (·.codec? o.id)

theorem Object.mem_codecs {o : Object} {c : ArrayCodec} :
    c ∈ o.codecs ↔ o.isInterface = false ∧ ∃ f ∈ o.fields, f.codec? o.id = some c := by
  unfold codecs
  cases o.isInterface <;> simp

namespace Resolve

theorem codecCandidate_injective (base : Text) : Function.Injective (codecCandidate base) := by
  have hne (n : Nat) : Text.ofNat n ≠ [] := (Text.isDigits_ofNat n).1
  intro n k h
  cases n with
  | zero =>
    cases k with
    | zero => rfl
    | succ k => exact absurd (List.self_eq_append_right.mp h) (hne _)
  | succ n =>
    cases k with
    | zero => exact absurd (List.self_eq_append_right.mp h.symm) (hne _)
    | succ k =>
      have hvalue := congrArg Text.digitsValue (List.append_cancel_left h)
      rw [Text.digitsValue_ofNat, Text.digitsValue_ofNat] at hvalue
      omega

theorem codecCandidate_ne_nil {base : Text} (h : base ≠ []) (n : Nat) :
    codecCandidate base n ≠ [] := by
  cases n with
  | zero => exact h
  | succ n => exact List.append_ne_nil_of_left_ne_nil h _

theorem exists_free (taken : List Text) (base : Text) :
    ∃ n ≤ taken.length, codecCandidate base n ∉ taken := by
  by_contra! hall
  have htaken : (List.range (taken.length + 1)).map (codecCandidate base) ⊆ taken := by
    intro t ht
    obtain ⟨n, hn, rfl⟩ := List.mem_map.mp ht
    exact hall n (by simpa [Nat.lt_succ_iff] using hn)
  have hnodup : ((List.range (taken.length + 1)).map (codecCandidate base)).Nodup :=
    List.nodup_range.map (codecCandidate_injective base)
  have hlength := (hnodup.subperm htaken).length_le
  rw [List.length_map, List.length_range] at hlength
  omega

theorem freshCodec_first (taken : List Text) (base : Text) :
    ∃ n ≤ taken.length, freshCodec taken base = codecCandidate base n ∧
      codecCandidate base n ∉ taken ∧ ∀ k < n, codecCandidate base k ∈ taken := by
  unfold freshCodec
  simp only
  cases hfind : (List.range (taken.length + 1)).find?
      fun n => !taken.contains (codecCandidate base n) with
  | some n =>
    obtain ⟨hfree, hn, hbefore⟩ := List.find?_range_eq_some.mp hfind
    exact ⟨n, by simpa [Nat.lt_succ_iff] using hn, rfl, by simpa using hfree, by simpa using hbefore⟩
  | none =>
    obtain ⟨n, hn, hfree⟩ := exists_free taken base
    exact absurd (List.find?_eq_none.mp hfind n (by simp; omega)) (by simpa using hfree)

theorem freshCodec_not_mem (taken : List Text) (base : Text) : freshCodec taken base ∉ taken := by
  obtain ⟨n, -, heq, hfree, -⟩ := freshCodec_first taken base
  rw [heq]
  exact hfree

theorem Draft.Issues.cases {d : Draft} {f : Field} {arrays : List ArrayCodec}
    (h : d.Issues f arrays) :
    (f.codec? d.object.id = none ∧ arrays = d.arrays) ∨
    ∃ c, f.codec? d.object.id = some c ∧
      (d.object.isInterface = true ∧ c.id = [] ∧ arrays = d.arrays ∨
        d.object.isInterface = false ∧ c.id ∉ d.arrays.map (·.id) ∧ c.id ≠ [] ∧
          arrays = d.arrays ++ [c]) := by
  obtain ⟨key, name, type, origin⟩ := f
  cases type with
  | single elem => exact .inl ⟨rfl, h⟩
  | array elem codec =>
    obtain ⟨rfl, rfl⟩ : codec = (d.arrayCodec name elem).1 ∧
        arrays = (d.arrayCodec name elem).2.arrays := h
    refine .inr ⟨_, rfl, ?_⟩
    unfold Draft.arrayCodec
    cases d.object.isInterface with
    | true => exact .inl ⟨rfl, rfl, rfl⟩
    | false =>
      refine .inr ⟨rfl, freshCodec_not_mem _ _, codecCandidate_ne_nil ?_ _, rfl⟩
      exact List.append_ne_nil_of_right_ne_nil _ (Names.exported_ne_nil name)

/-- The codecs are those of the objects, one object after the other. -/
structure Catalogue (os : List Object) (cs : List ArrayCodec) : Prop where
  codecs : cs = os.flatMap Object.codecs
  distinct : (cs.map (·.id)).Nodup
  named : ∀ c ∈ cs, c.id ≠ []
  bare : ∀ o ∈ os, o.isInterface = true → ∀ f ∈ o.fields, ∀ c, f.codec? o.id = some c → c.id = []

namespace Catalogue

variable {os : List Object} {d d' : Draft}

theorem field (h : Catalogue (os ++ [d.object]) d.arrays) {f : Field} {arrays : List ArrayCodec}
    (hissues : d.Issues f arrays) :
    Catalogue (os ++ [{ d.object with fields := d.object.fields ++ [f] }]) arrays := by
  obtain ⟨hcodecs, hdistinct, hnamed, hbare⟩ := h
  simp only [List.mem_append, List.mem_singleton, or_imp, forall_and, forall_eq] at hbare
  rw [List.flatMap_append, List.flatMap_singleton] at hcodecs
  rcases hissues.cases with
    ⟨hnone, rfl⟩ | ⟨c, hc, ⟨hinterface, hid, rfl⟩ | ⟨hconcrete, hnew, hid, rfl⟩⟩
  · refine ⟨?_, hdistinct, hnamed, ?_⟩
    · rw [hcodecs]
      simp [Object.codecs, hnone]
    · simpa [or_imp, forall_and, hnone] using hbare
  · refine ⟨?_, hdistinct, hnamed, ?_⟩
    · rw [hcodecs]
      simp [Object.codecs, hinterface]
    · simpa [or_imp, forall_and, hc, hid] using hbare
  · refine ⟨?_, ?_, ?_, ?_⟩
    · rw [hcodecs]
      simp [Object.codecs, hconcrete, hc]
    · rw [List.map_append]
      exact hdistinct.append (List.nodup_singleton _) (by simpa using hnew)
    · simpa [or_imp, forall_and] using ⟨hnamed, hid⟩
    · simpa [or_imp, forall_and, hconcrete] using hbare.1

/-- The bases and the dictionary of an object have no part in its codecs. -/
theorem replace {o o' : Object} {cs : List ArrayCodec} (h : Catalogue (os ++ [o]) cs)
    (hid : o'.id = o.id) (hinterface : o'.isInterface = o.isInterface)
    (hfields : o'.fields = o.fields) : Catalogue (os ++ [o']) cs := by
  have hcodecs : o'.codecs = o.codecs := by simp only [Object.codecs, hid, hinterface, hfields]
  refine ⟨by simpa [hcodecs] using h.codecs, h.distinct, h.named, fun b hb => ?_⟩
  rcases List.mem_append.mp hb with hb | hb
  · exact h.bare b (List.mem_append_left _ hb)
  · obtain rfl := List.mem_singleton.mp hb
    rw [hid, hinterface, hfields]
    exact h.bare o (by simp)

theorem step (h : Catalogue (os ++ [d.object]) d.arrays) (hstep : d.Step d') :
    Catalogue (os ++ [d'.object]) d'.arrays := by
  cases hstep with
  | base id => exact h.replace rfl rfl rfl
  | slot hgains =>
    cases hgains with
    | field _ hissues => exact h.field hissues
    | wildcard => exact h.replace rfl rfl rfl

theorem steps (h : Catalogue (os ++ [d.object]) d.arrays) (hsteps : Draft.Steps d d') :
    Catalogue (os ++ [d'.object]) d'.arrays := by
  induction hsteps with
  | refl => exact h
  | tail _ hstep ih => exact ih.step hstep

theorem snoc {ds : List Schema.Declaration} {cs : List ArrayCodec} (h : Catalogue os cs)
    (hos : Arena ds os) {decl : Schema.Declaration} (hd : object ds os cs decl = .ok d) :
    Catalogue (os ++ [d.object]) d.arrays := by
  refine steps ⟨?_, h.distinct, h.named, ?_⟩ (gathers_of_object hos.keyed hd).2
  · rw [h.codecs]
    simp [Object.codecs]
  · simpa [or_imp, forall_and] using h.bare

end Catalogue

end Resolve

namespace Model

variable {ds : List Schema.Declaration} {opt : ModelOptions} {m : Model}

theorem catalogue_of_resolve (h : resolve ds opt = .ok m) :
    Resolve.Catalogue m.objects m.arrays := by
  obtain ⟨-, os, cs, hobjects, rfl⟩ := resolve_eq_ok_iff.mp h
  have hloop := Resolve.objects_induct
    (P := fun os cs => Resolve.Arena ds os ∧ Resolve.Catalogue os cs) rfl hobjects
    ⟨fun i o hi => by simp at hi, rfl, by simp, by simp, by simp⟩
    fun ⟨hos, hcs⟩ hdecl hd => ⟨hos.snoc hdecl hd, hcs.snoc hos hd⟩
  exact hloop.1.2

end Model

end WireSchema
