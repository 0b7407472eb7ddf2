import WireSchema.Codec.Decode
import WireSchema.Proofs.Token.Answers

/-!
# Decoding sees nothing but the tokens

Decoding from two sources that agree gives the same fields and the same failure. The two sources may
differ in size, and so in the number of steps that decoding is given for each of them; but every token
costs a source some of its size, and the steps suffice on both sides, so that none of the two runs ever
stops for want of steps.

Two readers are `Abreast` within sizes `a` and `b` if they are on the same token, and if their sources
agree and are no larger than `a` and `b`. A token that both take lowers the two sizes by one.
-/

namespace WireSchema

namespace Source

/-- The sources agree, and are no larger than `a` and `b`. -/
def Abreast (a b : Nat) (s s' : Source) : Prop := s.Agrees s' ∧ s.size ≤ a ∧ s'.size ≤ b

namespace Abreast

variable {a b : Nat} {s s' : Source}

theorem mono {a₁ b₁ : Nat} (h : Abreast a b s s') (ha : a ≤ a₁) (hb : b ≤ b₁) :
    Abreast a₁ b₁ s s' :=
  ⟨h.1, h.2.1.trans ha, h.2.2.trans hb⟩

theorem cases (h : Abreast a b s s') :
    (∃ t offset offset' s₁ s₁' a₁ b₁, a = a₁ + 1 ∧ b = b₁ + 1 ∧ s.next = (.ok ⟨t, offset⟩, s₁) ∧
      s'.next = (.ok ⟨t, offset'⟩, s₁') ∧ Abreast a₁ b₁ s₁ s₁') ∨
    ∃ f s₁ s₁', s.next = (.error f, s₁) ∧ s'.next = (.error f, s₁') := by
  obtain ⟨h, ha, hb⟩ := h
  rcases h.cases with ⟨t, offset, offset', s₁, s₁', hn, hn', h⟩ | ⟨f, s₁, s₁', hn, hn', -⟩
  · have hsize := size_of_next hn
    have hsize' := size_of_next hn'
    exact .inl ⟨t, offset, offset', s₁, s₁', a - 1, b - 1, by omega, by omega, hn, hn', h,
      by omega, by omega⟩
  · exact .inr ⟨f, s₁, s₁', hn, hn'⟩

theorem skipLoop {fuel fuel' : Nat} (hf : a < fuel) (hf' : b < fuel') (depth : Nat)
    (h : Abreast a b s s') :
    ∃ failure s₁ s₁', Source.skipLoop fuel depth s = (failure, s₁) ∧
      Source.skipLoop fuel' depth s' = (failure, s₁') ∧ (failure = none → Abreast a b s₁ s₁') := by
  induction fuel generalizing fuel' depth a b s s' with
  | zero => omega
  | succ fuel ih =>
    obtain ⟨fuel', rfl⟩ : ∃ k, fuel' = k + 1 := ⟨fuel' - 1, by omega⟩
    cases depth with
    | zero => exact ⟨none, s, s', rfl, rfl, fun _ => h⟩
    | succ depth =>
      rcases h.cases with ⟨t, offset, offset', s₁, s₁', a₁, b₁, rfl, rfl, hn, hn', h₁⟩ |
        ⟨f, s₁, s₁', hn, hn'⟩
      · rw [skipLoop_next hn, skipLoop_next hn']
        have hf₁ : b₁ < fuel' := by omega
        obtain ⟨failure, s₂, s₂', hs, hs', h₂⟩ := ih (by omega) hf₁ _ h₁
        exact ⟨failure, s₂, s₂', hs, hs', fun hnone => (h₂ hnone).mono (by omega) (by omega)⟩
      · rw [Source.skipLoop, Source.skipLoop, hn, hn']
        by_cases hf : f = .exhausted .clean
        · subst hf
          exact ⟨some (.exhausted .torn), s₁, s₁', rfl, rfl, by simp⟩
        · refine ⟨some f, s₁, s₁', ?_, ?_, by simp⟩ <;>
            · split <;> simp_all

end Abreast

end Source

namespace Reader

/-- The readers are on the same token, and their sources are abreast. -/
def Abreast (a b : Nat) (r r' : Reader) : Prop :=
  r'.current = r.current ∧ r.source.Abreast a b r'.source

namespace Abreast

variable {a b : Nat} {r r' : Reader}

theorem mono {a₁ b₁ : Nat} (h : Abreast a b r r') (ha : a ≤ a₁) (hb : b ≤ b₁) :
    Abreast a₁ b₁ r r' :=
  ⟨h.1, h.2.mono ha hb⟩

theorem self (h : r.source.Agrees r'.source) (hc : r'.current = r.current) :
    Abreast r.source.size r'.source.size r r' :=
  ⟨hc, h, le_rfl, le_rfl⟩

theorem cases (h : Abreast a b r r') :
    (∃ t r₁ r₁' a₁ b₁, a = a₁ + 1 ∧ b = b₁ + 1 ∧ r.next = (.ok t, r₁) ∧ r'.next = (.ok t, r₁') ∧
      Abreast a₁ b₁ r₁ r₁') ∨
    ∃ f r₁ r₁', r.next = (.error f, r₁) ∧ r'.next = (.error f, r₁') := by
  rcases h.2.cases with ⟨t, offset, offset', s, s', a₁, b₁, rfl, rfl, hn, hn', hs⟩ |
    ⟨f, s, s', hn, hn'⟩
  · exact .inl ⟨t, r.on s t, r'.on s' t, a₁, b₁, rfl, rfl, next_on hn, next_on hn', rfl, hs⟩
  · refine .inr ⟨report f, { r with source := s }, { r' with source := s' }, ?_, ?_⟩
    · rw [next, hn]
    · rw [next, hn']

theorem skipContainer (h : Abreast a b r r') (first last : Token) :
    ∃ failure r₁ r₁', r.skipContainer first last = (failure, r₁) ∧
      r'.skipContainer first last = (failure, r₁') ∧ (failure = none → Abreast a b r₁ r₁') := by
  obtain ⟨hc, hs⟩ := h
  obtain ⟨failure, s₁, s₁', h₁, h₁', hgo⟩ : ∃ failure s₁ s₁',
      r.source.skipValue first = (failure, s₁) ∧ r'.source.skipValue first = (failure, s₁') ∧
      (failure = none → Source.Abreast a b s₁ s₁') := by
    unfold Source.skipValue
    split
    · have hself : Source.Abreast r.source.size r'.source.size r.source r'.source :=
        ⟨hs.1, le_rfl, le_rfl⟩
      obtain ⟨failure, s₁, s₁', h₁, h₁', hgo⟩ :=
        hself.skipLoop (Nat.lt_succ_self _) (Nat.lt_succ_self _) 1
      exact ⟨failure, s₁, s₁', h₁, h₁', fun hnone => (hgo hnone).mono hs.2.1 hs.2.2⟩
    · exact ⟨none, _, _, rfl, rfl, fun _ => hs⟩
  unfold Reader.skipContainer
  rw [h₁, h₁']
  cases failure with
  | none => exact ⟨none, _, _, rfl, rfl, fun _ => ⟨rfl, hgo rfl⟩⟩
  | some f => exact ⟨some (report f), _, _, rfl, rfl, by simp⟩

theorem skipValue (h : Abreast a b r r') :
    ∃ failure r₁ r₁', r.skipValue = (failure, r₁) ∧ r'.skipValue = (failure, r₁') ∧
      (failure = none → Abreast a b r₁ r₁') := by
  unfold Reader.skipValue
  rw [h.1]
  split
  · exact h.skipContainer _ _
  · exact h.skipContainer _ _
  · exact ⟨none, r, r', rfl, rfl, fun _ => h⟩

theorem skip (h : Abreast a b r r') :
    ∃ failure r₁ r₁', r.skip = (failure, r₁) ∧ r'.skip = (failure, r₁') ∧
      (failure = none → Abreast a b r₁ r₁') := by
  unfold Reader.skip
  rw [h.1]
  split
  · rcases h.cases with ⟨t, r₁, r₁', a₁, b₁, rfl, rfl, hn, hn', h⟩ | ⟨f, r₁, r₁', hn, hn'⟩
    · obtain ⟨failure, r₂, r₂', hs, hs', hgo⟩ := h.skipValue
      rw [hn, hn']
      exact ⟨failure, r₂, r₂', hs, hs', fun hnone => (hgo hnone).mono (by omega) (by omega)⟩
    · rw [hn, hn']
      exact ⟨some f, r₁, r₁', rfl, rfl, by simp⟩
  · exact h.skipValue

end Abreast

end Reader

namespace Codec

/-! ## One step of decoding -/

/-- The outcomes are the same, and where decoding goes on, the readers are abreast. -/
def Outcome.Alike (a b : Nat) (x y : Outcome) : Prop :=
  ∃ f target r r', x = ⟨f, target, r⟩ ∧ y = ⟨f, target, r'⟩ ∧ (f = none → Reader.Abreast a b r r')

namespace Outcome.Alike

variable {a b : Nat}

theorem mono {a₁ b₁ : Nat} {x y : Outcome} (h : x.Alike a b y) (ha : a ≤ a₁) (hb : b ≤ b₁) :
    x.Alike a₁ b₁ y := by
  obtain ⟨f, target, r, r', hx, hy, hgo⟩ := h
  exact ⟨f, target, r, r', hx, hy, fun hnone => (hgo hnone).mono ha hb⟩

theorem failed (f : Failure) (target : Option Target) (r r' : Reader) :
    Alike a b ⟨some f, target, r⟩ ⟨some f, target, r'⟩ :=
  ⟨some f, target, r, r', rfl, rfl, by simp⟩

theorem done {r r' : Reader} (h : r.Abreast a b r') (target : Option Target) :
    Alike a b ⟨none, target, r⟩ ⟨none, target, r'⟩ :=
  ⟨none, target, r, r', rfl, rfl, fun _ => h⟩

theorem store {r r' : Reader} (h : r.Abreast a b r') (target : Option Target)
    (put : Target → Target) : Alike a b (Codec.store target r put) (Codec.store target r' put) := by
  cases target with
  | none => exact failed .absentValue none r r'
  | some t => exact done h (some (put t))

end Outcome.Alike

section Steps

variable (m : Model) (n : Nat)

def MembersAlike : Prop :=
  ∀ (o : Object) {k a b : Nat} (target : Option Target) {r r' : Reader}, 2 * a + 1 ≤ n →
    2 * b + 1 ≤ k → r.Abreast a b r' →
    Outcome.Alike a b (decodeMembers m o n target r) (decodeMembers m o k target r')

def MemberAlike : Prop :=
  ∀ (o : Object) (name : Text) {k a b : Nat} (target : Option Target) {r r' : Reader},
    2 * a + 2 ≤ n → 2 * b + 2 ≤ k → r.Abreast a b r' →
    Outcome.Alike a b (decodeMember m o name n target r) (decodeMember m o name k target r')

def ValueAlike : Prop :=
  ∀ (label : Text) (type : ElemType) (t : Token) {k a b : Nat} {r r' : Reader}, 2 * a + 2 ≤ n →
    2 * b + 2 ≤ k → r.Abreast a b r' →
    ∃ got r₁ r₁', decodeValue m label type t n r = (got, r₁) ∧
      decodeValue m label type t k r' = (got, r₁') ∧
      ((∀ f, got ≠ .failed f) → r₁.Abreast a b r₁')

def ItemsAlike : Prop :=
  ∀ (label : Text) (type : ElemType) (seen : List (Option Value)) {k a b : Nat} {r r' : Reader},
    2 * a + 1 ≤ n → 2 * b + 1 ≤ k → r.Abreast a b r' →
    ∃ f items r₁ r₁', decodeItems m label type seen n r = (f, items, r₁) ∧
      decodeItems m label type seen k r' = (f, items, r₁') ∧ (f = none → r₁.Abreast a b r₁')

end Steps

variable {m : Model} {n : Nat}

theorem valueAlike_succ (hm : MembersAlike m n) : ValueAlike m (n + 1) := by
  intro label type t k a b r r' ha hb h
  obtain ⟨k, rfl⟩ : ∃ k', k = k' + 1 := ⟨k - 1, by omega⟩
  cases type with
  | scalar s =>
    simp only [decodeValue]
    exact ⟨_, r, r', rfl, rfl, fun _ => h⟩
  | object id =>
    simp only [decodeValue]
    split
    · rename_i o _
      obtain ⟨f, target, r₁, r₁', hx, hy, hgo⟩ := hm o (k := k) (some (Target.empty o))
        (by omega) (by omega) h
      rw [hx, hy]
      cases f with
      | some f => exact ⟨.failed f, r₁, r₁', rfl, rfl, by simp⟩
      | none =>
        cases target with
        | none => exact ⟨_, r₁, r₁', rfl, rfl, fun _ => hgo rfl⟩
        | some target => exact ⟨_, r₁, r₁', rfl, rfl, fun _ => hgo rfl⟩
    · exact ⟨.refused, r, r', rfl, rfl, fun _ => h⟩

theorem decodeItems_of_next {r r₁ : Reader} {t : Token} (hn : r.next = (.ok t, r₁))
    (hend : t ≠ .endArray) (hnull : t ≠ .null) (label : Text) (type : ElemType)
    (seen : List (Option Value)) :
    decodeItems m label type seen (n + 1) r =
      match decodeValue m label type t n r₁ with
      | (.value v, r) => decodeItems m label type (some v :: seen) n r
      | (.failed f, r) => (some f, seen.reverse, r)
      | (.refused, r) =>
        match r.skip with
        | (some f, r) => (some f, seen.reverse, r)
        | (none, r) => decodeItems m label type seen n r := by
  rw [decodeItems, hn]
  cases t with
  | endArray => exact absurd rfl hend
  | null => exact absurd rfl hnull
  | _ => rfl

theorem itemsAlike_succ (hv : ValueAlike m n) (hi : ItemsAlike m n) : ItemsAlike m (n + 1) := by
  intro label type seen k a b r r' ha hb h
  obtain ⟨k, rfl⟩ : ∃ k', k = k' + 1 := ⟨k - 1, by omega⟩
  rcases h.cases with ⟨t, r₁, r₁', a, b, rfl, rfl, hn, hn', h⟩ | ⟨f, r₁, r₁', hn, hn'⟩
  swap
  · rw [decodeItems, decodeItems, hn, hn']
    exact ⟨some f, seen.reverse, r₁, r₁', rfl, rfl, by simp⟩
  -- the elements that follow, whatever was made of this one
  have hrest (seen : List (Option Value)) {r₂ r₂' : Reader} (h : r₂.Abreast a b r₂') :
      ∃ f items r₃ r₃', decodeItems m label type seen n r₂ = (f, items, r₃) ∧
        decodeItems m label type seen k r₂' = (f, items, r₃') ∧
        (f = none → r₃.Abreast (a + 1) (b + 1) r₃') := by
    obtain ⟨f, items, r₃, r₃', hx, hy, hgo⟩ := hi label type seen (k := k) (by omega) (by omega) h
    exact ⟨f, items, r₃, r₃', hx, hy, fun hnone => (hgo hnone).mono (by omega) (by omega)⟩
  by_cases hend : t = .endArray
  · subst hend
    rw [decodeItems, decodeItems, hn, hn']
    exact ⟨none, seen.reverse, r₁, r₁', rfl, rfl, fun _ => h.mono (by omega) (by omega)⟩
  by_cases hnull : t = .null
  · subst hnull
    rw [decodeItems, decodeItems, hn, hn']
    cases type with
    | scalar s => exact ⟨some (.nullElement label), seen.reverse, r₁, r₁', rfl, rfl, by simp⟩
    | object id => exact hrest (none :: seen) h
  rw [decodeItems_of_next hn hend hnull, decodeItems_of_next hn' hend hnull]
  obtain ⟨got, r₂, r₂', hx, hy, hgo⟩ := hv label type t (k := k) (by omega) (by omega) h
  rw [hx, hy]
  cases got with
  | value v => exact hrest (some v :: seen) (hgo (by simp))
  | failed f => exact ⟨some f, seen.reverse, r₂, r₂', rfl, rfl, by simp⟩
  | refused =>
    obtain ⟨f, r₃, r₃', hs, hs', hgo⟩ := (hgo (by simp)).skip
    simp only [hs, hs']
    cases f with
    | some f => exact ⟨some f, seen.reverse, r₃, r₃', rfl, rfl, by simp⟩
    | none => exact hrest seen (hgo rfl)

def placed (label : Text) (kind : TokenKind) (target : Option Target) (put : Value → Target → Target) :
    Got × Reader → Outcome
  | (.value v, r) => store target r (put v)
  | (.refused, r) => ⟨some (.unexpectedToken label kind), target, r⟩
  | (.failed e, r) => ⟨some e, target, r⟩

theorem ValueAlike.placed (hv : ValueAlike m n) (label : Text) (type : ElemType) (t : Token)
    (target : Option Target) (put : Value → Target → Target) {k a b : Nat} {r r' : Reader}
    (ha : 2 * a + 2 ≤ n) (hb : 2 * b + 2 ≤ k) (h : r.Abreast a b r') :
    Outcome.Alike a b (placed label t.kind target put (decodeValue m label type t n r))
      (placed label t.kind target put (decodeValue m label type t k r')) := by
  obtain ⟨got, r₁, r₁', hx, hy, hgo⟩ := hv label type t ha hb h
  rw [hx, hy]
  cases got with
  | value v => exact .store (hgo (by simp)) target (put v)
  | refused => exact .failed _ target r₁ r₁'
  | failed e => exact .failed e target r₁ r₁'

section Member

variable {o : Object} {name : Text} {f : Field} {r r₁ : Reader} {t : Token}

theorem decodeMember_single (hfind : o.fields.find? (·.key == name) = some f) {type : ElemType}
    (htype : f.type = .single type) (hn : r.next = (.ok t, r₁)) (hnull : t ≠ .null)
    (target : Option Target) :
    decodeMember m o name (n + 1) target r =
      placed (Names.exported f.name) t.kind target (fun v => (·.set f.key (some v)))
        (decodeValue m (Names.exported f.name) type t n r₁) := by
  rw [decodeMember, hfind]
  simp only [hn, htype]
  cases t with
  | null => exact absurd rfl hnull
  | _ => rfl

theorem decodeMember_array (hfind : o.fields.find? (·.key == name) = some f) {elem : ElemType}
    {codec : Text} (htype : f.type = .array elem codec) (hn : r.next = (.ok t, r₁))
    (hnull : t ≠ .null) (target : Option Target) :
    decodeMember m o name (n + 1) target r =
      if t ≠ .beginArray then ⟨some (.unexpectedToken (Names.exported f.name) t.kind), target, r₁⟩
      else if target = none then ⟨some .absentValue, target, r₁⟩
      else
        match decodeItems m (Names.exported f.name) elem [] n r₁ with
        | (none, items, r) => store target r (·.set f.key (some (.array items)))
        | (some e, items, r) => ⟨some e, target.map (overwrite · f.key items), r⟩ := by
  rw [decodeMember, hfind]
  simp only [hn, htype]
  cases t with
  | null => exact absurd rfl hnull
  | _ => cases target <;> rfl

theorem decodeMember_entry (hfind : o.fields.find? (·.key == name) = none) {w : Wildcard}
    (hw : o.wildcard = some w) (hn : r.next = (.ok t, r₁)) (hnull : t ≠ .null)
    (target : Option Target) :
    decodeMember m o name (n + 1) target r =
      placed (Names.exported w.name) t.kind target (fun v => (·.insert name v))
        (decodeValue m (Names.exported w.name) w.elem t n r₁) := by
  rw [decodeMember, hfind]
  simp only [hn, hw]
  cases t with
  | null => exact absurd rfl hnull
  | _ => rfl

end Member

theorem fieldAlike (hv : ValueAlike m n) (hi : ItemsAlike m n) {o : Object} {name : Text} {f : Field}
    (hfind : o.fields.find? (·.key == name) = some f) {k a b : Nat} (target : Option Target)
    {r r' : Reader} (ha : 2 * a + 2 ≤ n + 1) (hb : 2 * b + 2 ≤ k + 1) (h : r.Abreast a b r') :
    Outcome.Alike a b (decodeMember m o name (n + 1) target r)
      (decodeMember m o name (k + 1) target r') := by
  rcases h.cases with ⟨t, r₁, r₁', a, b, rfl, rfl, hn, hn', h⟩ | ⟨e, r₁, r₁', hn, hn'⟩
  swap
  · rw [decodeMember, decodeMember, hfind]
    simp only [hn, hn']
    exact .failed e target r₁ r₁'
  refine Outcome.Alike.mono (a := a) (b := b) ?_ (by omega) (by omega)
  by_cases hnull : t = .null
  · rw [decodeMember, decodeMember, hfind]
    simp only [hn, hn', hnull]
    exact .store h target _
  cases htype : f.type with
  | single type =>
    rw [decodeMember_single hfind htype hn hnull, decodeMember_single hfind htype hn' hnull]
    exact hv.placed _ type t target _ (by omega) (by omega) h
  | array elem codec =>
    rw [decodeMember_array hfind htype hn hnull, decodeMember_array hfind htype hn' hnull]
    split_ifs
    · exact .failed _ target r₁ r₁'
    · exact .failed _ target r₁ r₁'
    · obtain ⟨e, items, r₂, r₂', hx, hy, hgo⟩ :=
        hi (Names.exported f.name) elem [] (k := k) (by omega) (by omega) h
      rw [hx, hy]
      cases e with
      | none => exact .store (hgo rfl) target _
      | some e => exact .failed e _ r₂ r₂'

theorem entryAlike (hv : ValueAlike m n) {o : Object} {name : Text} {w : Wildcard}
    (hfind : o.fields.find? (·.key == name) = none) (hw : o.wildcard = some w) {k a b : Nat}
    (target : Option Target) {r r' : Reader} (ha : 2 * a + 2 ≤ n + 1) (hb : 2 * b + 2 ≤ k + 1)
    (h : r.Abreast a b r') :
    Outcome.Alike a b (decodeMember m o name (n + 1) target r)
      (decodeMember m o name (k + 1) target r') := by
  rcases h.cases with ⟨t, r₁, r₁', a, b, rfl, rfl, hn, hn', h⟩ | ⟨e, r₁, r₁', hn, hn'⟩
  swap
  · rw [decodeMember, decodeMember, hfind]
    simp only [hn, hn', hw]
    exact .failed e target r₁ r₁'
  refine Outcome.Alike.mono (a := a) (b := b) ?_ (by omega) (by omega)
  by_cases hnull : t = .null
  · rw [decodeMember, decodeMember, hfind]
    simp only [hn, hn', hw, hnull]
    exact .done h target
  rw [decodeMember_entry hfind hw hn hnull, decodeMember_entry hfind hw hn' hnull]
  exact hv.placed _ w.elem t target _ (by omega) (by omega) h

theorem memberAlike_succ (hv : ValueAlike m n) (hi : ItemsAlike m n) : MemberAlike m (n + 1) := by
  intro o name k a b target r r' ha hb h
  obtain ⟨k, rfl⟩ : ∃ k', k = k' + 1 := ⟨k - 1, by omega⟩
  cases hfind : o.fields.find? (·.key == name) with
  | some f => exact fieldAlike hv hi hfind target ha hb h
  | none =>
    cases hw : o.wildcard with
    | some w => exact entryAlike hv hfind hw target ha hb h
    | none =>
      obtain ⟨e, r₁, r₁', hs, hs', hgo⟩ := h.skip
      rw [decodeMember, decodeMember, hfind]
      simp only [hw, hs, hs']
      exact ⟨e, target, r₁, r₁', rfl, rfl, hgo⟩

theorem membersAlike_succ (ht : MemberAlike m n) (hm : MembersAlike m n) :
    MembersAlike m (n + 1) := by
  intro o k a b target r r' ha hb h
  obtain ⟨k, rfl⟩ : ∃ k', k = k' + 1 := ⟨k - 1, by omega⟩
  rw [decodeMembers, decodeMembers]
  rcases h.cases with ⟨t, r₁, r₁', a, b, rfl, rfl, hn, hn', h⟩ | ⟨f, r₁, r₁', hn, hn'⟩
  · refine Outcome.Alike.mono (a := a) (b := b) ?_ (by omega) (by omega)
    simp only [hn, hn']
    cases t with
    | endObject => exact .done h target
    | key name =>
      obtain ⟨f, target, r₂, r₂', hx, hy, hgo⟩ :=
        ht o name (k := k) target (by omega) (by omega) h
      simp only [hx, hy]
      cases f with
      | some f => exact .failed f target _ _
      | none => exact hm o target (by omega) (by omega) (hgo rfl)
    | _ =>
      obtain ⟨f, r₂, r₂', hs, hs', hgo⟩ := h.skip
      simp only [hs, hs']
      cases f with
      | some f => exact .failed f target _ _
      | none => exact hm o target (by omega) (by omega) (hgo rfl)
  · simp only [hn, hn']
    exact .failed f target _ _

/-- The induction is on the steps of the one side; those of the other side are any that suffice. -/
theorem alike (m : Model) : ∀ n,
    MembersAlike m n ∧ MemberAlike m n ∧ ValueAlike m n ∧ ItemsAlike m n := by
  intro n
  induction n with
  | zero =>
    refine ⟨?_, ?_, ?_, ?_⟩
    · intro o k a b target r r' ha
      omega
    · intro o name k a b target r r' ha
      omega
    · intro label type t k a b r r' ha
      omega
    · intro label type seen k a b r r' ha
      omega
  | succ n ih =>
    obtain ⟨hmembers, hmember, hvalue, hitems⟩ := ih
    exact ⟨membersAlike_succ hmember hmembers, memberAlike_succ hvalue hitems,
      valueAlike_succ hmembers, itemsAlike_succ hvalue hitems⟩

/-! ## Documents -/

theorem decodeMembers_abreast {o : Object} {a b : Nat} {r r' : Reader} (h : r.Abreast a b r')
    (target : Option Target) :
    Outcome.Alike a b (decodeMembers m o (steps r) target r)
      (decodeMembers m o (steps r') target r') := by
  have hself := Reader.Abreast.self h.2.1 h.1
  have halike : Outcome.Alike r.source.size r'.source.size (decodeMembers m o (steps r) target r)
      (decodeMembers m o (steps r') target r') :=
    (alike m (steps r)).1 o target (by simp [steps]) (by simp [steps]) hself
  exact halike.mono h.2.2.1 h.2.2.2

theorem decode_agrees (m : Model) (o : Object) (target : Option Target) {r r' : Reader}
    (hc : r'.current = r.current) (h : r.source.Agrees r'.source) :
    (decode m o target r').failure = (decode m o target r).failure ∧
      (decode m o target r').target = (decode m o target r).target := by
  unfold decode
  rcases (Reader.Abreast.self h hc).cases with ⟨t, r₁, r₁', a, b, -, -, hn, hn', h⟩ |
    ⟨f, r₁, r₁', hn, hn'⟩
  · simp only [hn, hn']
    cases t with
    | beginObject =>
      obtain ⟨f, target, r₂, r₂', hx, hy, -⟩ := decodeMembers_abreast (m := m) (o := o) h target
      simp [hx, hy]
    | _ => exact ⟨rfl, rfl⟩
  · simp [hn, hn']

theorem decodeCurrent_abreast {o : Object} {a b : Nat} {r r' : Reader} (h : r.Abreast a b r') :
    ∃ result r₁ r₁', decodeCurrent m o r = (result, r₁) ∧ decodeCurrent m o r' = (result, r₁') ∧
      ((∃ target, result = .ok target) → r₁.Abreast a b r₁') := by
  unfold decodeCurrent
  rw [h.1]
  split
  · exact ⟨.ok none, r, r', rfl, rfl, fun _ => h⟩
  · obtain ⟨f, target, r₂, r₂', hx, hy, hgo⟩ :=
      decodeMembers_abreast (m := m) (o := o) h (some (Target.empty o))
    rw [hx, hy]
    cases f with
    | none => exact ⟨.ok target, r₂, r₂', rfl, rfl, fun _ => hgo rfl⟩
    | some f => exact ⟨.error f, r₂, r₂', rfl, rfl, by simp⟩
  · refine ⟨_, r, r', rfl, ?_, by simp⟩
    rw [Reader.kind, Reader.kind, h.1]

theorem decodeEach_abreast {o : Object} {n k a b : Nat} (ha : a < n) (hb : b < k)
    (seen : List (Option Target)) {r r' : Reader} (h : r.Abreast a b r') :
    ∃ targets f r₁ r₁', decodeEach m o n seen r = (targets, f, r₁) ∧
      decodeEach m o k seen r' = (targets, f, r₁') := by
  induction n generalizing k a b seen r r' with
  | zero => omega
  | succ n ih =>
    obtain ⟨k, rfl⟩ : ∃ k', k = k' + 1 := ⟨k - 1, by omega⟩
    rw [decodeEach, decodeEach]
    rcases h.cases with ⟨t, r₁, r₁', a, b, rfl, rfl, hn, hn', h⟩ | ⟨f, r₁, r₁', hn, hn'⟩
    · simp only [hn, hn']
      by_cases hend : t = .endArray
      · subst hend
        exact ⟨seen.reverse, none, r₁, r₁', rfl, rfl⟩
      · obtain ⟨result, r₂, r₂', hx, hy, hgo⟩ := decodeCurrent_abreast (m := m) (o := o) h
        have hb' : b < k := by omega
        cases result with
        | error f =>
          refine ⟨seen.reverse, some f, r₂, r₂', ?_, ?_⟩ <;> split <;> simp_all
        | ok target =>
          obtain ⟨targets, f, r₃, r₃', hx', hy'⟩ :=
            ih (by omega) hb' (target :: seen) (hgo ⟨target, rfl⟩)
          refine ⟨targets, f, r₃, r₃', ?_, ?_⟩ <;> split <;> simp_all
    · simp only [hn, hn']
      exact ⟨seen.reverse, some f, r₁, r₁', rfl, rfl⟩

/-- Decoding a sequence from agreeing sources gives the same objects, and fails alike or not at
all. -/
theorem decodeStream_agrees (m : Model) (o : Object) {r r' : Reader} (hc : r'.current = r.current)
    (h : r.source.Agrees r'.source) :
    (decodeStream m o r').1 = (decodeStream m o r).1 ∧
      (decodeStream m o r').2.1 = (decodeStream m o r).2.1 := by
  unfold decodeStream
  rcases (Reader.Abreast.self h hc).cases with ⟨t, r₁, r₁', a, b, -, -, hn, hn', h⟩ |
    ⟨f, r₁, r₁', hn, hn'⟩
  · obtain ⟨targets, f, r₂, r₂', hx, hy⟩ := decodeEach_abreast (m := m) (o := o)
      (Nat.lt_succ_self _) (Nat.lt_succ_self _) [] (Reader.Abreast.self h.2.1 h.1)
    simp [hn, hn', hx, hy]
  · simp [hn, hn']

end Codec

end WireSchema
