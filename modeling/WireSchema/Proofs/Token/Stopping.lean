import WireSchema.Proofs.Token.Enforcement

/-!
# Sources that stop

`Source.Stops s ts f` says that the source hands on the tokens `ts` and then fails with `f`. A source
that stops inside a container cannot be skipped to the end of the container. Under limits a source
stops as it does without them, or at a token that is refused.
-/

namespace WireSchema

open Json (Tree)

/-- The tokens between the brackets of a container. -/
def Json.Tree.contents : Tree → List Token
  | .array items => itemTokens items
  | .object members => memberTokens members
  | _ => []

theorem Json.Tree.tail_eq {t : Tree} (h : t.head.opens = true) : t.tail = t.contents ++ [t.last] := by
  cases t with
  | array items => rfl
  | object members => rfl
  | _ => cases h

theorem Json.Tree.tail_eq_nil {t : Tree} (h : t.head.opens = false) : t.tail = [] := by
  cases t with
  | array items => cases h
  | object members => cases h
  | _ => rfl

namespace Source

/-- The source hands on the tokens and then fails. -/
def Stops (s : Source) (ts : List Token) (f : Failure) : Prop :=
  ∃ s₁ s₂, s.Emits ts s₁ ∧ s₁.next = (.error f, s₂)

namespace Stops

variable {s : Source} {ts us : List Token} {t : Token} {f : Failure}

theorem nil_iff : s.Stops [] f ↔ ∃ s₁, s.next = (.error f, s₁) := by
  simp [Stops, Emits.nil_iff]

theorem cons_iff : s.Stops (t :: ts) f ↔
    ∃ (offset : Int) (s₁ : Source), s.next = (.ok ⟨t, offset⟩, s₁) ∧ s₁.Stops ts f := by
  simp only [Stops, Emits.cons_iff]
  constructor
  · rintro ⟨s₁, s₂, ⟨offset, s', hn, he⟩, hf⟩
    exact ⟨offset, s', hn, s₁, s₂, he, hf⟩
  · rintro ⟨offset, s', hn, s₁, s₂, he, hf⟩
    exact ⟨s₁, s₂, ⟨offset, s', hn, he⟩, hf⟩

theorem append_iff : s.Stops (ts ++ us) f ↔ ∃ s₁, s.Emits ts s₁ ∧ s₁.Stops us f := by
  simp only [Stops, Emits.append_iff]
  constructor
  · rintro ⟨s₁, s₂, ⟨s', hts, hus⟩, hf⟩
    exact ⟨s', hts, s₁, s₂, hus, hf⟩
  · rintro ⟨s', hts, s₁, s₂, hus, hf⟩
    exact ⟨s₁, s₂, ⟨s', hts, hus⟩, hf⟩

theorem length_le (h : s.Stops ts f) : ts.length ≤ s.size := by
  obtain ⟨s₁, s₂, he, -⟩ := h
  have hsize := he.length_le
  omega

end Stops

/-! ## Sources that are cut off -/

/-- What is left of a token sequence that is cut: its beginning, where the last token may have become
another one. -/
def Curtails (Q : Token → Token → Prop) (ts us : List Token) : Prop :=
  us <+: ts ∧ us ≠ ts ∨ ∃ before t u after, ts = before ++ t :: after ∧ us = before ++ [u] ∧ Q t u

theorem Curtails.cons {Q : Token → Token → Prop} {ts us : List Token} (h : Curtails Q ts us)
    (t : Token) : Curtails Q (t :: ts) (t :: us) := by
  rcases h with ⟨hinitial, hne⟩ | ⟨before, t', u, after, rfl, rfl, hq⟩
  · exact .inl ⟨List.cons_prefix_cons.mpr ⟨rfl, hinitial⟩, by simpa using hne⟩
  · exact .inr ⟨t :: before, t', u, after, rfl, rfl, hq⟩

/-- Where one source goes on to `s` with the token `t`, the other one stops with a failure of `F`, or
it goes on likewise, or it stops after a token that `Q` allows in place of `t`. -/
def Cuts (R : Source → Source → Prop) (F : Failure → Prop) (Q : Token → Token → Prop) (t : Token)
    (s s' : Source) : Prop :=
  (∃ f, s'.Stops [] f ∧ F f) ∨ (∃ s₁, s'.Emits [t] s₁ ∧ R s s₁) ∨
    ∃ u f, s'.Stops [u] f ∧ F f ∧ Q t u

/-- A source that is cut off with respect to another one, token by token, stops before the other one
has come to where none is. -/
theorem Emits.curtailed {R : Source → Source → Prop} {F : Failure → Prop}
    {Q : Token → Token → Prop}
    (hstep : ∀ {s s' s₁ t}, R s s' → s.next = (.ok t, s₁) → Cuts R F Q t.token s₁ s')
    {s s' s₁ : Source} {ts : List Token} (h : s.Emits ts s₁) (hr : R s s') (hend : ∀ s', ¬R s₁ s') :
    ∃ us f, s'.Stops us f ∧ F f ∧ Curtails Q ts us := by
  induction h generalizing s' with
  | nil s => exact absurd hr (hend s')
  | @cons s s' s₁ t ts hn _ ih =>
    rcases hstep hr hn with ⟨f, hstops, hf⟩ | ⟨s₂, he, hr⟩ | ⟨u, f, hstops, hf, hq⟩
    · exact ⟨[], f, hstops, hf, .inl ⟨List.nil_prefix, by simp⟩⟩
    · obtain ⟨us, f, hstops, hf, hcut⟩ := ih hr hend
      exact ⟨t.token :: us, f, Stops.append_iff.mpr ⟨s₂, he, hstops⟩, hf, hcut.cons t.token⟩
    · exact ⟨[u], f, hstops, hf, .inr ⟨[], t.token, u, ts, rfl, rfl, hq⟩⟩

/-! ## Limits -/

/-- Under limits the tokens are handed on as long as none is refused. -/
theorem Emits.limited (l : Limits) (frames : List Frame) {s s₁ : Source} {ts : List Token}
    (h : s.Emits ts s₁) :
    (∃ n frames', Enforce.run l frames ts = (n, .ok frames') ∧
      (Source.limited l frames s).Emits ts (.limited l frames' s₁)) ∨
    ∃ n f, Enforce.run l frames ts = (n, .error f) ∧ n < ts.length ∧
      (Source.limited l frames s).Stops (ts.take n) f := by
  induction h generalizing frames with
  | nil s => exact .inl ⟨0, frames, rfl, .nil _⟩
  | @cons s s' s₁ t ts hn _ ih =>
    rcases hstep : Enforce.step l frames t.token with ⟨frames', _ | f⟩
    · have hnext : (Source.limited l frames s).next = (.ok t, .limited l frames' s') := by
        simp only [next, hn, hstep]
      rcases ih frames' with ⟨n, frames₁, hrun, he⟩ | ⟨n, f, hrun, hn, hs⟩
      · exact .inl ⟨n + 1, frames₁, by simp [Enforce.run, hstep, hrun], .cons hnext he⟩
      · refine .inr ⟨n + 1, f, by simp [Enforce.run, hstep, hrun], Nat.succ_lt_succ hn, ?_⟩
        exact Stops.cons_iff.mpr ⟨t.offset, _, hnext, hs⟩
    · have hnext : (Source.limited l frames s).next = (.error f, .limited l frames' s') := by
        simp only [next, hn, hstep]
      refine .inr ⟨0, f, by simp [Enforce.run, hstep], Nat.succ_pos _, ?_⟩
      exact Stops.nil_iff.mpr ⟨_, hnext⟩

theorem Emits.withLimits {s s₁ : Source} {ts : List Token} (h : s.Emits ts s₁) (l : Limits) :
    (∃ s₂, (s.withLimits l).Emits ts s₂) ∨
    ∃ us f, us <+: ts ∧ us ≠ ts ∧ (s.withLimits l).Stops us f := by
  unfold Source.withLimits
  cases l.enabled with
  | false => exact .inl ⟨s₁, h⟩
  | true =>
    rcases h.limited l [] with ⟨n, frames, -, he⟩ | ⟨n, f, -, hn, hstops⟩
    · exact .inl ⟨_, he⟩
    · refine .inr ⟨ts.take n, f, List.take_prefix n ts, fun heq => ?_, hstops⟩
      have hlength := congrArg List.length heq
      rw [List.length_take] at hlength
      omega

/-- A source that stops also does so under limits. If it stops elsewhere then, a token is refused, and
so it is in every source that goes on from the same tokens. -/
theorem Stops.withLimits {s : Source} {ts : List Token} {f : Failure} (h : s.Stops ts f)
    (l : Limits) :
    (s.withLimits l).Stops ts f ∨
    ∃ us f', us <+: ts ∧ (s.withLimits l).Stops us f' ∧
      ∀ {s' s₁ : Source}, s'.Emits ts s₁ → (s'.withLimits l).Stops us f' := by
  unfold Source.withLimits
  cases l.enabled with
  | false => exact .inl h
  | true =>
    obtain ⟨s₁, s₂, he, hf⟩ := h
    rcases he.limited l [] with ⟨n, frames, -, he⟩ | ⟨n, f', hrun, -, hstops⟩
    · refine .inl ⟨_, .limited l frames s₂, he, ?_⟩
      simp only [next, hf]
    · refine .inr ⟨ts.take n, f', List.take_prefix n ts, hstops, fun he' => ?_⟩
      rcases he'.limited l [] with ⟨n', frames, hrun', -⟩ | ⟨n', f'', hrun', -, hstops'⟩
      · rw [hrun] at hrun'
        cases hrun'
      · rw [hrun] at hrun'
        cases hrun'
        exact hstops'

/-! ## Skipping -/

/-- Starting at a depth, the tokens never close as much as is open. -/
def Stays : (depth : Nat) → List Token → Prop
  | depth, [] => 0 < depth
  | depth, t :: ts =>
    0 < depth ∧ Stays (if t.opens then depth + 1 else if t.closes then depth - 1 else depth) ts

theorem Stays.of_append {depth : Nat} {ts : List Token} (us : List Token)
    (h : Stays depth (ts ++ us)) : Stays depth ts := by
  induction ts generalizing depth with
  | nil =>
    cases us with
    | nil => exact h
    | cons u us => exact h.1
  | cons t ts ih => exact ⟨h.1, ih h.2⟩

mutual

theorem stays_tree : ∀ (t : Tree) {depth : Nat} {us : List Token}, Stays (depth + 1) us →
    Stays (depth + 1) (t.tokens ++ us)
  | .array items, depth, us, h => by
    have hend : Stays (depth + 2) (.endArray :: us) := ⟨by omega, h⟩
    have hitems := stays_items items hend
    simpa [Tree.tokens, Tree.head, Tree.tail] using
      (show Stays (depth + 1) (.beginArray :: (Tree.itemTokens items ++ .endArray :: us)) from
        ⟨by omega, hitems⟩)
  | .object members, depth, us, h => by
    have hend : Stays (depth + 2) (.endObject :: us) := ⟨by omega, h⟩
    have hmembers := stays_members members hend
    simpa [Tree.tokens, Tree.head, Tree.tail] using
      (show Stays (depth + 1) (.beginObject :: (Tree.memberTokens members ++ .endObject :: us)) from
        ⟨by omega, hmembers⟩)
  | .null, depth, us, h | .bool _, depth, us, h | .number _, depth, us, h
  | .string _, depth, us, h => ⟨by omega, h⟩

theorem stays_items : ∀ (items : List Tree) {depth : Nat} {us : List Token}, Stays (depth + 1) us →
    Stays (depth + 1) (Tree.itemTokens items ++ us)
  | [], depth, us, h => h
  | t :: items, depth, us, h => by
    simpa [Tree.itemTokens, Tree.tokens] using stays_tree t (stays_items items h)

theorem stays_members : ∀ (members : List (Text × Tree)) {depth : Nat} {us : List Token},
    Stays (depth + 1) us → Stays (depth + 1) (Tree.memberTokens members ++ us)
  | [], depth, us, h => h
  | (key, t) :: members, depth, us, h => by
    have hvalue : Stays (depth + 1) (t.tokens ++ (Tree.memberTokens members ++ us)) :=
      stays_tree t (stays_members members h)
    simpa [Tree.memberTokens, Tree.tokens] using
      (show Stays (depth + 1) (.key key :: (t.tokens ++ (Tree.memberTokens members ++ us))) from
        ⟨by omega, hvalue⟩)

end

/-- Inside a container the depth is one at least. -/
theorem stays_contents {t : Tree} {ts : List Token} (h : ts <+: t.contents) : Stays 1 ts := by
  obtain ⟨us, hus⟩ := h
  refine Stays.of_append us ?_
  rw [hus]
  have hnil : Stays 1 [] := Nat.one_pos
  cases t with
  | array items => simpa [Tree.contents] using stays_items items hnil
  | object members => simpa [Tree.contents] using stays_members members hnil
  | _ => exact hnil

/-- A failure of the source as skipping reports it: the end is always a torn one. -/
def whileSkipping : Failure → Failure
  | .exhausted .clean => .exhausted .torn
  | f => f

theorem skipLoop_stops {s : Source} {ts : List Token} {f : Failure} {depth fuel : Nat}
    (h : s.Stops ts f) (hstays : Stays depth ts) (hfuel : ts.length < fuel) :
    ∃ s₁, skipLoop fuel depth s = (some (whileSkipping f), s₁) := by
  induction ts generalizing s depth fuel with
  | nil =>
    obtain ⟨depth, rfl⟩ := Nat.exists_eq_succ_of_ne_zero (Nat.ne_of_gt hstays)
    obtain ⟨fuel, rfl⟩ := Nat.exists_eq_succ_of_ne_zero (Nat.ne_of_gt hfuel)
    obtain ⟨s₁, hn⟩ := Stops.nil_iff.mp h
    refine ⟨s₁, ?_⟩
    rw [skipLoop, hn]
    cases f with
    | exhausted how => cases how <;> rfl
    | _ => rfl
  | cons t ts ih =>
    obtain ⟨depth, rfl⟩ := Nat.exists_eq_succ_of_ne_zero (Nat.ne_of_gt hstays.1)
    obtain ⟨fuel, rfl⟩ := Nat.exists_eq_succ_of_ne_zero (Nat.ne_zero_of_lt hfuel)
    obtain ⟨offset, s₁, hn, h⟩ := Stops.cons_iff.mp h
    rw [skipLoop_next hn]
    exact ih h hstays.2 (Nat.lt_of_succ_lt_succ hfuel)

theorem skipValue_stops {t : Tree} {s : Source} {ts : List Token} {f : Failure}
    (ho : t.head.opens = true) (hts : ts <+: t.contents) (h : s.Stops ts f) :
    ∃ s₁, s.skipValue t.head = (some (whileSkipping f), s₁) := by
  rw [skipValue, if_pos ho]
  exact skipLoop_stops h (stays_contents hts) (Nat.lt_succ_of_le h.length_le)

end Source

/-! ## Readers -/

namespace Reader

open Source (whileSkipping)

variable {r : Reader} {t : Tree} {ts : List Token} {f : Failure}

theorem next_stops (h : r.source.Stops [] f) : ∃ r', r.next = (.error (report f), r') := by
  obtain ⟨s₁, hn⟩ := Source.Stops.nil_iff.mp h
  exact ⟨{ r with source := s₁ }, by rw [next, hn]⟩

theorem skip_stops (hc : r.current = some t.head) (ho : t.head.opens = true)
    (hts : ts <+: t.contents) (h : r.source.Stops ts f) :
    ∃ r', r.skip = (some (report (whileSkipping f)), r') := by
  obtain ⟨s₁, hs⟩ := Source.skipValue_stops ho hts h
  refine ⟨{ r with source := s₁ }, ?_⟩
  cases t with
  | array items =>
    simp only [Tree.head] at hc hs
    simp only [skip, hc, skipValue, skipContainer, hs]
  | object members =>
    simp only [Tree.head] at hc hs
    simp only [skip, hc, skipValue, skipContainer, hs]
  | _ => cases ho

end Reader

end WireSchema
