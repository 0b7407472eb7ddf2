import WireSchema.Proofs.Json.Tree
import WireSchema.Proofs.Token.Progress
import WireSchema.Token.Reader

/-!
# What a source emits

`Source.Emits s ts s'` says that the next tokens of `s` are `ts` and that `s'` is the source after
them; nothing is said of what comes later. Readers and the loops over sources are described by it:
skipping takes exactly the tokens of one value.
-/

namespace WireSchema

open Json (Tree)

namespace Source

/-- The next tokens of the first source are those of the list, and the second source is what is left
then. -/
inductive Emits : Source → List Token → Source → Prop
  | nil (s : Source) : Emits s [] s
  | cons {s s₁ s₂ : Source} {t : Located} {ts : List Token} :
      s.next = (.ok t, s₁) → Emits s₁ ts s₂ → Emits s (t.token :: ts) s₂

namespace Emits

theorem nil_iff {s s' : Source} : s.Emits [] s' ↔ s' = s := by
  constructor
  · rintro ⟨⟩; rfl
  · rintro rfl; exact nil _

theorem cons_iff {s s₂ : Source} {t : Token} {ts : List Token} :
    s.Emits (t :: ts) s₂ ↔ ∃ (offset : Int) (s₁ : Source),
      s.next = (.ok ⟨t, offset⟩, s₁) ∧ s₁.Emits ts s₂ := by
  constructor
  · intro h
    cases h with
    | cons hn ht => exact ⟨_, _, hn, ht⟩
  · rintro ⟨offset, s₁, hn, ht⟩
    exact cons hn ht

theorem append_iff {s s₂ : Source} {ts us : List Token} :
    s.Emits (ts ++ us) s₂ ↔ ∃ s₁, s.Emits ts s₁ ∧ s₁.Emits us s₂ := by
  induction ts generalizing s with
  | nil => simp [nil_iff]
  | cons t ts ih =>
    simp only [List.cons_append, cons_iff, ih]
    constructor
    · rintro ⟨offset, s', hn, s₁, h₁, h₂⟩
      exact ⟨s₁, ⟨offset, s', hn, h₁⟩, h₂⟩
    · rintro ⟨s₁, ⟨offset, s', hn, h₁⟩, h₂⟩
      exact ⟨offset, s', hn, s₁, h₁, h₂⟩

theorem append {s s₁ s₂ : Source} {ts us : List Token} (h₁ : s.Emits ts s₁) (h₂ : s₁.Emits us s₂) :
    s.Emits (ts ++ us) s₂ :=
  append_iff.mpr ⟨s₁, h₁, h₂⟩

theorem length_le {s s' : Source} {ts : List Token} (h : s.Emits ts s') :
    ts.length + s'.size ≤ s.size := by
  induction h with
  | nil s => simp
  | cons hn _ ih =>
    have := size_of_next hn
    simp only [List.length_cons]
    omega

theorem replay (ts : List Located) (rest : List Located) (taken : Nat) :
    (Source.replay (ts ++ rest) taken).Emits (ts.map (·.token))
      (.replay rest (taken + ts.length)) := by
  induction ts generalizing taken with
  | nil => exact nil _
  | cons t ts ih =>
    have := ih (taken + 1)
    rw [Nat.add_assoc, Nat.add_comm 1] at this
    exact cons rfl this

end Emits

/-! ## Skipping -/

theorem skipLoop_next {s s₁ : Source} {t : Token} {offset : Int}
    (h : s.next = (.ok ⟨t, offset⟩, s₁)) (fuel depth : Nat) :
    skipLoop (fuel + 1) (depth + 1) s =
      skipLoop fuel (if t.opens then depth + 2 else if t.closes then depth else depth + 1) s₁ := by
  rw [skipLoop, h]
  simp only
  split_ifs <;> rfl

mutual

/-- The loop of skipping passes over a whole value at the same depth. -/
theorem skipLoop_tree : ∀ (t : Tree) {s s' : Source} (fuel depth : Nat), s.Emits t.tokens s' →
    skipLoop (fuel + t.tokens.length) (depth + 1) s = skipLoop fuel (depth + 1) s'
  | .array items, s, s', fuel, depth, h => by
    obtain ⟨offset, s₁, hn, h⟩ := Emits.cons_iff.mp h
    obtain ⟨s₂, hi, h⟩ := Emits.append_iff.mp (show s₁.Emits (Tree.itemTokens items ++ [_]) s' from h)
    obtain ⟨offset', s₃, he, h⟩ := Emits.cons_iff.mp h
    obtain rfl := Emits.nil_iff.mp h
    have hl : fuel + (Tree.array items).tokens.length =
        fuel + 1 + (Tree.itemTokens items).length + 1 := by
      simp [Tree.tokens, Tree.tail]; omega
    rw [hl, skipLoop_next hn, if_pos (by rfl), skipLoop_items items _ _ hi, skipLoop_next he]
    rfl
  | .object members, s, s', fuel, depth, h => by
    obtain ⟨offset, s₁, hn, h⟩ := Emits.cons_iff.mp h
    obtain ⟨s₂, hm, h⟩ :=
      Emits.append_iff.mp (show s₁.Emits (Tree.memberTokens members ++ [_]) s' from h)
    obtain ⟨offset', s₃, he, h⟩ := Emits.cons_iff.mp h
    obtain rfl := Emits.nil_iff.mp h
    have hl : fuel + (Tree.object members).tokens.length =
        fuel + 1 + (Tree.memberTokens members).length + 1 := by
      simp [Tree.tokens, Tree.tail]; omega
    rw [hl, skipLoop_next hn, if_pos (by rfl), skipLoop_members members _ _ hm, skipLoop_next he]
    rfl
  | .null, s, s', fuel, depth, h | .bool _, s, s', fuel, depth, h
  | .number _, s, s', fuel, depth, h | .string _, s, s', fuel, depth, h => by
    obtain ⟨offset, s₁, hn, h⟩ := Emits.cons_iff.mp h
    obtain rfl := Emits.nil_iff.mp h
    exact skipLoop_next hn fuel depth

theorem skipLoop_items : ∀ (ts : List Tree) {s s' : Source} (fuel depth : Nat),
    s.Emits (Tree.itemTokens ts) s' →
    skipLoop (fuel + (Tree.itemTokens ts).length) (depth + 1) s = skipLoop fuel (depth + 1) s'
  | [], s, s', fuel, depth, h => by
    obtain rfl := Emits.nil_iff.mp h
    rfl
  | t :: ts, s, s', fuel, depth, h => by
    obtain ⟨s₁, ht, hts⟩ := Emits.append_iff.mp (show s.Emits (t.tokens ++ Tree.itemTokens ts) s' from h)
    have hl : fuel + (Tree.itemTokens (t :: ts)).length =
        fuel + (Tree.itemTokens ts).length + t.tokens.length := by
      simp [Tree.tokens, Tree.itemTokens]; omega
    rw [hl, skipLoop_tree t _ _ ht, skipLoop_items ts _ _ hts]

theorem skipLoop_members : ∀ (ms : List (Text × Tree)) {s s' : Source} (fuel depth : Nat),
    s.Emits (Tree.memberTokens ms) s' →
    skipLoop (fuel + (Tree.memberTokens ms).length) (depth + 1) s = skipLoop fuel (depth + 1) s'
  | [], s, s', fuel, depth, h => by
    obtain rfl := Emits.nil_iff.mp h
    rfl
  | (key, t) :: ms, s, s', fuel, depth, h => by
    obtain ⟨offset, s₁, hn, h⟩ := Emits.cons_iff.mp h
    obtain ⟨s₂, ht, hms⟩ :=
      Emits.append_iff.mp (show s₁.Emits (t.tokens ++ Tree.memberTokens ms) s' from h)
    have hl : fuel + (Tree.memberTokens ((key, t) :: ms)).length =
        fuel + (Tree.memberTokens ms).length + t.tokens.length + 1 := by
      simp [Tree.tokens, Tree.memberTokens]; omega
    rw [hl, skipLoop_next hn, if_neg (by simp [Token.opens]), if_neg (by simp [Token.closes]),
      skipLoop_tree t _ _ ht, skipLoop_members ms _ _ hms]

end

/-- After the first token of a container, skipping takes the rest of it and no more. -/
theorem skipValue_tree {t : Tree} {s s' : Source} (ho : t.head.opens = true)
    (h : s.Emits t.tail s') : s.skipValue t.head = (none, s') := by
  have hsize := h.length_le
  rw [skipValue, if_pos ho]
  cases t with
  | array items =>
    obtain ⟨s₁, hi, he⟩ := Emits.append_iff.mp (show s.Emits (Tree.itemTokens items ++ [_]) s' from h)
    obtain ⟨offset, s₂, hn, he⟩ := Emits.cons_iff.mp he
    obtain rfl := Emits.nil_iff.mp he
    obtain ⟨fuel, hf⟩ : ∃ fuel, s.size + 1 = fuel + 1 + (Tree.itemTokens items).length := by
      simp only [Tree.tail, List.length_append, List.length_singleton] at hsize
      exact ⟨s.size - (Tree.itemTokens items).length, by omega⟩
    rw [hf, skipLoop_items items _ _ hi, skipLoop_next hn]
    simp [Token.opens, Token.closes, skipLoop]
  | object members =>
    obtain ⟨s₁, hm, he⟩ :=
      Emits.append_iff.mp (show s.Emits (Tree.memberTokens members ++ [_]) s' from h)
    obtain ⟨offset, s₂, hn, he⟩ := Emits.cons_iff.mp he
    obtain rfl := Emits.nil_iff.mp he
    obtain ⟨fuel, hf⟩ : ∃ fuel, s.size + 1 = fuel + 1 + (Tree.memberTokens members).length := by
      simp only [Tree.tail, List.length_append, List.length_singleton] at hsize
      exact ⟨s.size - (Tree.memberTokens members).length, by omega⟩
    rw [hf, skipLoop_members members _ _ hm, skipLoop_next hn]
    simp [Token.opens, Token.closes, skipLoop]
  | _ => simp [Tree.head, Token.opens] at ho

end Source

/-! ## Readers -/

namespace Reader

def on (r : Reader) (s : Source) (t : Token) : Reader := { r with source := s, current := some t }

@[simp]
theorem on_source (r : Reader) (s : Source) (t : Token) : (r.on s t).source = s := rfl

@[simp]
theorem on_current (r : Reader) (s : Source) (t : Token) : (r.on s t).current = some t := rfl

@[simp]
theorem on_on (r : Reader) (s s' : Source) (t t' : Token) : (r.on s t).on s' t' = r.on s' t' := rfl

theorem next_on {r : Reader} {s : Source} {t : Token} {offset : Int}
    (h : r.source.next = (.ok ⟨t, offset⟩, s)) : r.next = (.ok t, r.on s t) := by
  rw [next, h]
  rfl

theorem on_eq_self {r : Reader} {t : Token} (h : r.current = some t) : r.on r.source t = r := by
  rw [on, ← h]

theorem skip_tree {r : Reader} {t : Tree} {s : Source} (hc : r.current = some t.head)
    (h : r.source.Emits t.tail s) : r.skip = (none, r.on s t.last) := by
  cases t with
  | array items =>
    have hs := Source.skipValue_tree (by rfl) h
    simp only [Tree.head] at hc hs
    simp only [skip, hc, skipValue, skipContainer, hs]
    rfl
  | object members =>
    have hs := Source.skipValue_tree (by rfl) h
    simp only [Tree.head] at hc hs
    simp only [skip, hc, skipValue, skipContainer, hs]
    rfl
  | _ =>
    obtain rfl := Source.Emits.nil_iff.mp h
    simp only [Tree.last, on_eq_self hc]
    simp only [Tree.head] at hc
    simp only [skip, hc, skipValue]

theorem skip_key {r : Reader} {name : Text} {t : Tree} {s : Source}
    (hc : r.current = some (.key name)) (h : r.source.Emits t.tokens s) :
    r.skip = (none, r.on s t.last) := by
  obtain ⟨offset, s₁, hn, ht⟩ := Source.Emits.cons_iff.mp h
  have hs : (r.on s₁ t.head).skip = (none, r.on s t.last) := skip_tree rfl ht
  have hv : (r.on s₁ t.head).skip = (r.on s₁ t.head).skipValue := by
    cases t <;> rfl
  simp only [skip, hc, next_on hn]
  exact hv ▸ hs

end Reader

end WireSchema
