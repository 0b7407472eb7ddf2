import Mathlib.Data.List.Infix
import WireSchema.Proofs.Token.Stopping

/-!
# Skipping is reading through

To skip a value and to move on to its last token, one token at a time, come to the same: the same
reader if all of the value is there, and the same failure if a token of it is refused. This holds for
every source, so with limits inside it or without, and for whatever the value has inside.
-/

namespace WireSchema

open Json (Tree)

/-- The last token of a value comes at the end of those after the first; a scalar has none of these. -/
theorem Json.Tree.getLast?_tail (t : Tree) : t.tail.getLast?.or (some t.head) = some t.last := by
  cases t with
  | array items => simp [tail, last]
  | object members => simp [tail, last]
  | _ => rfl

theorem Json.Tree.getLast?_tokens (t : Tree) : t.tokens.getLast? = some t.last := by
  rw [← t.getLast?_tail, tokens]
  cases t.tail with
  | nil => rfl
  | cons u us => rw [List.getLast?_cons_cons, List.getLast?_cons]; rfl

namespace Reader

/-- Moves on `n` times, up to the first failure: the tokens met, the failure if there was one, and the
reader then. -/
def read : Nat → Reader → List Token × Option Failure × Reader
  | 0, r => ([], none, r)
  | n + 1, r =>
    match r.next with
    | (.error f, r) => ([], some f, r)
    | (.ok t, r) => (t :: (read n r).1, (read n r).2)

variable {r r' : Reader} {n : Nat} {ts : List Token}

/-- Moving on without a failure takes the tokens from the source and stops at the last of them. -/
theorem emits_of_read (h : r.read n = (ts, none, r')) :
    ∃ s, r.source.Emits ts s ∧ ts.length = n ∧
      r' = { r with source := s, current := ts.getLast?.or r.current } := by
  induction n generalizing r ts with
  | zero =>
    cases h
    exact ⟨_, .nil _, rfl, rfl⟩
  | succ n ih =>
    rw [read, next] at h
    rcases hn : r.source.next with ⟨f | t, s⟩
    · simp [hn] at h
    · simp only [hn, Prod.mk.injEq] at h
      obtain ⟨rfl, h⟩ := h
      obtain ⟨s', he, hl, rfl⟩ := ih (Prod.ext rfl h)
      refine ⟨s', .cons hn he, by rw [List.length_cons, hl], ?_⟩
      rw [List.getLast?_cons]
      cases List.getLast? _ <;> rfl

/-- Where moving on fails, the source has stopped. -/
theorem stops_of_read {g : Failure} (h : r.read n = (ts, some g, r')) :
    ∃ f, r.source.Stops ts f ∧ g = report f ∧ ts.length < n := by
  induction n generalizing r ts with
  | zero => cases h
  | succ n ih =>
    rw [read, next] at h
    rcases hn : r.source.next with ⟨f | ⟨t, offset⟩, s⟩
    · simp only [hn, Prod.mk.injEq, Option.some.injEq] at h
      obtain ⟨rfl, rfl, -⟩ := h
      exact ⟨f, Source.Stops.nil_iff.mpr ⟨s, hn⟩, rfl, Nat.succ_pos n⟩
    · simp only [hn, Prod.mk.injEq] at h
      obtain ⟨rfl, h⟩ := h
      obtain ⟨f, hs, rfl, hl⟩ := ih (Prod.ext rfl h)
      exact ⟨f, Source.Stops.cons_iff.mpr ⟨offset, s, hn, hs⟩, rfl, Nat.succ_lt_succ hl⟩

theorem read_of_emits {s : Source} (h : r.source.Emits ts s) : (r.read ts.length).1 = ts := by
  induction ts generalizing r with
  | nil => rfl
  | cons t ts ih =>
    obtain ⟨offset, s₁, hn, h⟩ := Source.Emits.cons_iff.mp h
    simp only [List.length_cons, read, next_on hn]
    rw [ih h]

theorem read_of_stops {f : Failure} (h : r.source.Stops ts f) (hn : ts.length < n) :
    (r.read n).1 = ts := by
  induction ts generalizing r n with
  | nil =>
    obtain ⟨n, rfl⟩ := Nat.exists_eq_succ_of_ne_zero (Nat.ne_of_gt hn)
    obtain ⟨r₁, hnext⟩ := next_stops h
    simp only [read, hnext]
  | cons t ts ih =>
    obtain ⟨n, rfl⟩ := Nat.exists_eq_succ_of_ne_zero (Nat.ne_zero_of_lt hn)
    obtain ⟨offset, s₁, hnext, h⟩ := Source.Stops.cons_iff.mp h
    simp only [read, next_on hnext]
    rw [ih h (Nat.lt_of_succ_lt_succ hn)]

/-- Under limits, what is met are the first of the tokens that the source inside brings. -/
theorem read_limited {l : Limits} {frames : List Frame} {s s₁ : Source} (h : s.Emits ts s₁)
    (hr : r.source = .limited l frames s) : (r.read ts.length).1 <+: ts := by
  rcases h.limited l frames with ⟨n, frames', -, he⟩ | ⟨n, f, -, hn, hs⟩
  · rw [← hr] at he
    rw [read_of_emits he]
  · rw [← hr] at hs
    rw [read_of_stops hs (by rw [List.length_take]; omega)]
    exact List.take_prefix n ts

/-- Skipping does what moving on `n` times does: if that succeeds, it ends with the same reader, and if
that fails, it fails alike, but for a clean end of the source, which is a torn one inside a value. -/
def SkipsLike (r : Reader) (n : Nat) : Prop :=
  ∀ ts failure r', r.read n = (ts, failure, r') →
    (failure = none → r.skip = (none, r')) ∧
    ∀ f, failure = some f → f ≠ .endOfStream (some .clean) → ∃ r'', r.skip = (some f, r'')

theorem report_whileSkipping {f : Failure} (h : report f ≠ .endOfStream (some .clean)) :
    report (Source.whileSkipping f) = report f := by
  cases f with
  | exhausted how =>
    cases how with
    | clean => exact absurd rfl h
    | torn => rfl
  | _ => rfl

/-- A proper beginning of the tokens after the first one of a value stands between the brackets. -/
theorem contents_of_length_lt {t : Tree} (h : ts <+: t.tail) (hl : ts.length < t.tail.length) :
    t.head.opens = true ∧ ts <+: t.contents := by
  have ho : t.head.opens = true := by
    by_contra hclosed
    simp [Tree.tail_eq_nil (Bool.eq_false_iff.mpr hclosed)] at hl
  rw [Tree.tail_eq ho] at h hl
  refine ⟨ho, (List.prefix_concat_iff.mp h).resolve_left ?_⟩
  rintro rfl
  exact lt_irrefl _ hl

theorem skipsLike_tree {t : Tree} (hc : r.current = some t.head)
    (ht : (r.read t.tail.length).1 <+: t.tail) : r.SkipsLike t.tail.length := by
  intro ts failure r' h
  simp only [h] at ht
  refine ⟨?_, ?_⟩
  · rintro rfl
    obtain ⟨s, he, hl, rfl⟩ := emits_of_read h
    rw [ht.eq_of_length hl] at he ⊢
    rw [skip_tree hc he, hc, t.getLast?_tail]
    rfl
  · rintro f rfl hf
    obtain ⟨g, hs, rfl, hl⟩ := stops_of_read h
    obtain ⟨ho, hcontents⟩ := contents_of_length_lt ht hl
    rw [← report_whileSkipping hf]
    exact skip_stops hc ho hcontents hs

theorem skip_of_key {name : Text} {t : Token} {s : Source} {offset : Int}
    (hc : r.current = some (.key name)) (hn : r.source.next = (.ok ⟨t, offset⟩, s))
    (ht : ∀ key, t ≠ .key key) : r.skip = (r.on s t).skip := by
  simp only [skip, hc, next_on hn]
  cases t with
  | key key => exact absurd rfl (ht key)
  | _ => rfl

theorem skipsLike_key {name : Text} {t : Tree} (hc : r.current = some (.key name))
    (ht : (r.read t.tokens.length).1 <+: t.tokens) : r.SkipsLike t.tokens.length := by
  intro ts failure r' h
  simp only [h] at ht
  refine ⟨?_, ?_⟩
  · rintro rfl
    obtain ⟨s, he, hl, rfl⟩ := emits_of_read h
    rw [ht.eq_of_length hl] at he ⊢
    rw [skip_key hc he, t.getLast?_tokens]
    rfl
  · rintro f rfl hf
    obtain ⟨g, hs, rfl, hl⟩ := stops_of_read h
    cases ts with
    | nil =>
      -- the value does not even begin
      obtain ⟨r₁, hn⟩ := next_stops hs
      exact ⟨r₁, by simp only [skip, hc, hn]⟩
    | cons u us =>
      obtain ⟨rfl, hus⟩ := List.cons_prefix_cons.mp ht
      obtain ⟨offset, s, hn, hinside⟩ := Source.Stops.cons_iff.mp hs
      obtain ⟨ho, hcontents⟩ := contents_of_length_lt hus (Nat.lt_of_succ_lt_succ hl)
      rw [skip_of_key hc hn (by cases t <;> simp [Tree.head]), ← report_whileSkipping hf]
      exact skip_stops rfl ho hcontents hinside

/-- **Skipping is reading through.** On the first token of a value, or on a key before one, skipping
has the same outcome as moving on to the last token of the value: the same reader, so with the same
kind and text and the same tokens to come, or the failure at which moving on stops, such as the refusal
of a token. On any other token skipping changes nothing. What the source brings need only begin like
the value: a source under limits that refuses a token inside brings no more. -/
theorem skip_reads_through (r : Reader) :
    (∀ t : Tree, r.current = some t.head → (r.read t.tail.length).1 <+: t.tail →
      r.SkipsLike t.tail.length) ∧
    (∀ (name : Text) (t : Tree), r.current = some (.key name) →
      (r.read t.tokens.length).1 <+: t.tokens → r.SkipsLike t.tokens.length) ∧
    ((∀ t, r.current = some t → t.opens = false ∧ ∀ name, t ≠ .key name) → r.skip = (none, r)) := by
  refine ⟨fun t => skipsLike_tree, fun name t => skipsLike_key, fun h => ?_⟩
  unfold skip skipValue
  cases hc : r.current with
  | none => rfl
  | some t =>
    obtain ⟨ho, hkey⟩ := h t hc
    cases t with
    | beginObject | beginArray => cases ho
    | key name => exact absurd rfl (hkey name)
    | _ => rfl

/-- A value that repeats a key, after an array. -/
def repeating : Tree := .object [("k", .array [.null]), ("k", .bool true)]

/-- A reader on the key before that value, which refuses what is repeated. -/
def beforeRepeating : Reader where
  source := .limited { rejectDuplicates := true } [.object [] ["x"] (some "x")]
    (.replay (repeating.tokens.map (⟨·, 0⟩)) 2)
  current := some (.key "x")

theorem skip_beforeRepeating :
    (beforeRepeating.read repeating.tokens.length).1 <+: repeating.tokens ∧
    (beforeRepeating.read repeating.tokens.length).2.1 = some (.duplicateKey "k" "/x/k") ∧
    ∃ r', beforeRepeating.skip = (some (.duplicateKey "k" "/x/k"), r') := by
  have hemits := Source.Emits.replay (repeating.tokens.map (⟨·, 0⟩)) [] 2
  have hread : (beforeRepeating.read repeating.tokens.length).1 <+: repeating.tokens :=
    read_limited hemits rfl
  have hfails : (beforeRepeating.read repeating.tokens.length).2.1 =
      some (.duplicateKey "k" "/x/k") := by decide +kernel
  obtain ⟨-, hkey, -⟩ := skip_reads_through beforeRepeating
  exact ⟨hread, hfails, (hkey "x" repeating rfl hread _ _ _ rfl).2 _ hfails (by simp)⟩

end Reader

end WireSchema
