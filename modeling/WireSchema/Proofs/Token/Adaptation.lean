import WireSchema.Proofs.Token.Answers

/-!
# Limits protect a hidden source as well

Limits are put on the source of a reader, or, where the source is hidden, around the reader as a
whole, so that its tokens and failures pass through an adapter. Both readers give the same replies to
any calls, as long as the source hands on no token of an unknown sort. The only trace of the adapter
is that a torn end of the stream may look like a clean one.

The sources of the two readers are `Twins` all along: the same limits with the same open containers
around the same source, with the adapter in between or without it.
-/

namespace WireSchema

namespace Source

/-- The source never hands on a token of an unknown sort. -/
def Known (s : Source) : Prop := ∀ n t, s.answer n = .ok t → ∀ code, t ≠ .unknown code

theorem Known.of_next {s s₁ : Source} {a : Except Failure Located} (h : s.Known)
    (hn : s.next = (a, s₁)) : s₁.Known := by
  intro n t ht
  rw [← answer_succ_of_next hn] at ht
  exact h (n + 1) t ht

theorem Known.adapt_eq {s s₁ : Source} {t : Located} (h : s.Known) (hn : s.next = (.ok t, s₁)) :
    adapt t.token = t.token := by
  have hu := h 0 t.token (answer_zero_of_ok hn)
  cases ht : t.token with
  | unknown code => exact absurd ht (hu code)
  | _ => rfl

theorem known_document {rest : List Located} (h : ∀ t ∈ rest, ∀ code, t.token ≠ .unknown code)
    (line : Int) (ending : Failure) : (document rest line ending).Known := by
  intro n
  induction n generalizing rest line with
  | zero =>
    intro t ht
    cases rest with
    | nil => cases ht
    | cons first rest =>
      obtain rfl : first.token = t := Except.ok.inj ht
      exact h first (by simp)
  | succ n ih =>
    cases rest with
    | nil => exact ih h line
    | cons first rest => exact ih (fun t ht => h t (by simp [ht])) first.offset

/-- The second failure is the first one as it looks through a reader. -/
def Near (f g : Failure) : Prop := g = f ∨ f = .exhausted .torn ∧ g = .exhausted .clean

theorem near_adaptFailure (f : Failure) : Near f (adaptFailure f) := by
  cases f with
  | exhausted how =>
    cases how with
    | clean => exact .inl rfl
    | torn => exact .inr ⟨rfl, rfl⟩
  | _ => exact .inl rfl

/-- Limits on a source, and the same limits on the source seen through a reader. -/
def Twins (l : Limits) (s s' : Source) : Prop :=
  ∃ frames inner, s = .limited l frames inner ∧ s' = .limited l frames (.adapted inner) ∧ inner.Known

namespace Twins

variable {l : Limits} {s s' : Source}

theorem size_eq (h : Twins l s s') : s'.size = s.size := by
  obtain ⟨frames, inner, rfl, rfl, -⟩ := h
  rfl

theorem cases (h : Twins l s s') :
    (∃ t offset offset' s₁ s₁', s.next = (.ok ⟨t, offset⟩, s₁) ∧ s'.next = (.ok ⟨t, offset'⟩, s₁') ∧
      Twins l s₁ s₁') ∨
    ∃ f g s₁ s₁', s.next = (.error f, s₁) ∧ s'.next = (.error g, s₁') ∧ Near f g ∧
      Twins l s₁ s₁' := by
  obtain ⟨frames, inner, rfl, rfl, hk⟩ := h
  rcases hn : inner.next with ⟨f | t, inner₁⟩
  · refine .inr ⟨f, adaptFailure f, _, _, ?_, ?_, near_adaptFailure f,
      frames, inner₁, rfl, rfl, hk.of_next hn⟩
    · simp only [next, hn]
    · simp only [next, hn]
  · have hadapt := hk.adapt_eq hn
    -- the limits see the same token on both sides, so they open, close and refuse the same
    rcases hstep : Enforce.step l frames t.token with ⟨frames₁, _ | f⟩
    · refine .inl ⟨t.token, t.offset, -1, _, _, ?_, ?_, frames₁, inner₁, rfl, rfl, hk.of_next hn⟩
      · simp only [next, hn, hstep]
      · simp only [next, hn, hadapt, hstep]
    · refine .inr ⟨f, f, _, _, ?_, ?_, .inl rfl, frames₁, inner₁, rfl, rfl, hk.of_next hn⟩
      · simp only [next, hn, hstep]
      · simp only [next, hn, hadapt, hstep]

/-- Skipping never tells a torn end from a clean one, so twins fail at it alike. -/
theorem skipLoop (fuel depth : Nat) (h : Twins l s s') :
    ∃ failure s₁ s₁', Source.skipLoop fuel depth s = (failure, s₁) ∧
      Source.skipLoop fuel depth s' = (failure, s₁') ∧ Twins l s₁ s₁' := by
  induction fuel generalizing depth s s' with
  | zero =>
    cases depth with
    | zero => exact ⟨none, s, s', rfl, rfl, h⟩
    | succ depth => exact ⟨some (.exhausted .torn), s, s', rfl, rfl, h⟩
  | succ fuel ih =>
    cases depth with
    | zero => exact ⟨none, s, s', rfl, rfl, h⟩
    | succ depth =>
      rcases h.cases with ⟨t, offset, offset', s₁, s₁', hn, hn', h₁⟩ |
        ⟨f, g, s₁, s₁', hn, hn', hfg, h₁⟩
      · rw [skipLoop_next hn, skipLoop_next hn']
        exact ih _ h₁
      · rcases hfg with rfl | ⟨rfl, rfl⟩
        · refine ⟨(Source.skipLoop (fuel + 1) (depth + 1) s).1, s₁, s₁', ?_, ?_, h₁⟩
          · rw [Source.skipLoop, hn]
            split <;> simp_all
          · rw [Source.skipLoop, Source.skipLoop, hn, hn']
            split <;> simp_all
        · refine ⟨some (.exhausted .torn), s₁, s₁', ?_, ?_, h₁⟩
          · rw [Source.skipLoop, hn]
          · rw [Source.skipLoop, hn']

end Twins

end Source

namespace Reader

/-! ## Calls -/

/-- What a reader can be asked to do. -/
inductive Call where
  | next
  | kind
  | text
  | skip
  deriving DecidableEq, Repr

/-- What it says then. -/
inductive Reply where
  | moved (result : Except Failure Token)
  | kind (kind : TokenKind)
  | text (text : Text)
  | skipped (failure : Option Failure)
  deriving Repr

def call (r : Reader) : Call → Reply × Reader
  | .next => (.moved r.next.1, r.next.2)
  | .kind => (.kind r.kind, r)
  | .text => (.text r.text, r)
  | .skip => (.skipped r.skip.1, r.skip.2)

/-- The replies to calls one after another, which go on after failures. -/
def replies : List Call → Reader → List Reply
  | [], _ => []
  | c :: calls, r => (r.call c).1 :: replies calls (r.call c).2

/-- The replies are the same, but that the end of a stream may be torn in the first and clean in the
second. -/
inductive Reply.Like : Reply → Reply → Prop
  | refl (reply : Reply) : Like reply reply
  | moved : Like (.moved (.error (.endOfStream (some .torn))))
      (.moved (.error (.endOfStream (some .clean))))
  | skipped : Like (.skipped (some (.endOfStream (some .torn))))
      (.skipped (some (.endOfStream (some .clean))))

/-! ## Twins -/

/-- Readers on the same token over twins. -/
def Twins (l : Limits) (r r' : Reader) : Prop :=
  r'.current = r.current ∧ Source.Twins l r.source r'.source

namespace Twins

variable {l : Limits} {r r' : Reader}

theorem cases (h : Twins l r r') :
    (∃ t r₁ r₁', r.next = (.ok t, r₁) ∧ r'.next = (.ok t, r₁') ∧ Twins l r₁ r₁') ∨
    ∃ f g r₁ r₁', r.next = (.error (report f), r₁) ∧ r'.next = (.error (report g), r₁') ∧
      Source.Near f g ∧ Twins l r₁ r₁' := by
  obtain ⟨hc, hs⟩ := h
  rcases hs.cases with ⟨t, offset, offset', s, s', hn, hn', hs⟩ | ⟨f, g, s, s', hn, hn', hfg, hs⟩
  · exact .inl ⟨t, r.on s t, r'.on s' t, next_on hn, next_on hn', rfl, hs⟩
  · refine .inr ⟨f, g, { r with source := s }, { r' with source := s' }, ?_, ?_, hfg, hc, hs⟩
    · rw [next, hn]
    · rw [next, hn']

theorem skipContainer (h : Twins l r r') (first last : Token) :
    ∃ failure r₁ r₁', r.skipContainer first last = (failure, r₁) ∧
      r'.skipContainer first last = (failure, r₁') ∧ Twins l r₁ r₁' := by
  obtain ⟨hc, hs⟩ := h
  obtain ⟨failure, s₁, s₁', h₁, h₁', ht⟩ : ∃ failure s₁ s₁',
      r.source.skipValue first = (failure, s₁) ∧ r'.source.skipValue first = (failure, s₁') ∧
      Source.Twins l s₁ s₁' := by
    unfold Source.skipValue
    rw [hs.size_eq]
    split
    · exact hs.skipLoop _ 1
    · exact ⟨none, _, _, rfl, rfl, hs⟩
  unfold Reader.skipContainer
  rw [h₁, h₁']
  cases failure with
  | none => exact ⟨none, _, _, rfl, rfl, rfl, ht⟩
  | some f => exact ⟨some (report f), _, _, rfl, rfl, hc, ht⟩

theorem skipValue (h : Twins l r r') :
    ∃ failure r₁ r₁', r.skipValue = (failure, r₁) ∧ r'.skipValue = (failure, r₁') ∧
      Twins l r₁ r₁' := by
  unfold Reader.skipValue
  rw [h.1]
  split
  · exact h.skipContainer _ _
  · exact h.skipContainer _ _
  · exact ⟨none, r, r', rfl, rfl, h⟩

theorem like_moved {f g : Failure} (h : Source.Near f g) :
    Reply.Like (.moved (.error (report f))) (.moved (.error (report g))) := by
  rcases h with rfl | ⟨rfl, rfl⟩
  · exact .refl _
  · exact .moved

theorem like_skipped {f g : Failure} (h : Source.Near f g) :
    Reply.Like (.skipped (some (report f))) (.skipped (some (report g))) := by
  rcases h with rfl | ⟨rfl, rfl⟩
  · exact .refl _
  · exact .skipped

theorem like_skip (h : Twins l r r') :
    Reply.Like (.skipped r.skip.1) (.skipped r'.skip.1) ∧ Twins l r.skip.2 r'.skip.2 := by
  unfold Reader.skip
  rw [h.1]
  split
  · -- on a key the next token is taken first, which is where the ends may differ
    rcases h.cases with ⟨t, r₁, r₁', hn, hn', h⟩ | ⟨f, g, r₁, r₁', hn, hn', hfg, h⟩
    · obtain ⟨failure, r₂, r₂', hs, hs', h⟩ := h.skipValue
      simp only [hn, hn', hs, hs']
      exact ⟨.refl _, h⟩
    · simp only [hn, hn']
      exact ⟨like_skipped hfg, h⟩
  · obtain ⟨failure, r₂, r₂', hs, hs', h⟩ := h.skipValue
    rw [hs, hs']
    exact ⟨.refl _, h⟩

/-- One call: the replies are alike and the readers stay twins. -/
theorem call (h : Twins l r r') (c : Call) :
    Reply.Like (r.call c).1 (r'.call c).1 ∧ Twins l (r.call c).2 (r'.call c).2 := by
  cases c with
  | next =>
    unfold Reader.call
    rcases h.cases with ⟨t, r₁, r₁', hn, hn', h⟩ | ⟨f, g, r₁, r₁', hn, hn', hfg, h⟩
    · rw [hn, hn']
      exact ⟨.refl _, h⟩
    · rw [hn, hn']
      exact ⟨like_moved hfg, h⟩
  | kind =>
    refine ⟨?_, h⟩
    simp only [Reader.call, Reader.kind, h.1]
    exact .refl _
  | text =>
    refine ⟨?_, h⟩
    simp only [Reader.call, Reader.text, h.1]
    exact .refl _
  | skip => exact h.like_skip

theorem replies (h : Twins l r r') (calls : List Call) :
    List.Forall₂ Reply.Like (Reader.replies calls r) (Reader.replies calls r') := by
  induction calls generalizing r r' with
  | nil => exact .nil
  | cons c calls ih =>
    obtain ⟨hreply, h⟩ := h.call c
    exact .cons hreply (ih h)

end Twins

theorem twins_enforce {l : Limits} (hl : l.enabled = true) {s : Source} (hs : s.Known) :
    Twins l (enforce l { source := s }) (enforce l { source := s, isForeign := true }) := by
  simp only [enforce, hl, Source.withLimits]
  exact ⟨rfl, [], s, rfl, rfl, hs⟩

/-- Limits give the same protection to a reader whose source is at hand and to one whose source is
hidden: whatever is called, also after failures, the replies are the same, but that a torn end of the
stream may look like a clean one. -/
theorem replies_enforce_foreign {l : Limits} (hl : l.enabled = true) {s : Source} (hs : s.Known)
    (calls : List Call) :
    List.Forall₂ Reply.Like (replies calls (enforce l { source := s }))
      (replies calls (enforce l { source := s, isForeign := true })) :=
  (twins_enforce hl hs).replies calls

/-- An object that is torn off after an array too deep. -/
def tornDocument : Source :=
  .document [⟨.beginObject, 1⟩, ⟨.key "a", 1⟩, ⟨.beginArray, 2⟩, ⟨.endArray, 2⟩, ⟨.key "a", 3⟩] 1
    (.exhausted .torn)

theorem replies_tornDocument :
    ({ maxDepth := 1, rejectDuplicates := true } : Limits).enabled = true ∧ tornDocument.Known ∧
    List.Forall₂ Reply.Like
      (replies [.next, .next, .skip, .kind, .text, .next, .next, .next]
        (enforce { maxDepth := 1, rejectDuplicates := true } { source := tornDocument }))
      (replies [.next, .next, .skip, .kind, .text, .next, .next, .next]
        (enforce { maxDepth := 1, rejectDuplicates := true }
          { source := tornDocument, isForeign := true })) := by
  have hknown : tornDocument.Known := Source.known_document (by simp) 1 _
  exact ⟨rfl, hknown, replies_enforce_foreign rfl hknown _⟩

end Reader

end WireSchema
