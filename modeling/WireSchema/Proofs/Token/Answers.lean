import WireSchema.Proofs.Token.Enforcement

/-!
# The answers of a source

A source can be asked for a token again and again, also after a failure. Its `answer`s are all it ever
says, places aside, and two sources agree if they have the same answers. Whatever is built on a source
without looking at places cannot tell agreeing sources apart: limits here, and readers with all that
reads through them.
-/

namespace WireSchema

namespace Source

/-- What the source says when it is asked for a token after `n` times before. -/
def answer : Nat → Source → Except Failure Token
  | 0, s => s.next.1.map (·.token)
  | n + 1, s => answer n s.next.2

def Agrees (s s' : Source) : Prop := ∀ n, s.answer n = s'.answer n

theorem answer_zero_of_ok {s s₁ : Source} {t : Located} (h : s.next = (.ok t, s₁)) :
    s.answer 0 = .ok t.token := by
  rw [answer, h]
  rfl

theorem answer_zero_of_error {s s₁ : Source} {f : Failure} (h : s.next = (.error f, s₁)) :
    s.answer 0 = .error f := by
  rw [answer, h]
  rfl

theorem answer_succ_of_next {s s₁ : Source} {a : Except Failure Located} (h : s.next = (a, s₁))
    (n : Nat) : s.answer (n + 1) = s₁.answer n := by
  rw [answer, h]

/-! ## Agreement -/

namespace Agrees

variable {s s' s₁ s₁' : Source}

/-- What agreeing sources do at a question: they hand on the same token, or fail alike, and agree
from then on. -/
theorem cases (h : s.Agrees s') :
    (∃ t offset offset' s₁ s₁', s.next = (.ok ⟨t, offset⟩, s₁) ∧ s'.next = (.ok ⟨t, offset'⟩, s₁') ∧
      s₁.Agrees s₁') ∨
    ∃ f s₁ s₁', s.next = (.error f, s₁) ∧ s'.next = (.error f, s₁') ∧ s₁.Agrees s₁' := by
  have hrest : s.next.2.Agrees s'.next.2 := fun n => h (n + 1)
  have hfirst := h 0
  rcases hn : s.next with ⟨f | ⟨t, offset⟩, s₁⟩ <;> rcases hn' : s'.next with ⟨f' | ⟨t', offset'⟩, s₁'⟩
  · rw [answer_zero_of_error hn, answer_zero_of_error hn'] at hfirst
    obtain rfl := Except.error.inj hfirst
    rw [hn, hn'] at hrest
    exact .inr ⟨f, s₁, s₁', rfl, rfl, hrest⟩
  · rw [answer_zero_of_error hn, answer_zero_of_ok hn'] at hfirst
    cases hfirst
  · rw [answer_zero_of_ok hn, answer_zero_of_error hn'] at hfirst
    cases hfirst
  · rw [answer_zero_of_ok hn, answer_zero_of_ok hn'] at hfirst
    obtain rfl : t = t' := Except.ok.inj hfirst
    rw [hn, hn'] at hrest
    exact .inl ⟨t, offset, offset', s₁, s₁', rfl, rfl, hrest⟩

theorem ok {t : Token} {offset offset' : Int} (hn : s.next = (.ok ⟨t, offset⟩, s₁))
    (hn' : s'.next = (.ok ⟨t, offset'⟩, s₁')) (h : s₁.Agrees s₁') : s.Agrees s' := by
  intro n
  cases n with
  | zero => rw [answer_zero_of_ok hn, answer_zero_of_ok hn']
  | succ n => rw [answer_succ_of_next hn, answer_succ_of_next hn', h n]

theorem of_emits {ts : List Token} (hs : s.Emits ts s₁) (hs' : s'.Emits ts s₁')
    (h : s₁.Agrees s₁') : s.Agrees s' := by
  induction ts generalizing s s' with
  | nil =>
    obtain rfl := Emits.nil_iff.mp hs
    obtain rfl := Emits.nil_iff.mp hs'
    exact h
  | cons t ts ih =>
    obtain ⟨offset, s₂, hn, hs⟩ := Emits.cons_iff.mp hs
    obtain ⟨offset', s₂', hn', hs'⟩ := Emits.cons_iff.mp hs'
    exact ok hn hn' (ih hs hs')

theorem limited (h : s.Agrees s') (l : Limits) (frames : List Frame) :
    (Source.limited l frames s).Agrees (.limited l frames s') := by
  intro n
  induction n generalizing s s' frames with
  | zero =>
    rcases h.cases with ⟨t, offset, offset', s₁, s₁', hn, hn', -⟩ | ⟨f, s₁, s₁', hn, hn', -⟩
    · simp only [answer, next, hn, hn']
      rcases Enforce.step l frames t with ⟨frames, _ | f⟩ <;> rfl
    · simp only [answer, next, hn, hn']
  | succ n ih =>
    rcases h.cases with ⟨t, offset, offset', s₁, s₁', hn, hn', h⟩ | ⟨f, s₁, s₁', hn, hn', h⟩
    · simp only [answer, next, hn, hn']
      rcases Enforce.step l frames t with ⟨frames, _ | f⟩ <;> exact ih h frames
    · simp only [answer, next, hn, hn']
      exact ih h frames

theorem withLimits (h : s.Agrees s') (l : Limits) : (s.withLimits l).Agrees (s'.withLimits l) := by
  unfold Source.withLimits
  split
  · exact h.limited l []
  · exact h

end Agrees

/-! ## The end -/

/-- The source fails now and whenever it is asked again, always in the same way. -/
def Ended (s : Source) (f : Failure) : Prop := ∀ n, s.answer n = .error f

namespace Ended

variable {s s' s₁ : Source} {f : Failure}

/-- A failure that leaves the source as it was comes again and again. -/
theorem of_next (h : s.next = (.error f, s₁)) (h₁ : s₁.next = (.error f, s₁)) : s.Ended f := by
  have hfixed (n : Nat) : s₁.answer n = .error f := by
    induction n with
    | zero => exact answer_zero_of_error h₁
    | succ n ih => rw [answer_succ_of_next h₁, ih]
  intro n
  cases n with
  | zero => exact answer_zero_of_error h
  | succ n => rw [answer_succ_of_next h, hfixed]

theorem agrees (h : s.Ended f) (h' : s'.Ended f) : s.Agrees s' := fun n => by rw [h n, h' n]

theorem next (h : s.Ended f) : ∃ s₁, s.next = (.error f, s₁) := by
  have h₀ := h 0
  rcases hn : s.next with ⟨f' | t, s₁⟩
  · rw [answer_zero_of_error hn] at h₀
    obtain rfl := Except.error.inj h₀
    exact ⟨s₁, rfl⟩
  · rw [answer_zero_of_ok hn] at h₀
    cases h₀

end Ended

/-! ## Draining -/

theorem Emits.drainLoop {s s₁ s₂ : Source} {ts : List Token} {f : Failure} (h : s.Emits ts s₁)
    (hn : s₁.next = (.error f, s₂)) {fuel : Nat} (hf : ts.length < fuel) :
    ∃ located, Source.drainLoop fuel [] s = (located, f, s₂) ∧ located.map (·.token) = ts := by
  induction h generalizing fuel with
  | nil =>
    obtain ⟨fuel, rfl⟩ := Nat.exists_eq_succ_of_ne_zero (Nat.ne_of_gt hf)
    exact ⟨[], Enforce.drainLoop_error hn, rfl⟩
  | @cons s s₃ _ t ts ht _ ih =>
    obtain ⟨fuel, rfl⟩ := Nat.exists_eq_succ_of_ne_zero (Nat.ne_zero_of_lt hf)
    obtain ⟨located, hd, hmap⟩ := ih hn (Nat.lt_of_succ_lt_succ hf)
    refine ⟨t :: located, ?_, by rw [List.map_cons, hmap]⟩
    rw [Enforce.drainLoop_ok ht, hd]

theorem Emits.drain {s s₁ s₂ : Source} {ts : List Token} {f : Failure} (h : s.Emits ts s₁)
    (hn : s₁.next = (.error f, s₂)) :
    ∃ located, s.drain = (located, f, s₂) ∧ located.map (·.token) = ts := by
  have hsize := h.length_le
  exact h.drainLoop hn (by omega)

end Source

end WireSchema
