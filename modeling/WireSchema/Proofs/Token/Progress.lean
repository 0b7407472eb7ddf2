import Mathlib.Data.Int.Order.Basic
import Mathlib.Tactic.SplitIfs
import WireSchema.Token.Source

/-!
# Progress of token sources

Every token a source hands on costs it at least one unit of `Source.size`: a byte of the text, or one
of the tokens it holds. Loops over a source that are given `size` steps therefore never run out of
them before the source does.
-/

namespace WireSchema

namespace Json.Lenient

theorem length_of_scanWord {token t : Token} {letters rest after : Text} {atEnd met : Bool}
    (h : scanWord token letters rest atEnd = (.ok t, after, met)) : after.length ≤ rest.length := by
  fun_induction scanWord token letters rest atEnd with
  | case1 rest atEnd => simp only [Prod.mk.injEq] at h; simp [h.2.1]
  | case2 => simp at h
  | case3 _ letters atEnd _ ih => exact ih h
  | case4 l letters b rest atEnd _ ih => have := ih h; simp only [List.length_cons]; omega
  | case5 l letters b rest atEnd _ _ ih => have := ih h; simp only [List.length_cons]; omega
  | case6 => simp at h

theorem length_of_scanString {seen t s after : Text} {met : Bool}
    (h : scanString seen t = (.ok s, after, met)) : after.length < t.length := by
  fun_induction scanString seen t with
  | case1 => simp at h
  | case2 => simp at h
  | case3 seen b rest _ _ => simp only [Prod.mk.injEq] at h; simp [h.2.1]
  | case4 => simp at h
  | case5 seen b _ _ _ c after' _ ch after'' hs ih =>
    have := ih h
    have := length_of_scanUnit? hs
    simp only [List.length_cons]; omega
  | case6 => simp at h
  | case7 seen b _ _ _ c after' _ x hx ih => have := ih h; simp only [List.length_cons]; omega
  | case8 => simp at h
  | case9 seen b rest _ _ _ _ ih => have := ih h; simp only [List.length_cons]; omega
  | case10 seen b rest _ _ _ _ ch after' hm ih =>
    have := ih h
    have := Text.length_of_multibyte? hm
    simp only [List.length_cons]; omega
  | case11 seen b rest _ _ _ _ hm ih => have := ih h; simp only [List.length_cons]; omega

theorem length_of_scan {atEnd met : Bool} {t after : Text} {token : Token}
    (h : scan atEnd t = (.ok token, after, met)) : after.length < t.length := by
  fun_induction scan atEnd t with
  | case1 => simp at h
  | case2 b rest _ ih => have := ih h; simp only [List.length_cons]; omega
  | case3 b rest | case4 b rest | case5 b rest | case6 b rest =>
    simp only [Prod.mk.injEq] at h
    simp [h.2.1]
  | case7 b rest =>
    simp only [Prod.mk.injEq] at h
    have := (List.dropWhile_suffix inNumber (l := rest)).length_le
    simp only [← h.2.1, List.length_cons]; omega
  | case8 b rest _ _ _ _ _ _ _ r after' met' hs =>
    simp only [Prod.mk.injEq] at h
    obtain ⟨hr, rfl, _⟩ := h
    cases r with
    | error f => simp [Except.map] at hr
    | ok s => have := length_of_scanString hs; simp only [List.length_cons]; omega
  | case9 b rest | case10 b rest | case11 b rest =>
    have := length_of_scanWord h
    simp only [List.length_cons]; omega
  | case12 => simp at h
  | case13 => simp at h

theorem length_of_next {s s' : Lenient} {t : Token} (h : s.next = (.ok t, s')) :
    s'.rest.length < s.rest.length := by
  unfold next at h
  split at h
  · simp at h
  · rename_i token rest atEnd hs
    simp only [Prod.mk.injEq] at h
    rw [← h.2]
    exact length_of_scan hs

end Json.Lenient

namespace Json.Strict

theorem length_of_scanWord {token t : Token} {letters rest after : Text}
    (h : scanWord token letters rest = .done t after) : after.length ≤ rest.length := by
  fun_induction scanWord token letters rest with
  | case1 rest => simp only [Scan.done.injEq] at h; simp [h.2]
  | case2 => simp at h
  | case3 l letters b rest _ ih => have := ih h; simp only [List.length_cons]; omega
  | case4 => simp at h

theorem length_of_scanNumber {s : NumberState} {seen rest after : Text} {t : Token}
    (h : scanNumber s seen rest = .done t after) : after.length ≤ rest.length := by
  fun_induction scanNumber s seen rest with
  | case1 => simp only [Scan.done.injEq] at h; simp [← h.2]
  | case2 => simp at h
  | case3 s seen b rest s' hs ih => have := ih h; simp only [List.length_cons]; omega
  | case4 => simp only [Scan.done.injEq] at h; simp [← h.2]
  | case5 => simp at h

theorem length_of_scanString {seen t s after : Text} (h : scanString seen t = .done s after) :
    after.length < t.length := by
  fun_induction scanString seen t with
  | case1 => simp at h
  | case2 seen b rest => simp only [Scan.done.injEq] at h; simp [h.2]
  | case3 => simp at h
  | case4 => simp at h
  | case5 => simp at h
  | case6 seen b _ _ c after _ high after' hu ch after'' hl ih =>
    have := ih h
    have := length_of_scanUnit hu
    have := length_of_lowUnit? hl
    simp only [List.length_cons]; omega
  | case7 seen b _ _ c after _ high after' hu _ ih =>
    have := ih h
    have := length_of_scanUnit hu
    simp only [List.length_cons]; omega
  | case8 seen b _ _ c after _ x _ ih => have := ih h; simp only [List.length_cons]; omega
  | case9 => simp at h
  | case10 => simp at h
  | case11 seen b rest _ _ _ _ ih => have := ih h; simp only [List.length_cons]; omega
  | case12 seen b rest _ _ _ _ ch after' hm ih =>
    have := ih h
    have := Text.length_of_multibyte? hm
    simp only [List.length_cons]; omega
  | case13 seen b rest _ _ _ _ _ ih => have := ih h; simp only [List.length_cons]; omega

theorem length_of_scanScalar {b : UInt8} {rest after : Text} {t : Token}
    (h : scanScalar b rest = .done t after) : after.length ≤ rest.length := by
  unfold scanScalar at h
  split_ifs at h
  · split at h
    · rename_i hs
      simp only [Scan.done.injEq] at h
      have := length_of_scanString hs
      rw [← h.2]; omega
    · simp at h
    · simp at h
  · exact length_of_scanNumber h
  · exact length_of_scanNumber h
  · exact length_of_scanNumber h
  · exact length_of_scanWord h
  · exact length_of_scanWord h
  · exact length_of_scanWord h

theorem length_of_scalar {s s' : Strict} {b : UInt8} {rest : Text} {e : Expectation} {t : Token}
    (h : s.scalar b rest e = (.ok t, s')) : s'.rest.length ≤ rest.length := by
  unfold scalar at h
  split at h
  · simp at h
  · split at h
    · simp [halt] at h
    · simp [halt] at h
    · rename_i token after hs
      split at h
      · simp [halt] at h
      · simp only [emit, Prod.mk.injEq] at h
        rw [← h.2]
        exact length_of_scanScalar hs

@[simp]
theorem refuse_ne_ok (s s' : Strict) (b : UInt8) (t : Token) : s.refuse b ≠ (.ok t, s') := by
  simp [refuse]

theorem rest_of_close {s s' : Strict} {b : UInt8} {token t : Token} {rest : Text}
    (h : s.close b token rest = (.ok t, s')) : s'.rest = rest := by
  unfold close at h
  split at h
  · simp at h
  · simp only [emit, Prod.mk.injEq] at h
    rw [← h.2]

theorem length_of_tokenAt {s s' : Strict} {b : UInt8} {rest : Text} {t : Token}
    (h : s.tokenAt b rest = (.ok t, s')) : s'.rest.length ≤ rest.length := by
  revert h
  fun_cases tokenAt s b rest with
  | case1 | case3 => intro h; simp only [emit, Prod.mk.injEq] at h; simp [← h.2]
  | case5 | case7 => intro h; simp [rest_of_close h]
  | case9 | case10 => exact length_of_scalar
  | case2 | case4 | case6 | case8 | case11 => simp

theorem length_of_blanks {s : Strict} {b : UInt8} {rest : Text}
    (h : s.skipBlanks.rest.dropWhile isBlank = b :: rest) : rest.length < s.rest.length := by
  have h₁ : s.skipBlanks.rest.length ≤ s.rest.length := by
    unfold skipBlanks
    simp only
    split_ifs
    · exact Nat.le_refl _
    · exact (List.dropWhile_suffix isBlank (l := s.rest)).length_le
  have h₂ := (List.dropWhile_suffix isBlank (l := s.skipBlanks.rest)).length_le
  rw [h, List.length_cons] at h₂
  omega

theorem length_of_next {s s' : Strict} {t : Token} (h : s.next = (.ok t, s')) :
    s'.rest.length < s.rest.length := by
  unfold next at h
  simp only at h
  split at h
  · simp at h
  · rename_i b rest hb
    have h₁ := length_of_blanks hb
    split_ifs at h
    · split at h
      · simp at h
      · split at h
        · simp at h
        · rename_i expect _ b' rest' hb'
          have h₂ := length_of_blanks hb'
          split_ifs at h
          · simp at h
          · have h₃ := length_of_tokenAt h
            simp only at h₂
            omega
    · have h₂ := length_of_tokenAt h
      omega

end Json.Strict

namespace Source

/-- A token that a source hands on makes it smaller. -/
theorem size_of_next {s s' : Source} {t : Located} (h : s.next = (.ok t, s')) :
    s'.size < s.size := by
  induction s generalizing t s' with
  | lenient s =>
    simp only [next] at h
    split at h
    · rename_i hs
      simp only [Prod.mk.injEq] at h
      rw [← h.2]
      exact Json.Lenient.length_of_next hs
    · simp at h
  | strict s =>
    simp only [next] at h
    split at h
    · rename_i hs
      simp only [Prod.mk.injEq] at h
      rw [← h.2]
      exact Json.Strict.length_of_next hs
    · simp at h
  | replay rest taken =>
    cases rest with
    | nil => simp [next] at h
    | cons t rest => simp only [next, Prod.mk.injEq] at h; simp [← h.2, size]
  | document rest line ending =>
    cases rest with
    | nil => simp [next] at h
    | cons t rest => simp only [next, Prod.mk.injEq] at h; simp [← h.2, size]
  | limited limits frames inner ih =>
    simp only [next] at h
    split at h
    · simp at h
    · rename_i t₁ inner' hi
      split at h
      · simp at h
      · simp only [Prod.mk.injEq] at h
        rw [← h.2]
        exact (ih hi : inner'.size < inner.size)
  | adapted inner ih =>
    simp only [next] at h
    split at h
    · rename_i t₁ inner' hi
      simp only [Prod.mk.injEq] at h
      rw [← h.2]
      exact (ih hi : inner'.size < inner.size)
    · simp at h

end Source

end WireSchema
