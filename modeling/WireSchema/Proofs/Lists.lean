import Mathlib.Data.List.Forall2
import Mathlib.Data.List.Induction
import Mathlib.Data.List.Nodup
import Mathlib.Order.Lattice

/-!
# Lists and outcomes

General facts on lists, options and outcomes.
-/

namespace WireSchema

variable {α β ε ε' : Type}

/-! ## Splits -/

theorem split_cons {xs ys before after : List α} {a : α}
    (h : xs ++ ys = before ++ a :: after) :
    (∃ more, xs = before ++ a :: more ∧ after = more ++ ys) ∨
      ∃ more, before = xs ++ more ∧ ys = more ++ a :: after := by
  rcases List.append_eq_append_iff.mp h with ⟨more, rfl, rfl⟩ | ⟨more, rfl, htail⟩
  · exact .inr ⟨more, rfl, rfl⟩
  · cases more with
    | nil => exact .inr ⟨[], by simp, by simpa using htail.symm⟩
    | cons b more =>
      obtain ⟨rfl, rfl⟩ := List.cons.inj htail
      exact .inl ⟨more, rfl, rfl⟩

theorem split_of_ne {ts before after : List α} {first a : α}
    (h : first :: ts = before ++ a :: after) (hne : first ≠ a) :
    ∃ more, before = first :: more ∧ ts = more ++ a :: after := by
  cases before with
  | nil => exact absurd (List.cons.inj h).1 hne
  | cons b before =>
    obtain ⟨rfl, rfl⟩ := List.cons.inj h
    exact ⟨before, rfl, rfl⟩

theorem split_concat_of_ne {ts before after : List α} {a last : α}
    (h : ts ++ [last] = before ++ a :: after) (hne : last ≠ a) :
    ∃ more, ts = before ++ a :: more ∧ after = more ++ [last] := by
  rcases split_cons h with hinside | ⟨more, -, hlast⟩
  · exact hinside
  · obtain ⟨more, -, hmore⟩ := split_of_ne hlast hne
    simp at hmore

theorem eq_of_singleton_eq_append {last a : α} {before after : List α}
    (h : [last] = before ++ a :: after) : a = last := by
  have hmem : a ∈ [last] := by simp [h]
  exact List.mem_singleton.mp hmem

/-! ## First occurrences -/

section FirstOccurrences

variable {r : α → α → Bool}

theorem eraseDupsBy_concat (r : α → α → Bool) (l : List α) (a : α) :
    (l ++ [a]).eraseDupsBy r =
      if (l.eraseDupsBy r).any (r a) then l.eraseDupsBy r else l.eraseDupsBy r ++ [a] := by
  have hloop (l acc : List α) : List.eraseDupsBy.loop r (l ++ [a]) acc =
      if (List.eraseDupsBy.loop r l acc).any (r a) then List.eraseDupsBy.loop r l acc
      else List.eraseDupsBy.loop r l acc ++ [a] := by
    induction l generalizing acc with
    | nil => cases h : acc.any (r a) <;> simp [List.eraseDupsBy.loop, h]
    | cons b l ih => cases h : acc.any (r b) <;> simp [List.eraseDupsBy.loop, h, ih]
  exact hloop l []

theorem mem_of_mem_eraseDupsBy {l : List α} {a : α}
    (h : a ∈ l.eraseDupsBy r) : a ∈ l := by
  induction l using List.reverseRecOn with
  | nil => simp at h
  | append_singleton l b ih =>
    rw [eraseDupsBy_concat] at h
    split at h
    · exact List.mem_append_left _ (ih h)
    · rw [List.mem_append] at h ⊢
      exact h.imp_left ih

theorem exists_mem_eraseDupsBy (hr : ∀ a, r a a = true) {l : List α} {a : α} (h : a ∈ l) :
    ∃ b ∈ l.eraseDupsBy r, r a b = true := by
  induction l using List.reverseRecOn with
  | nil => simp at h
  | append_singleton l c ih =>
    rw [eraseDupsBy_concat]
    rcases List.mem_append.mp h with h | h
    · obtain ⟨b, hb, hab⟩ := ih h
      split
      · exact ⟨b, hb, hab⟩
      · exact ⟨b, List.mem_append_left _ hb, hab⟩
    · obtain rfl : a = c := by simpa using h
      split
      · rename_i hany
        exact List.any_eq_true.mp hany
      · exact ⟨a, by simp, hr a⟩

/-- Elements that are taken for each other are kept or dropped by the filter together. -/
theorem filter_eraseDupsBy {q : α → Bool} {l : List α}
    (hq : ∀ a ∈ l, ∀ b ∈ l, r a b = true → q a = q b) :
    (l.eraseDupsBy r).filter q = (l.filter q).eraseDupsBy r := by
  induction l using List.reverseRecOn with
  | nil => rfl
  | append_singleton l a ih =>
    have ih := ih fun b hb c hc => hq b (by simp [hb]) c (by simp [hc])
    have hmem (b : α) (hb : b ∈ l.eraseDupsBy r) (hab : r a b = true) : q a = q b :=
      hq a (by simp) b (by simp [mem_of_mem_eraseDupsBy hb]) hab
    rw [eraseDupsBy_concat, List.filter_append]
    cases ha : q a with
    | false =>
      have hnil : [a].filter q = [] := by simp [ha]
      rw [hnil, List.append_nil, ← ih]
      split
      · rfl
      · rw [List.filter_append, hnil, List.append_nil]
    | true =>
      have hsingle : [a].filter q = [a] := by simp [ha]
      have hany : ((l.filter q).eraseDupsBy r).any (r a) = (l.eraseDupsBy r).any (r a) := by
        rw [← ih, List.any_filter, Bool.eq_iff_iff, List.any_eq_true, List.any_eq_true]
        refine exists_congr fun b => and_congr_right fun hb => ?_
        rw [Bool.and_eq_true, and_iff_right_iff_imp]
        exact fun hab => (hmem b hb hab).symm.trans ha
      rw [hsingle, eraseDupsBy_concat, hany]
      split
      · exact ih
      · rw [List.filter_append, hsingle, ih]

theorem eraseDupsBy_append {l l' : List α}
    (h : (l.eraseDupsBy r ++ l').Pairwise fun a b => ¬r b a = true) :
    (l ++ l').eraseDupsBy r = l.eraseDupsBy r ++ l' := by
  induction l' using List.reverseRecOn with
  | nil => simp
  | append_singleton l' a ih =>
    rw [← List.append_assoc] at h ⊢
    obtain ⟨hinit, -, hlast⟩ := List.pairwise_append.mp h
    rw [eraseDupsBy_concat, ih hinit, if_neg, List.append_assoc]
    rw [List.any_eq_true]
    rintro ⟨b, hb, hab⟩
    exact hlast b hb a (by simp) hab

end FirstOccurrences

/-! ## Entries of two lists -/

theorem getElem?_of_forall₂ {R : α → β → Prop} {l : List α} {l' : List β}
    (h : List.Forall₂ R l l') {k : Nat} {x : α} (hx : l[k]? = some x) :
    ∃ y, l'[k]? = some y ∧ R x y := by
  induction h generalizing k with
  | nil => simp at hx
  | @cons x₀ y₀ l l' hxy _ ih =>
    cases k with
    | zero =>
      obtain rfl : x₀ = x := by simpa using hx
      exact ⟨y₀, rfl, hxy⟩
    | succ k => exact ih (by simpa using hx)

theorem exists_forall₂ {R : α → β → Prop} {l : List β} (h : ∀ b ∈ l, ∃ a, R a b) :
    ∃ l', List.Forall₂ R l' l := by
  induction l with
  | nil => exact ⟨[], .nil⟩
  | cons b l ih =>
    obtain ⟨a, hab⟩ := h b (by simp)
    obtain ⟨l', hl'⟩ := ih fun c hc => h c (by simp [hc])
    exact ⟨a :: l', .cons hab hl'⟩

/-! ## Maps and folds -/

theorem mapM_eq_map {f : α → Option β} {g : α → β} {l : List α} (h : ∀ a ∈ l, f a = some (g a)) :
    l.mapM f = some (l.map g) := by
  induction l with
  | nil => rfl
  | cons a l ih =>
    rw [List.mapM_cons, h a (by simp), ih fun b hb => h b (by simp [hb])]
    rfl

theorem mapM_eq_filterMap {f : α → Option β} {l : List α} (h : ∀ a ∈ l, (f a).isSome) :
    l.mapM f = some (l.filterMap f) := by
  induction l with
  | nil => rfl
  | cons a l ih =>
    obtain ⟨b, hb⟩ := Option.isSome_iff_exists.mp (h a (by simp))
    rw [List.mapM_cons, List.filterMap_cons, hb, ih fun c hc => h c (by simp [hc])]
    rfl

theorem flatten_map_ite (p : α → Bool) (g : α → List β) (l : List α) :
    (l.map fun a => if p a then g a else []).flatten = (l.filter p).flatMap g := by
  induction l with
  | nil => rfl
  | cons a l ih => cases h : p a <;> simp [h, ih]

theorem flatMap_eq_of_nodup {κ : Type} {key : α → κ} {l : List α} {f : α → List β} {a : α}
    (hl : (l.map key).Nodup) (ha : a ∈ l) (h : ∀ b, key b ≠ key a → f b = []) :
    l.flatMap f = f a := by
  obtain ⟨s, t, rfl⟩ := List.append_of_mem ha
  rw [List.map_append, List.map_cons, List.nodup_middle, List.nodup_cons, List.mem_append,
    not_or] at hl
  have hs : s.flatMap f = [] := List.flatMap_eq_nil_iff.mpr fun b hb =>
    h b fun heq => hl.1.1 (heq ▸ List.mem_map_of_mem hb)
  have ht : t.flatMap f = [] := List.flatMap_eq_nil_iff.mpr fun b hb =>
    h b fun heq => hl.1.2 (heq ▸ List.mem_map_of_mem hb)
  rw [List.flatMap_append, List.flatMap_cons, hs, ht, List.nil_append, List.append_nil]

theorem le_foldl_max (g : α → Nat) (l : List α) (n : Nat) :
    n ≤ l.foldl (fun w a => max w (g a)) n ∧ ∀ a ∈ l, g a ≤ l.foldl (fun w a => max w (g a)) n := by
  induction l generalizing n with
  | nil => simp
  | cons a l ih =>
    obtain ⟨hn, hl⟩ := ih (max n (g a))
    rw [List.foldl_cons, List.forall_mem_cons]
    exact ⟨le_trans (le_max_left _ _) hn, le_trans (le_max_right _ _) hn, hl⟩

theorem getD_map_false (f : α → Bool) (a? : Option α) :
    (a?.map f).getD false = true ↔ ∃ a ∈ a?, f a = true := by
  cases a? <;> simp

/-! ## Outcomes -/

theorem bind_eq_ok_iff {x : Except ε α} {f : α → Except ε β} {b : β} :
    x >>= f = .ok b ↔ ∃ a, x = .ok a ∧ f a = .ok b := by
  cases x <;> simp [bind, Except.bind]

theorem mapError_eq_ok_iff {x : Except ε α} {f : ε → ε'} {a : α} :
    x.mapError f = .ok a ↔ x = .ok a := by
  cases x <;> simp [Except.mapError]

end WireSchema
