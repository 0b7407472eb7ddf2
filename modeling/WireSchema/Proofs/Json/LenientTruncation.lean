import Mathlib.Data.FinEnum
import Mathlib.Data.List.TakeWhile
import WireSchema.Proofs.Json.LenientReading
import WireSchema.Proofs.Token.Stopping

/-!
# Cut texts, read leniently

Reading the beginning of a text, compared with reading all of it. As long as tokens end before the cut
they are the same. A string that is cut is none, but a number may go on after the cut, and the lenient
reader takes a word for complete that lacks its last letter; after such a token nothing is left.
-/

namespace WireSchema

theorem Text.multibyte?_append_of_some {b : UInt8} {t r : Text} {c : Char}
    (h : multibyte? b t = some (c, r)) (q : Text) : multibyte? b (t ++ q) = some (c, r ++ q) := by
  have hsound := multibyte?_sound h
  have hlength := length_of_multibyte? h
  rcases utf8_cases c with ⟨b', he, -, -⟩ | ⟨b', tail, he, -, hm⟩
  · rw [he] at hsound
    obtain ⟨rfl, rfl⟩ := List.cons.inj hsound
    simp at hlength
  · rw [he] at hsound
    obtain ⟨rfl, ht⟩ := List.cons.inj hsound
    have ht : t = tail ++ r := ht
    rw [ht, List.append_assoc]
    exact hm (r ++ q)

/-- If a quote is to come, then what follows the text does not make a character of a stray byte. -/
theorem Text.multibyte?_append_of_quote {b : UInt8} {t : Text} (h : multibyte? b t = none)
    (hquote : 0x22 ∈ t) (q : Text) : multibyte? b (t ++ q) = none := by
  obtain ⟨x, r, rfl⟩ := List.append_of_mem hquote
  have hx : multibyte? b x = none := by
    cases hx : multibyte? b x with
    | none => rfl
    | some step =>
      rw [multibyte?_append_of_some hx] at h
      cases h
  rw [List.append_assoc, List.cons_append]
  exact multibyte?_append_of_none hx (by decide) (r ++ q)

namespace Json

/-! ## Cuts between two tokens -/

/-- The text is made of whole tokens, with blanks and separators among them, where it goes on with
`q`: the last token does not go on there. -/
inductive Between (q : Text) : Text → Prop
  | nil : Between q []
  | gap {b : UInt8} {p : Text} : Lenient.isSkipped b = true → Between q p → Between q (b :: p)
  | bracket {b : UInt8} {p : Text} : b ∈ [0x7B, 0x7D, 0x5B, 0x5D] → Between q p → Between q (b :: p)
  | scalar {x p : Text} {t : Tree} : t.tail = [] → t.Spells x → Lenient.Ends (p ++ q) →
      Between q p → Between q (x ++ p)

/-- What may be handed on in place of a token that is cut: the token itself, or a number that is
shorter. -/
def Resembles (t u : Token) : Prop :=
  u = t ∧ t.closes = false ∨ ∃ x y, t = .number x ∧ u = .number y

theorem Resembles.take {t u : Token} (h : Resembles t u) (n : Nesting) :
    Resembles (n.take t).2 (n.take u).2 := by
  rcases h with ⟨rfl, hcloses⟩ | ⟨x, y, rfl, rfl⟩
  · refine .inl ⟨rfl, ?_⟩
    cases u with
    | string s =>
      rcases n with _ | ⟨_ | _ | _, n⟩ <;> rfl
    | endObject => cases hcloses
    | endArray => cases hcloses
    | _ => rfl
  · exact .inr ⟨x, y, rfl, rfl⟩

/-- The second source is cut off with respect to the first one. If the cut is a tight one, then it ends
cleanly and hands on no token in place of another. -/
def Trails (tight : Prop) (R : Source → Source → Prop) : Prop :=
  ∀ {s s' s₁ : Source} {t : Located}, R s s' → s.next = (.ok t, s₁) →
    Source.Cuts R (fun f => tight → f = .exhausted .clean) (fun t u => ¬tight ∧ Resembles t u)
      t.token s₁ s'

theorem rel_ite {α : Type} {r : α → α → Prop} {c : Prop} [Decidable c] {a b a' b' : α}
    (h : c → r a b) (h' : ¬c → r a' b') : r (if c then a else a') (if c then b else b') := by
  split_ifs with hc
  · exact h hc
  · exact h' hc

/-! ## Strings -/

namespace Lenient

/-- Where the text is read as a string, there are four digits and more after a backslash and a `u`. -/
theorem cons_of_scanUnit? {x after : Text} {c : Char} (h : scanUnit? x = some (c, after)) :
    ∃ i j k l rest, x = i :: j :: k :: l :: rest ∧ rest ≠ [] := by
  unfold scanUnit? at h
  split at h
  · split at h
    · cases h
    · rename_i hne
      exact ⟨_, _, _, _, _, rfl, by simpa using hne⟩
  · cases h

theorem suffix_of_scanUnit? {x after : Text} {c : Char} (h : scanUnit? x = some (c, after)) :
    after <:+ x := by
  obtain ⟨i, j, k, l, rest, rfl, hne⟩ := cons_of_scanUnit? h
  have hsub : rest <:+ i :: j :: k :: l :: rest := ⟨[i, j, k, l], rfl⟩
  simp only [scanUnit?] at h
  rw [if_neg (by simpa using hne)] at h
  split at h
  · split at h
    · split at h
      · cases h
        exact hsub
      · cases h
        exact .trans ⟨[_, _, _, _, _, _], rfl⟩ hsub
    · cases h
      exact hsub
  · cases h
    exact hsub

theorem quote_of_scanString {seen x s after : Text} {e : Bool}
    (h : scanString seen x = (.ok s, after, e)) : 0x22 ∈ x := by
  fun_induction scanString seen x with
  | case3 seen b rest h0 hq =>
    simp [beq_iff_eq.mp hq]
  | case5 seen b h0 hq hs c after₀ hc ch after' hu ih =>
    have hmem := (suffix_of_scanUnit? hu).subset (ih h)
    simp [hmem]
  | case7 seen b h0 hq hs c after₀ hc x hx ih =>
    simp [ih h]
  | case9 seen b rest h0 hq hs hb ih => simp [ih h]
  | case10 seen b rest h0 hq hs hb ch after' hm ih =>
    have hsound := Text.multibyte?_sound hm
    have hmem : 0x22 ∈ b :: rest := by
      rw [hsound]
      exact List.mem_append_right _ (ih h)
    exact hmem
  | case11 seen b rest h0 hq hs hb hm ih => simp [ih h]
  | _ => cases h

theorem cons_of_scanString_escape {seen x s after : Text} {e : Bool}
    (h : scanString seen (0x5C :: x) = (.ok s, after, e)) :
    ∃ c x', x = c :: x' ∧ (c = 0x75 → (scanUnit? x').isSome = true) := by
  cases x with
  | nil =>
    rw [scanString.eq_def] at h
    simp at h
  | cons c x =>
    refine ⟨c, x, rfl, ?_⟩
    rintro rfl
    cases hu : scanUnit? x with
    | some step => rfl
    | none =>
      rw [scanString.eq_def] at h
      simp only [show ((0x5C : UInt8) == 0) = false by decide,
        show ((0x5C : UInt8) == 0x22) = false by decide, BEq.rfl, Bool.false_eq_true, if_false,
        if_true] at h
      split at h
      · rename_i hu'
        simp [hu] at hu'
      · cases h

theorem scanUnit?_append {x after : Text} {c : Char} (h : scanUnit? x = some (c, after))
    {seen s r : Text} {e : Bool} (hs : scanString seen after = (.ok s, r, e)) (q : Text) :
    scanUnit? (x ++ q) = some (c, after ++ q) := by
  obtain ⟨i, j, k, l, rest, rfl, hne⟩ := cons_of_scanUnit? h
  simp only [List.cons_append, scanUnit?] at h ⊢
  rw [if_neg (by simpa using hne)] at h
  rw [if_neg (by simp [hne])]
  split at h
  next b₁ b₂ b₃ b₄ rest' =>
    cases hp : pair? (unit i j k l) (unit b₁ b₂ b₃ b₄) with
    | none =>
      simp only [hp, Option.some.injEq, Prod.mk.injEq] at h
      obtain ⟨rfl, rfl⟩ := h
      simp only [List.cons_append, hp]
    | some ch =>
      simp only [hp] at h
      cases rest' with
      | nil =>
        -- the second half is cut off, and so it is not read on its own either
        obtain ⟨-, rfl⟩ := Prod.mk.inj (Option.some.inj h)
        obtain ⟨_, _, heq, hu⟩ := cons_of_scanString_escape hs
        obtain ⟨rfl, rfl⟩ := List.cons.inj heq
        cases hu rfl
      | cons b rest' =>
        obtain ⟨rfl, rfl⟩ := Prod.mk.inj (Option.some.inj h)
        simp only [List.cons_append, hp]
        rfl
  next hother =>
    obtain ⟨rfl, rfl⟩ := Prod.mk.inj (Option.some.inj h)
    split
    next b₁ b₂ b₃ b₄ rest' hwhole =>
      obtain ⟨b, rest, rfl⟩ := List.exists_cons_of_ne_nil hne
      obtain ⟨rfl, htail⟩ : b = 0x5C ∧ rest ++ q = 0x75 :: b₁ :: b₂ :: b₃ :: b₄ :: rest' :=
        List.cons.inj hwhole
      obtain ⟨b, rest, rfl, hu⟩ := cons_of_scanString_escape hs
      obtain rfl : b = 0x75 := (List.cons.inj htail).1
      obtain ⟨step, hu⟩ := Option.isSome_iff_exists.mp (hu rfl)
      obtain ⟨_, _, _, _, _, rfl, -⟩ := cons_of_scanUnit? hu
      exact absurd rfl (hother _ _ _ _ _)
    next => rfl

/-- A string that ends before the cut is the same after all. -/
theorem scanString_append {seen x s after : Text} {e : Bool}
    (h : scanString seen x = (.ok s, after, e)) (q : Text) :
    scanString seen (x ++ q) = (.ok s, after ++ q, e) := by
  fun_induction scanString seen x with
  | case3 seen b rest h0 hq =>
    obtain rfl := beq_iff_eq.mp hq
    cases h
    rw [List.cons_append, scanString_quote]
  | case5 seen b h0 hq hs c after₀ hc ch after' hu ih =>
    obtain rfl := beq_iff_eq.mp hs
    obtain rfl := beq_iff_eq.mp hc
    rw [List.cons_append, List.cons_append, scanString_unit (scanUnit?_append hu h q)]
    exact ih h
  | case7 seen b h0 hq hs c after₀ hc x hx ih =>
    obtain rfl := beq_iff_eq.mp hs
    rw [List.cons_append, List.cons_append, scanString_letter hx]
    exact ih h
  | case9 seen b rest h0 hq hs hb ih =>
    rw [beq_iff_eq] at h0 hq hs
    rw [List.cons_append, scanString_ascii h0 hq hs hb]
    exact ih h
  | case10 seen b rest h0 hq hs hb ch after' hm ih =>
    rw [List.cons_append, scanString_multibyte hb (Text.multibyte?_append_of_some hm q)]
    exact ih h
  | case11 seen b rest h0 hq hs hb hm ih =>
    rw [List.cons_append,
      scanString_stray hb (Text.multibyte?_append_of_quote hm (quote_of_scanString h) q)]
    exact ih h
  | _ => cases h

/-! ## Tokens -/

/-- What the scan of a text says of the scan of its beginning, where `q` is cut off. -/
def CutScan (q : Text) (whole part : Scan Token) : Prop :=
  ∀ t after e, whole = (.ok t, after, e) →
    (∃ f r e', part = (.error f, r, e')) ∨ (∃ r, after = r ++ q ∧ part = (.ok t, r, e)) ∨
      ∃ u e', part = (.ok u, [], e') ∧ Resembles t u

theorem CutScan.token (t : Token) (r q : Text) (e : Bool) :
    CutScan q (.ok t, r ++ q, e) (.ok t, r, e) := by
  rintro t after e ⟨⟩
  exact .inr (.inl ⟨r, rfl, rfl⟩)

theorem CutScan.error {f : Failure} {r q : Text} {e : Bool} {part : Scan Token} :
    CutScan q (.error f, r, e) part := by
  rintro t after e ⟨⟩

theorem token_of_scanWord {token t : Token} {letters x after : Text} {e e' : Bool}
    (h : scanWord token letters x e = (.ok t, after, e')) : t = token := by
  fun_induction scanWord token letters x e with
  | case1 =>
    cases h
    rfl
  | case2 => cases h
  | case6 => cases h
  | case3 _ _ _ _ ih | case4 _ _ _ _ _ _ ih | case5 _ _ _ _ _ _ _ ih => exact ih h

/-- The last letter of a word may be missing, where the end has not been met. -/
theorem scanWord_nil (token : Token) (letters : Text) (e : Bool) :
    (∃ f r e', scanWord token letters [] e = (.error f, r, e')) ∨
      ∃ e', scanWord token letters [] e = (.ok token, [], e') := by
  induction letters generalizing e with
  | nil => exact .inr ⟨e, rfl⟩
  | cons l letters ih =>
    cases e with
    | true => exact .inl ⟨_, _, _, rfl⟩
    | false => exact ih true

theorem cutScan_word {token : Token} (ht : token.closes = false) (letters p q : Text) (e : Bool) :
    CutScan q (scanWord token letters (p ++ q) e) (scanWord token letters p e) := by
  induction letters generalizing p e with
  | nil =>
    rw [scanWord, scanWord]
    exact .token token p q e
  | cons l letters ih =>
    cases p with
    | nil =>
      intro t after e' h
      obtain rfl := token_of_scanWord h
      rcases scanWord_nil t (l :: letters) e with herror | ⟨e', hpart⟩
      · exact .inl herror
      · exact .inr (.inr ⟨t, e', hpart, .inl ⟨rfl, ht⟩⟩)
    | cons b p =>
      rw [List.cons_append, scanWord, scanWord]
      exact rel_ite (fun _ => ih p e) fun _ => rel_ite (fun _ => ih p true) fun _ => .error

theorem cutScan_number (b : UInt8) (p q : Text) (e : Bool) :
    CutScan q (.ok (.number (b :: (p ++ q).takeWhile inNumber)), (p ++ q).dropWhile inNumber, e)
      (.ok (.number (b :: p.takeWhile inNumber)), p.dropWhile inNumber, e) := by
  by_cases hall : ∀ c ∈ p, inNumber c = true
  · rintro t after e' ⟨⟩
    have hpart : p.dropWhile inNumber = [] := List.dropWhile_eq_nil_iff.mpr hall
    exact .inr (.inr ⟨_, e, by rw [hpart], .inr ⟨_, _, rfl, rfl⟩⟩)
  · have hne : p.dropWhile inNumber ≠ [] := by
      rwa [ne_eq, List.dropWhile_eq_nil_iff]
    have htake : (p ++ q).takeWhile inNumber = p.takeWhile inNumber := by
      rw [List.takeWhile_append, if_neg]
      intro hlength
      have happend := congrArg List.length (List.takeWhile_append_dropWhile (p := inNumber) (l := p))
      rw [List.length_append, hlength] at happend
      exact hne (List.length_eq_zero_iff.mp (by omega))
    have hdrop : (p ++ q).dropWhile inNumber = p.dropWhile inNumber ++ q := by
      rw [List.dropWhile_append, if_neg (by simpa using hne)]
    rw [htake, hdrop]
    exact .token _ _ q e

theorem cutScan_string (p q : Text) (e : Bool) :
    CutScan q
      ((scanString [] (p ++ q)).1.map .string, (scanString [] (p ++ q)).2.1,
        e || (scanString [] (p ++ q)).2.2)
      ((scanString [] p).1.map .string, (scanString [] p).2.1, e || (scanString [] p).2.2) := by
  rcases hpart : scanString [] p with ⟨f | s, r, e'⟩
  · intro t after e'' _
    exact .inl ⟨f, _, _, rfl⟩
  · rw [scanString_append hpart q]
    exact .token _ r q _

theorem cutScan (p q : Text) (e : Bool) : CutScan q (scan e (p ++ q)) (scan e p) := by
  induction p with
  | nil =>
    intro t after e' _
    exact .inl ⟨_, _, _, rfl⟩
  | cons b p ih =>
    rw [List.cons_append, scan, scan]
    refine rel_ite (fun _ => ih) fun _ => ?_
    refine rel_ite (fun _ => .token _ p q e) fun _ => ?_
    refine rel_ite (fun _ => .token _ p q e) fun _ => ?_
    refine rel_ite (fun _ => .token _ p q e) fun _ => ?_
    refine rel_ite (fun _ => .token _ p q e) fun _ => ?_
    refine rel_ite (fun _ => cutScan_number b p q e) fun _ => ?_
    refine rel_ite (fun _ => cutScan_string p q e) fun _ => ?_
    refine rel_ite (fun _ => cutScan_word rfl _ p q e) fun _ => ?_
    refine rel_ite (fun _ => cutScan_word rfl _ p q e) fun _ => ?_
    refine rel_ite (fun _ => cutScan_word rfl _ p q e) fun _ => ?_
    exact rel_ite (fun _ => .error) fun _ => .error

/-! ## Sources -/

section Sources

variable {x after : Text} {e e' : Bool} {n : Nesting}

theorem stops_of_scan {f : Failure} (h : scan e x = (.error f, after, e')) :
    (Source.lenient ⟨x, e, n⟩).Stops [] f := by
  refine Source.Stops.nil_iff.mpr ⟨.lenient ⟨after, e', n⟩, ?_⟩
  simp [Source.next, Lenient.next, h]

theorem scan_of_next {t : Located} {s : Source} (h : (Source.lenient ⟨x, e, n⟩).next = (.ok t, s)) :
    ∃ token after e', scan e x = (.ok token, after, e') ∧ t.token = (n.take token).2 ∧
      s = .lenient ⟨after, e', (n.take token).1⟩ := by
  rcases hscan : scan e x with ⟨f | token, after, e'⟩
  · simp [Source.next, Lenient.next, hscan] at h
  · simp only [Source.next, Lenient.next, hscan, Prod.mk.injEq, Except.ok.injEq] at h
    obtain ⟨rfl, rfl⟩ := h
    exact ⟨token, after, e', rfl, rfl, rfl⟩

end Sources

theorem Ends.of_append {p q : Text} (h : Ends (p ++ q)) : Ends p := by
  cases p with
  | nil => rintro _ ⟨⟩
  | cons b p => exact h

theorem scan_scalar {t : Tree} (ht : t.tail = []) {x rest : Text} (hx : t.Spells x)
    (hr : Ends rest) : scan false (x ++ rest) = (.ok t.head, rest, false) := by
  cases t with
  | null =>
    obtain rfl := hx
    exact scan_null rest
  | bool b =>
    obtain rfl := hx
    exact scan_bool b rest
  | number literal =>
    obtain ⟨rfl, hnumber⟩ := hx
    exact scan_number hnumber hr false
  | string s => exact scan_string hx rest
  | array items => simp [Tree.tail] at ht
  | object members => simp [Tree.tail] at ht

theorem scan_between {p q : Text} (h : Between q p) {token : Token} {after : Text} {e : Bool}
    (hscan : scan false (p ++ q) = (.ok token, after, e)) :
    (∃ r e', scan false p = (.error (.exhausted .clean), r, e')) ∨
    ∃ r, after = r ++ q ∧ e = false ∧ scan false p = (.ok token, r, false) ∧ Between q r := by
  induction h with
  | nil => exact .inl ⟨_, _, rfl⟩
  | gap hb _ ih =>
    rw [List.cons_append, scan_skipped hb] at hscan
    rw [scan_skipped hb]
    exact ih hscan
  | @bracket b p hb h _ =>
    simp only [List.mem_cons, List.not_mem_nil, or_false] at hb
    rcases hb with rfl | rfl | rfl | rfl
    all_goals
      cases hscan
      exact .inr ⟨p, rfl, rfl, rfl, h⟩
  | @scalar x p t ht hx hends h _ =>
    rw [List.append_assoc, scan_scalar ht hx hends] at hscan
    cases hscan
    exact .inr ⟨p, rfl, rfl, scan_scalar ht hx hends.of_append, h⟩

/-- The second source reads the beginning of what the first one reads. -/
def Shortened (tight : Prop) (s s' : Source) : Prop :=
  ∃ p q e n, q ≠ [] ∧ (tight → e = false ∧ Between q p) ∧
    s = .lenient ⟨p ++ q, e, n⟩ ∧ s' = .lenient ⟨p, e, n⟩

theorem trails (tight : Prop) : Trails tight (Shortened tight) := by
  rintro s s' s₁ t ⟨p, q, e, n, hq, htight, rfl, rfl⟩ hn
  obtain ⟨token, after, e', hscan, ht, rfl⟩ := scan_of_next hn
  rw [ht]
  by_cases hcut : tight
  · obtain ⟨rfl, hbetween⟩ := htight hcut
    rcases scan_between hbetween hscan with ⟨r, e'', hpart⟩ | ⟨r, rfl, rfl, hpart, hr⟩
    · exact .inl ⟨_, stops_of_scan hpart, fun _ => rfl⟩
    · exact .inr (.inl ⟨_, emits_scan hpart _, r, q, _, _, hq, fun _ => ⟨rfl, hr⟩, rfl, rfl⟩)
  · rcases cutScan p q e token after e' hscan with
      ⟨f, r, e'', hpart⟩ | ⟨r, rfl, hpart⟩ | ⟨u, e'', hpart, hu⟩
    · exact .inl ⟨f, stops_of_scan hpart, fun h => absurd h hcut⟩
    · exact .inr (.inl ⟨_, emits_scan hpart _, r, q, e', _, hq, fun h => absurd h hcut, rfl, rfl⟩)
    · have hend : scan e'' [] = (.error (.exhausted .clean), [], true) := rfl
      exact .inr (.inr ⟨_, _,
        Source.Stops.append_iff.mpr ⟨_, emits_scan hpart _, stops_of_scan hend⟩, fun _ => rfl,
        hcut, hu.take n⟩)

end Lenient

end Json

end WireSchema
