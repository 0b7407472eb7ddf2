import Mathlib.Tactic.Tauto
import WireSchema.Proofs.Json.StrictReading
import WireSchema.Proofs.Json.LenientTruncation

/-!
# Cut texts, read strictly

A text that is cut is read strictly as all of it is, up to the cut. There the reader tells an end
between two tokens from one inside a token; only a number that is cut may be taken for a shorter one.
-/

namespace WireSchema.Json.Strict

/-! ## Strings -/

theorem scanUnit_append {x after : Text} {u : Nat} (h : scanUnit x = .done u after) (q : Text) :
    scanUnit (x ++ q) = .done u (after ++ q) := by
  obtain ⟨a, b, c, d, rfl, rfl⟩ := cons_of_scanUnit h
  simp only [List.cons_append, scanUnit] at h ⊢
  split_ifs at h ⊢
  · rfl
  · simp [badDigit] at h

theorem suffix_of_scanUnit {x after : Text} {u : Nat} (h : scanUnit x = .done u after) :
    after <:+ x := by
  obtain ⟨a, b, c, d, rfl, -⟩ := cons_of_scanUnit h
  exact ⟨[a, b, c, d], rfl⟩

theorem cons_of_lowUnit? {high : Nat} {x after : Text} {c : Char}
    (h : lowUnit? high x = some (c, after)) :
    ∃ y low, x = 0x5C :: 0x75 :: y ∧ scanUnit y = .done low after ∧ pair? high low = some c := by
  unfold lowUnit? at h
  split at h
  next y =>
    split at h
    next low after' hy =>
      obtain ⟨c', hp, hc⟩ := Option.map_eq_some_iff.mp h
      cases hc
      exact ⟨y, low, rfl, hy, hp⟩
    next => cases h
  next => cases h

theorem lowUnit?_append {high : Nat} {x after : Text} {c : Char}
    (h : lowUnit? high x = some (c, after)) (q : Text) :
    lowUnit? high (x ++ q) = some (c, after ++ q) := by
  obtain ⟨y, low, rfl, hy, hp⟩ := cons_of_lowUnit? h
  simp only [List.cons_append, lowUnit?, scanUnit_append hy q, hp, Option.map_some]

theorem quote_of_scanString {seen x s after : Text} (h : scanString seen x = .done s after) :
    0x22 ∈ x := by
  fun_induction scanString seen x with
  | case2 seen b rest hq => simp [beq_iff_eq.mp hq]
  | case6 seen b hq hs c x hc high x' hu ch x'' hl ih =>
    obtain ⟨y, low, rfl, hy, -⟩ := cons_of_lowUnit? hl
    have hlow := (suffix_of_scanUnit hy).subset (ih h)
    have hmem := (suffix_of_scanUnit hu).subset (List.mem_append_right [0x5C, 0x75] hlow)
    simp [hmem]
  | case7 seen b hq hs c x hc high x' hu hl ih =>
    have hmem := (suffix_of_scanUnit hu).subset (ih h)
    simp [hmem]
  | case8 seen b hq hs c x hc y hy ih => simp [ih h]
  | case11 seen b rest hq hs hc hb ih => simp [ih h]
  | case12 seen b rest hq hs hc hb ch x hm ih =>
    have hmem : 0x22 ∈ b :: rest := by
      rw [Text.multibyte?_sound hm]
      exact List.mem_append_right _ (ih h)
    exact hmem
  | case13 seen b rest hq hs hc hb hm ih => simp [ih h]
  | _ => cases h

theorem cons_of_scanString_escape {seen x s after : Text}
    (h : scanString seen (0x5C :: x) = .done s after) :
    ∃ c x', x = c :: x' ∧ (c = 0x75 → ∃ u y, scanUnit x' = .done u y) := by
  cases x with
  | nil =>
    rw [scanString.eq_def] at h
    simp at h
  | cons c x =>
    refine ⟨c, x, rfl, ?_⟩
    rintro rfl
    rw [scanString.eq_def] at h
    simp only [show ((0x5C : UInt8) == 0x22) = false by decide, BEq.rfl, Bool.false_eq_true,
      if_false, if_true] at h
    split at h
    next => cases h
    next => cases h
    next u y hu => exact ⟨u, y, hu⟩

/-- A unit without the other half has none either where the text goes on. -/
theorem lowUnit?_append_of_none {high : Nat} {x : Text} (h : lowUnit? high x = none)
    {seen s after : Text} (hs : scanString seen x = .done s after) (q : Text) :
    lowUnit? high (x ++ q) = none := by
  cases hwhole : lowUnit? high (x ++ q) with
  | none => rfl
  | some step =>
    obtain ⟨c', z⟩ := step
    obtain ⟨y, low, hxq, hy, hp⟩ := cons_of_lowUnit? hwhole
    cases x with
    | nil =>
      rw [scanString.eq_def] at hs
      cases hs
    | cons b x =>
      obtain ⟨rfl, htail⟩ : b = 0x5C ∧ x ++ q = 0x75 :: y := List.cons.inj hxq
      obtain ⟨c, x, rfl, hu⟩ := cons_of_scanString_escape hs
      obtain ⟨rfl, rfl⟩ : c = 0x75 ∧ x ++ q = y := List.cons.inj htail
      obtain ⟨u, z', hu⟩ := hu rfl
      rw [scanUnit_append hu q] at hy
      obtain ⟨rfl, -⟩ := Scan.done.inj hy
      simp [lowUnit?, hu, hp] at h

theorem scanString_append {seen x s after : Text} (h : scanString seen x = .done s after)
    (q : Text) : scanString seen (x ++ q) = .done s (after ++ q) := by
  fun_induction scanString seen x with
  | case2 seen b rest hq =>
    obtain rfl := beq_iff_eq.mp hq
    cases h
    rw [List.cons_append, scanString_quote]
  | case6 seen b hq hs c x hc high x' hu ch x'' hl ih =>
    obtain rfl := beq_iff_eq.mp hs
    obtain rfl := beq_iff_eq.mp hc
    rw [List.cons_append, List.cons_append,
      scanString_pair (scanUnit_append hu q) (lowUnit?_append hl q)]
    exact ih h
  | case7 seen b hq hs c x hc high x' hu hl ih =>
    obtain rfl := beq_iff_eq.mp hs
    obtain rfl := beq_iff_eq.mp hc
    rw [List.cons_append, List.cons_append,
      scanString_unit (scanUnit_append hu q) (lowUnit?_append_of_none hl h q)]
    exact ih h
  | case8 seen b hq hs c x hc y hy ih =>
    obtain rfl := beq_iff_eq.mp hs
    rw [List.cons_append, List.cons_append, scanString_letter hy]
    exact ih h
  | case11 seen b rest hq hs hc hb ih =>
    rw [beq_iff_eq] at hq hs
    rw [List.cons_append, scanString_ascii hc hq hs hb]
    exact ih h
  | case12 seen b rest hq hs hc hb ch x hm ih =>
    rw [List.cons_append, scanString_multibyte hb (Text.multibyte?_append_of_some hm q)]
    exact ih h
  | case13 seen b rest hq hs hc hb hm ih =>
    rw [List.cons_append,
      scanString_stray hb (Text.multibyte?_append_of_quote hm (quote_of_scanString h) q)]
    exact ih h
  | _ => cases h

/-! ## Scalars -/

/-- What the scan of a scalar says of the scan of its beginning, where `q` is cut off. -/
def CutScan (tight : Prop) (q : Text) (whole part : Scan Token) : Prop :=
  ∀ t after, whole = .done t after →
    ¬tight ∧ ((∃ b place, part = .invalid b place) ∨ part = .cutOff) ∨
      (∃ r, after = r ++ q ∧ (tight → Between q r) ∧ part = .done t r) ∨
      ¬tight ∧ ∃ u, part = .done u [] ∧ Resembles t u

section Loose

variable {q : Text}

theorem CutScan.token (t : Token) (r : Text) : CutScan False q (.done t (r ++ q)) (.done t r) := by
  rintro t after ⟨⟩
  exact .inr (.inl ⟨r, rfl, False.elim, rfl⟩)

theorem CutScan.failed {whole part : Scan Token}
    (h : (∃ b place, part = .invalid b place) ∨ part = .cutOff) : CutScan False q whole part :=
  fun _ _ _ => .inl ⟨id, h⟩

theorem cutScan_word (token : Token) (letters p q : Text) :
    CutScan False q (scanWord token letters (p ++ q)) (scanWord token letters p) := by
  induction letters generalizing p with
  | nil => exact .token token p
  | cons l letters ih =>
    cases p with
    | nil => exact .failed (.inr rfl)
    | cons b p =>
      rw [List.cons_append, scanWord, scanWord]
      exact rel_ite (fun _ => ih p) fun _ => .failed (.inl ⟨_, _, rfl⟩)

theorem number_of_scanNumber {s : NumberState} {seen x after : Text} {t : Token}
    (h : scanNumber s seen x = .done t after) : ∃ literal, t = .number literal := by
  induction x generalizing s seen with
  | nil =>
    rw [scanNumber] at h
    split at h
    · cases h
      exact ⟨_, rfl⟩
    · cases h
  | cons b x ih =>
    rw [scanNumber] at h
    split at h
    · exact ih h
    · split at h
      · cases h
        exact ⟨_, rfl⟩
      · cases h

theorem cutScan_number (s : NumberState) (seen p q : Text) :
    CutScan False q (scanNumber s seen (p ++ q)) (scanNumber s seen p) := by
  induction p generalizing s seen with
  | nil =>
    intro t after h
    obtain ⟨literal, rfl⟩ := number_of_scanNumber h
    rw [scanNumber]
    split
    · exact .inr (.inr ⟨id, _, rfl, .inr ⟨_, _, rfl, rfl⟩⟩)
    · exact .inl ⟨id, .inr rfl⟩
  | cons b p ih =>
    rw [List.cons_append, scanNumber, scanNumber]
    cases s.step b with
    | some s' => exact ih s' (b :: seen)
    | none => exact rel_ite (fun _ => .token _ (b :: p)) fun _ => .failed (.inl ⟨_, _, rfl⟩)

theorem cutScan_string (p q : Text) :
    CutScan False q
      (match scanString [] (p ++ q) with
        | .done t rest => .done (.string t) rest
        | .invalid b place => .invalid b place
        | .cutOff => .cutOff)
      (match scanString [] p with
        | .done t rest => .done (.string t) rest
        | .invalid b place => .invalid b place
        | .cutOff => .cutOff) := by
  cases hpart : scanString [] p with
  | done s r =>
    rw [scanString_append hpart q]
    exact .token _ r
  | invalid b place => exact .failed (.inl ⟨_, _, rfl⟩)
  | cutOff => exact .failed (.inr rfl)

theorem cutScan_loose (b : UInt8) (p q : Text) :
    CutScan False q (scanScalar b (p ++ q)) (scanScalar b p) := by
  unfold scanScalar
  refine rel_ite (fun _ => cutScan_string p q) fun _ => ?_
  refine rel_ite (fun _ => cutScan_number _ _ p q) fun _ => ?_
  refine rel_ite (fun _ => cutScan_number _ _ p q) fun _ => ?_
  refine rel_ite (fun _ => cutScan_number _ _ p q) fun _ => ?_
  refine rel_ite (fun _ => cutScan_word _ _ p q) fun _ => ?_
  refine rel_ite (fun _ => cutScan_word _ _ p q) fun _ => ?_
  exact rel_ite (fun _ => cutScan_word _ _ p q) fun _ => .failed (.inl ⟨_, _, rfl⟩)

end Loose

theorem between_cons {q p : Text} {b : UInt8} (h : Between q (b :: p)) :
    Lenient.isSkipped b = true ∧ Between q p ∨ b ∈ [0x7B, 0x7D, 0x5B, 0x5D] ∧ Between q p ∨
      ∃ t r, scanScalar b (p ++ q) = .done t (r ++ q) ∧ scanScalar b p = .done t r ∧
        Between q r := by
  generalize hx : b :: p = x at h
  cases h with
  | nil => cases hx
  | gap hskip h =>
    cases hx
    exact .inl ⟨hskip, h⟩
  | bracket hbracket h =>
    cases hx
    exact .inr (.inl ⟨hbracket, h⟩)
  | @scalar x r t ht hspells hends h =>
    have hscans : Scans t := by
      cases t with
      | null => exact scans_null
      | bool b => exact scans_bool b
      | number literal => exact scans_number literal
      | string s => exact scans_string s
      | array items => simp [Tree.tail] at ht
      | object members => simp [Tree.tail] at ht
    obtain ⟨b', tail, rfl, hwhole⟩ := hscans hspells hends
    obtain ⟨b'', tail', heq, hpart⟩ := hscans hspells hends.of_append
    obtain ⟨rfl, rfl⟩ := List.cons.inj heq
    obtain ⟨rfl, rfl⟩ : b = b' ∧ p = tail ++ r := List.cons.inj hx
    rw [← List.append_assoc] at hwhole
    exact .inr (.inr ⟨t.head, r, hwhole, hpart, h⟩)

theorem not_begins_of_isSkipped {b : UInt8} (h : Lenient.isSkipped b = true) : ¬Begins b := by
  rintro ⟨hblank, hcomma, hcolon⟩
  simp only [Lenient.isSkipped, Bool.or_eq_true, beq_iff_eq, hcomma, hcolon, or_false] at h
  simp only [isBlank, Bool.or_eq_false_iff, beq_eq_false_iff_ne] at hblank
  tauto

theorem between_of_skipped {q x y : Text} (hx : x.all Lenient.isSkipped = true)
    (h : Between q (x ++ y)) : Between q y := by
  induction x with
  | nil => exact h
  | cons b x ih =>
    rw [List.all_cons, Bool.and_eq_true] at hx
    rcases between_cons h with ⟨-, h⟩ | ⟨hb, -⟩ | ⟨t, r, hwhole, -⟩
    · exact ih hx.2 h
    · simp only [List.mem_cons, List.not_mem_nil, or_false] at hb
      rcases hb with rfl | rfl | rfl | rfl <;> cases hx.1
    · exact absurd (begins_of_scanScalar hwhole) (not_begins_of_isSkipped hx.1)

theorem cutScan {tight : Prop} {b : UInt8} {p q : Text} (hb : Begins b)
    (h : tight → Between q (b :: p)) :
    CutScan tight q (scanScalar b (p ++ q)) (scanScalar b p) := by
  by_cases htight : tight
  · rcases between_cons (h htight) with ⟨hskip, -⟩ | ⟨hbracket, -⟩ | ⟨t, r, hwhole, hpart, hr⟩
    · exact absurd hb (not_begins_of_isSkipped hskip)
    · intro t after hwhole
      exact absurd rfl (ne_of_scanScalar hwhole (by grind))
    · rw [hwhole, hpart]
      rintro _ _ ⟨⟩
      exact .inr (.inl ⟨r, rfl, fun _ => hr, rfl⟩)
  · obtain rfl := eq_false htight
    exact cutScan_loose b p q

/-! ## Tokens -/

/-- The second source reads the beginning of what the first one reads. -/
def Shortened (tight : Prop) (s s' : Source) : Prop :=
  ∃ p q e outer n, q ≠ [] ∧ (tight → Between q p) ∧
    Place.Holds ⟨p ++ q, e, outer, n⟩ s ∧ Place.Holds ⟨p, e, outer, n⟩ s'

/-- The reader at a place. -/
def Place.reader (p : Place) (offset : Nat) (last : Int) : Strict :=
  { rest := p.text, offset, expect := p.expect, outer := p.outer, nesting := p.nesting, last }

/-- What the next token of a reader says of a reader that is cut off. -/
def CutNext (tight : Prop) (whole part : Except Failure Token × Strict) : Prop :=
  ∀ t s, whole = (.ok t, s) →
    ¬tight ∧ (∃ f s', part = (.error f, s')) ∨
      (∃ s', part = (.ok t, s') ∧ Shortened tight (.strict s) (.strict s')) ∨
      ¬tight ∧ ∃ u p offset last, part = (.ok u, Place.reader p offset last) ∧ p.text = [] ∧
        Resembles t u

section Tokens

variable {tight : Prop} {q : Text} {e : Expectation} {outer : List Expectation} {n : Nesting}
  {x x' : Text} {o o' : Nat} {l l' : Int}

theorem CutNext.error {f : Failure} {s : Strict} {part : Except Failure Token × Strict} :
    CutNext tight (.error f, s) part := by
  rintro t s' ⟨⟩

theorem cutNext_emit (hq : q ≠ []) {r : Text} (hr : tight → Between q r) (token : Token)
    (e₁ : Expectation) (outer₁ : List Expectation) :
    CutNext tight ((Place.reader ⟨x, e, outer, n⟩ o l).emit token (r ++ q) e₁ outer₁)
      ((Place.reader ⟨x', e, outer, n⟩ o' l').emit token r e₁ outer₁) := by
  rintro t s ⟨⟩
  exact .inr (.inl ⟨_, rfl, r, q, e₁, outer₁, _, hq, hr, ⟨_, _, rfl⟩, ⟨_, _, rfl⟩⟩)

theorem cutNext_close (hq : q ≠ []) {r : Text} (hr : tight → Between q r) (b : UInt8)
    (token : Token) : CutNext tight ((Place.reader ⟨x, e, outer, n⟩ o l).close b token (r ++ q))
      ((Place.reader ⟨x', e, outer, n⟩ o' l').close b token r) := by
  cases outer with
  | nil => exact .error
  | cons around outer => exact cutNext_emit hq hr token _ _

theorem cutNext_scalar (hq : q ≠ []) {b : UInt8} {p : Text}
    (h : CutScan tight q (scanScalar b (p ++ q)) (scanScalar b p)) (e₁ : Expectation) :
    CutNext tight ((Place.reader ⟨x, e, outer, n⟩ o l).scalar b (p ++ q) e₁)
      ((Place.reader ⟨x', e, outer, n⟩ o' l').scalar b p e₁) := by
  cases hscan : scanScalar b (p ++ q) with
  | invalid =>
    simp only [scalar, Place.reader, hscan]
    exact .error
  | cutOff =>
    simp only [scalar, Place.reader, hscan]
    exact .error
  | done token after =>
    rw [scalar_eq rfl rfl hscan]
    rcases h token after hscan with ⟨hloose, hpart⟩ | ⟨r, rfl, hr, hpart⟩ | ⟨hloose, u, hpart, hu⟩
    · intro t s _
      refine .inl ⟨hloose, ?_⟩
      rcases hpart with ⟨b', place, hpart⟩ | hpart
      · exact ⟨_, _, by simp only [scalar, Place.reader, hpart]; rfl⟩
      · exact ⟨_, _, by simp only [scalar, Place.reader, hpart]; rfl⟩
    · rw [scalar_eq rfl rfl hpart]
      exact cutNext_emit hq hr token _ _
    · rw [scalar_eq rfl rfl hpart]
      rintro t s ⟨⟩
      exact .inr (.inr ⟨hloose, _, ⟨[], e₁, outer, _⟩, _, _, rfl, rfl, hu.take n⟩)

theorem cutNext_tokenAt (hq : q ≠ []) {b : UInt8} {p : Text} (hb : Begins b)
    (h : tight → Between q (b :: p)) :
    CutNext tight ((Place.reader ⟨x, e, outer, n⟩ o l).tokenAt b (p ++ q))
      ((Place.reader ⟨x', e, outer, n⟩ o' l').tokenAt b p) := by
  have hrest {c : UInt8} (hc : c ∈ [0x7B, 0x7D, 0x5B, 0x5D]) (hbc : (b == c) = true) :
      tight → Between q p := by
    intro htight
    obtain rfl := beq_iff_eq.mp hbc
    rcases between_cons (h htight) with ⟨-, hp⟩ | ⟨-, hp⟩ | ⟨t, r, hwhole, -⟩
    · exact hp
    · exact hp
    · exact absurd rfl (ne_of_scanScalar hwhole (by grind))
  have hscan := cutScan hb h
  unfold tokenAt
  refine rel_ite (fun hc => ?_) fun _ => rel_ite (fun hc => ?_) fun _ => rel_ite (fun hc => ?_)
    fun _ => rel_ite (fun hc => ?_) fun _ => ?_
  · exact rel_ite (fun _ => cutNext_emit hq (hrest (by simp) hc) _ _ _) fun _ => .error
  · exact rel_ite (fun _ => cutNext_emit hq (hrest (by simp) hc) _ _ _) fun _ => .error
  · exact rel_ite (fun _ => cutNext_close hq (hrest (by simp) hc) _ _) fun _ => .error
  · exact rel_ite (fun _ => cutNext_close hq (hrest (by simp) hc) _ _) fun _ => .error
  · refine rel_ite (fun _ => cutNext_scalar hq hscan _) fun _ => ?_
    exact rel_ite (fun _ => cutNext_scalar hq hscan _) fun _ => .error

end Tokens

/-! ## Gaps -/

theorem blank_or_split (x : Text) :
    Blank x ∨ ∃ y b z, x = y ++ b :: z ∧ Blank y ∧ isBlank b = false := by
  induction x with
  | nil => exact .inl (by simp [Blank])
  | cons c x ih =>
    by_cases hc : isBlank c = true
    · have hcons {y : Text} (hy : Blank y) : Blank (c :: y) := by
        intro b hb
        rcases List.mem_cons.mp hb with rfl | hb
        · simp only [isBlank, Bool.or_eq_true, beq_iff_eq] at hc
          tauto
        · exact hy b hb
      rcases ih with hx | ⟨y, b, z, rfl, hy, hb⟩
      · exact .inl (hcons hx)
      · exact .inr ⟨c :: y, b, z, rfl, hcons hy, hb⟩
    · exact .inr ⟨[], c, x, rfl, by simp [Blank], by simpa using hc⟩

theorem isSeparator_of_afterSeparator {e e' : Expectation} {sep : UInt8}
    (h : afterSeparator e sep = some e') :
    isBlank sep = false ∧ (sep == 0x2C || sep == 0x3A) = true := by
  rcases separator_of_afterSeparator h with rfl | rfl
  · exact ⟨rfl, rfl⟩
  · exact ⟨rfl, rfl⟩

section Separators

variable {s : Strict} {x y : Text} {sep : UInt8} {e : Expectation}

theorem next_separator_blank (hrest : s.rest = x ++ sep :: y) (hx : Blank x)
    (he : afterSeparator s.expect sep = some e) (hy : Blank y) :
    ∃ s', s.next = (.error s.ending, s') := by
  obtain ⟨hblank, hsep⟩ := isSeparator_of_afterSeparator he
  obtain ⟨offset, hskip⟩ := skipBlanks_eq hrest hx hblank
  refine ⟨{ s with rest := y, offset := offset + 1, expect := e }, ?_⟩
  have hskip' : ({ s with rest := y, offset := offset + 1, expect := e } : Strict).skipBlanks =
      { s with rest := y, offset := offset + 1, expect := e } := by
    simp [skipBlanks, dropWhile_blank hy]
  unfold next
  simp only [hskip, List.dropWhile_cons_of_neg (p := isBlank) (a := sep) (by simp [hblank]), hsep,
    if_true, he, hskip', dropWhile_blank hy]
  rfl

theorem next_separators (hrest : s.rest = x ++ sep :: y) (hx : Blank x)
    (he : afterSeparator s.expect sep = some e) {y' z : Text} {c : UInt8} (hy : y = y' ++ c :: z)
    (hy' : Blank y') (hc : isBlank c = false) (hsep' : (c == 0x2C || c == 0x3A) = true) :
    ∃ f s', s.next = (.error f, s') := by
  obtain ⟨hblank, hsep⟩ := isSeparator_of_afterSeparator he
  obtain ⟨offset, hskip⟩ := skipBlanks_eq hrest hx hblank
  obtain ⟨offset', hskip'⟩ := skipBlanks_eq
    (s := { s with rest := y, offset := offset + 1, expect := e }) hy hy' hc
  refine ⟨invalidCharacter c e.place, { s with rest := c :: z, offset := offset', expect := e }, ?_⟩
  unfold next
  simp only [hskip, List.dropWhile_cons_of_neg (p := isBlank) (a := sep) (by simp [hblank]), hsep,
    if_true, he, hskip', List.dropWhile_cons_of_neg (p := isBlank) (a := c) (by simp [hc]), hsep']
  rfl

end Separators

theorem gap_of_next {s s' : Strict} {t : Token} (h : s.next = (.ok t, s')) :
    ∃ gap b rest e, s.rest = gap ++ b :: rest ∧ Gap s.expect gap e ∧ Begins b := by
  rcases blank_or_split s.rest with hblank | ⟨x, b, y, hrest, hx, hb⟩
  · rw [next_blank hblank] at h
    cases h
  · by_cases hsep : b = 0x2C ∨ b = 0x3A
    · cases he : afterSeparator s.expect b with
      | none =>
        obtain ⟨offset, hskip⟩ := skipBlanks_eq hrest hx hb
        have hsome : (b == 0x2C || b == 0x3A) = true := by simpa using hsep
        unfold next at h
        simp [hskip, hb, hsome, he] at h
      | some e =>
        rcases blank_or_split y with hy | ⟨y, c, z, rfl, hy, hc⟩
        · obtain ⟨s', hnext⟩ := next_separator_blank hrest hx he hy
          rw [hnext] at h
          cases h
        · by_cases hsep' : (c == 0x2C || c == 0x3A) = true
          · obtain ⟨f, s', hnext⟩ := next_separators hrest hx he rfl hy hc hsep'
            rw [hnext] at h
            cases h
          · rw [Bool.or_eq_true, beq_iff_eq, beq_iff_eq, not_or] at hsep'
            exact ⟨x ++ b :: y, c, z, e, by simp [hrest], .separator hx hy he, hc, hsep'⟩
    · exact ⟨x, b, y, s.expect, hrest, .blank _ hx, hb, by tauto⟩

theorem blank_of_append {x y : Text} (h : Blank (x ++ y)) : Blank x ∧ Blank y :=
  ⟨fun b hb => h b (List.mem_append_left y hb), fun b hb => h b (List.mem_append_right x hb)⟩

theorem next_cut_gap {s : Strict} {gap more : Text} {e : Expectation} (hgap : Gap s.expect gap e)
    (h : gap = s.rest ++ more) (hfault : s.fault = none) :
    ∃ s', s.next = (.error (.exhausted .clean), s') := by
  have hending : s.ending = .exhausted .clean := by simp [ending, hfault]
  rw [← hending]
  cases hgap with
  | blank _ hx =>
    rw [h] at hx
    exact ⟨s, next_blank (blank_of_append hx).1⟩
  | @separator x y sep _ _ hx hy hsep =>
    rcases List.append_eq_append_iff.mp h with ⟨z, hrest, hz⟩ | ⟨z, rfl, hz⟩
    · cases z with
      | nil =>
        rw [List.append_nil] at hrest
        rw [← hrest] at hx
        exact ⟨s, next_blank hx⟩
      | cons c z =>
        obtain ⟨rfl, rfl⟩ : sep = c ∧ y = z ++ more := List.cons.inj hz
        exact next_separator_blank hrest hx hsep (blank_of_append hy).1
    · exact ⟨s, next_blank (blank_of_append hx).1⟩

theorem all_skipped_of_gap {e e' : Expectation} {gap : Text} (h : Gap e gap e') :
    gap.all Lenient.isSkipped = true := by
  cases h with
  | blank _ hx => exact Lenient.all_skipped_of_blank hx
  | separator hx hy hsep =>
    rw [List.all_append, List.all_cons, Lenient.all_skipped_of_blank hx,
      Lenient.all_skipped_of_blank hy]
    rcases separator_of_afterSeparator hsep with rfl | rfl <;> rfl

/-! ## Sources -/

theorem next_of_strict {s : Strict} {s₁ : Source} {t : Located}
    (h : (Source.strict s).next = (.ok t, s₁)) :
    ∃ s', s.next = (.ok t.token, s') ∧ s₁ = .strict s' := by
  rcases hs : s.next with ⟨f | token, s'⟩
  · simp [Source.next, hs] at h
  · simp only [Source.next, hs, Prod.mk.injEq, Except.ok.injEq] at h
    obtain ⟨rfl, rfl⟩ := h
    exact ⟨s', rfl, rfl⟩

theorem emits_of_next {s s' : Strict} {t : Token} (h : s.next = (.ok t, s')) :
    (Source.strict s).Emits [t] (.strict s') :=
  .cons (next_strict h) (.nil _)

theorem stops_of_next {s s' : Strict} {f : Failure} (h : s.next = (.error f, s')) :
    (Source.strict s).Stops [] f :=
  Source.Stops.nil_iff.mpr ⟨.strict s', by rw [Source.next, h]⟩

theorem trails (tight : Prop) : Trails tight (Shortened tight) := by
  rintro s s' s₁ t ⟨p, q, e, outer, n, hq, htight, ⟨o, l, rfl⟩, ⟨o', l', rfl⟩⟩ hn
  obtain ⟨s₂, hnext, rfl⟩ := next_of_strict hn
  obtain ⟨gap, b, rest, e', hrest, hgap, hb⟩ := gap_of_next hnext
  -- the cut is in the gap, or in what comes after it
  have hcases : (∃ more, gap = p ++ more) ∨ ∃ p', p = gap ++ b :: p' ∧ rest = p' ++ q := by
    rcases List.append_eq_append_iff.mp hrest with ⟨m, hm, -⟩ | ⟨m, hm, htail⟩
    · exact .inl ⟨m, hm⟩
    · cases m with
      | nil => exact .inl ⟨[], by simpa using hm.symm⟩
      | cons c m =>
        obtain ⟨rfl, rfl⟩ : b = c ∧ rest = m ++ q := List.cons.inj htail
        exact .inr ⟨m, hm, rfl⟩
  rcases hcases with ⟨more, hmore⟩ | ⟨p', rfl, rfl⟩
  · obtain ⟨s', hend⟩ := next_cut_gap
      (s := { rest := p, offset := o', expect := e, outer, nesting := n, last := l' }) hgap hmore rfl
    exact .inl ⟨_, stops_of_next hend, fun _ => rfl⟩
  · obtain ⟨o₁, hwhole⟩ := next_eq hrest hgap hb
    obtain ⟨o₂, hpart⟩ := next_eq
      (s := { rest := gap ++ b :: p', offset := o', expect := e, outer, nesting := n, last := l' })
      rfl hgap hb
    have hbetween : tight → Between q (b :: p') := fun h =>
      between_of_skipped (all_skipped_of_gap hgap) (htight h)
    have hcut : CutNext tight
        ((Place.reader ⟨b :: (p' ++ q), e', outer, n⟩ o₁ l).tokenAt b (p' ++ q))
        ((Place.reader ⟨b :: p', e', outer, n⟩ o₂ l').tokenAt b p') :=
      cutNext_tokenAt hq hb hbetween
    rw [hwhole] at hnext
    rcases hcut t.token s₂ hnext with ⟨hloose, f, s', hfail⟩ | ⟨s', hok, hshort⟩ |
      ⟨hloose, u, place, o₃, l₃, hok, hempty, hu⟩
    · exact .inl ⟨f, stops_of_next (hpart.trans hfail), fun h => absurd h hloose⟩
    · exact .inr (.inl ⟨_, emits_of_next (hpart.trans hok), hshort⟩)
    · have hend : (place.reader o₃ l₃).next = (.error (.exhausted .clean), place.reader o₃ l₃) :=
        next_blank (by simp [Place.reader, hempty, Blank])
      exact .inr (.inr ⟨u, _, Source.Stops.append_iff.mpr
        ⟨_, emits_of_next (hpart.trans hok), stops_of_next hend⟩,
        fun _ => rfl, hloose, hu⟩)

end WireSchema.Json.Strict
