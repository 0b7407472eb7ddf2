import Mathlib.Data.List.TakeWhile
import WireSchema.Proofs.Json.LenientReading

/-!
# The strict reader reads JSON

Every text that spells a document is read strictly as the tokens of the document. The reader stands
at places: a text, what may come next in it, and the containers that are open. A token leads from one
place to another, and what stands before the token, blanks with at most one separator among them, may
change what is expected.
-/

namespace WireSchema.Json.Strict

open Lenient (Ends AwaitsValue)

/-! ## Strings -/

theorem scanString_quote (seen x : Text) :
    scanString seen (0x22 :: x) = .done seen.reverse x := by
  rw [scanString.eq_def]
  simp

theorem scanString_ascii {b : UInt8} (hc : ¬b < 0x20) (hq : b ≠ 0x22) (hs : b ≠ 0x5C) (hb : b < 0x80)
    (seen x : Text) : scanString seen (b :: x) = scanString (b :: seen) x := by
  rw [scanString.eq_def]
  simp [hc, hq, hs, hb]

theorem not_lt_of_not_ascii {b : UInt8} (hb : ¬b < 0x80) :
    b ≠ 0x22 ∧ b ≠ 0x5C ∧ ¬b < 0x20 := by
  rw [UInt8.lt_iff_toNat_lt, show (0x80 : UInt8).toNat = 128 from rfl] at hb
  refine ⟨?_, ?_, ?_⟩
  · rintro rfl
    exact hb (by decide)
  · rintro rfl
    exact hb (by decide)
  · rw [UInt8.lt_iff_toNat_lt, show (0x20 : UInt8).toNat = 32 from rfl]
    omega

theorem scanString_multibyte {b : UInt8} (hb : ¬b < 0x80) {x after : Text} {c : Char}
    (hm : Text.multibyte? b x = some (c, after)) (seen : Text) :
    scanString seen (b :: x) = scanString ((utf8 c).reverse ++ seen) after := by
  obtain ⟨hq, hs, hc⟩ := not_lt_of_not_ascii hb
  rw [scanString.eq_def]
  simp only [beq_iff_eq, hq, hs, if_false, if_neg hc, if_neg hb]
  split
  · rename_i h
    rw [hm] at h
    obtain ⟨rfl, rfl⟩ := Prod.mk.inj (Option.some.inj h)
    rfl
  · rename_i h
    simp [hm] at h

theorem scanString_stray {b : UInt8} (hb : ¬b < 0x80) {x : Text} (hm : Text.multibyte? b x = none)
    (seen : Text) : scanString seen (b :: x) = scanString ((utf8 '�').reverse ++ seen) x := by
  obtain ⟨hq, hs, hc⟩ := not_lt_of_not_ascii hb
  rw [scanString.eq_def]
  simp only [beq_iff_eq, hq, hs, if_false, if_neg hc, if_neg hb]
  split
  · rename_i h
    simp [hm] at h
  · rfl

theorem scanString_letter {b value : UInt8} (h : escaped? b = some value) (seen x : Text) :
    scanString seen (0x5C :: b :: x) = scanString (value :: seen) x := by
  have hu : b ≠ 0x75 := by
    rintro rfl
    simp [escaped?] at h
  rw [scanString.eq_def]
  simp [hu, h]

theorem scanUnit_hex {a b c d : UInt8}
    (h : ∀ i ∈ [a, b, c, d], (Text.hexValue? i).isSome = true) (x : Text) :
    scanUnit (a :: b :: c :: d :: x) = .done (unit a b c d) x := by
  simp only [List.mem_cons, List.not_mem_nil, or_false, forall_eq_or_imp, forall_eq] at h
  obtain ⟨ha, hb, hc, hd⟩ := h
  simp [scanUnit, ha, hb, hc, hd]

theorem cons_of_scanUnit {x after : Text} {u : Nat} (h : scanUnit x = .done u after) :
    ∃ a b c d, x = a :: b :: c :: d :: after ∧ u = unit a b c d := by
  unfold scanUnit at h
  split at h
  · split at h
    · cases h
      exact ⟨_, _, _, _, rfl, rfl⟩
    · cases h
  · split at h <;> cases h

theorem scanString_unit {x after : Text} {high : Nat} (hu : scanUnit x = .done high after)
    (hl : lowUnit? high after = none) (seen : Text) :
    scanString seen (0x5C :: 0x75 :: x) = scanString ((utf8 (single high)).reverse ++ seen) after := by
  rw [scanString.eq_def]
  simp only [show ((0x5C : UInt8) == 0x22) = false by decide, BEq.rfl, Bool.false_eq_true, if_false,
    if_true]
  split
  · rename_i h
    simp [hu] at h
  · rename_i h
    simp [hu] at h
  · rename_i high' after' h
    rw [hu] at h
    obtain ⟨rfl, rfl⟩ := Scan.done.inj h
    split
    · rename_i h
      simp [hl] at h
    · rfl

theorem scanString_pair {x after rest : Text} {high : Nat} {c : Char}
    (hu : scanUnit x = .done high after) (hl : lowUnit? high after = some (c, rest)) (seen : Text) :
    scanString seen (0x5C :: 0x75 :: x) = scanString ((utf8 c).reverse ++ seen) rest := by
  rw [scanString.eq_def]
  simp only [show ((0x5C : UInt8) == 0x22) = false by decide, BEq.rfl, Bool.false_eq_true, if_false,
    if_true]
  split
  · rename_i h
    simp [hu] at h
  · rename_i h
    simp [hu] at h
  · rename_i high' after' h
    rw [hu] at h
    obtain ⟨rfl, rfl⟩ := Scan.done.inj h
    split
    · rename_i h
      rw [hl] at h
      obtain ⟨rfl, rfl⟩ := Prod.mk.inj (Option.some.inj h)
      rfl
    · rename_i h
      simp [hl] at h

theorem lowUnit?_eq_none {high : Nat} (h : isSurrogate high = false) (x : Text) :
    lowUnit? high x = none := by
  have hp (low : Nat) : pair? high low = none := by
    simp only [isSurrogate, Bool.and_eq_false_iff, decide_eq_false_iff_not] at h
    simp only [pair?, Bool.and_eq_true, decide_eq_true_eq]
    exact if_neg (by omega)
  unfold lowUnit?
  split
  · split
    · simp [hp]
    · rfl
  · rfl

theorem scanString_plain {c : Char} (h : 0x20 ≤ c.toNat) (hq : c ≠ '"') (hs : c ≠ '\\')
    (seen x : Text) : scanString seen (utf8 c ++ x) = scanString ((utf8 c).reverse ++ seen) x := by
  rcases Text.utf8_cases c with ⟨b, he, hb, hn⟩ | ⟨b, tail, he, hb, hm⟩
  · have hne {d : Char} (hd : c ≠ d) (h : d.toNat < 0x80) : b ≠ UInt8.ofNat d.toNat := by
      rintro rfl
      rw [Text.toNat_ofNat_byte (by omega)] at hn
      exact hd (Char.toNat_inj.mp hn.symm)
    have hc : ¬b < 0x20 := by
      rw [UInt8.lt_iff_toNat_lt, hn, show (0x20 : UInt8).toNat = 32 from rfl]
      omega
    rw [utf8, he]
    exact scanString_ascii hc (hne hq (by decide)) (hne hs (by decide)) hb seen x
  · rw [utf8, he, List.cons_append, scanString_multibyte hb (hm x), utf8, he]

theorem scanString_spelled {s x : Text} (h : SpellsString s x) (seen rest : Text) :
    scanString seen (x ++ 0x22 :: rest) = .done (seen.reverse ++ s) rest := by
  induction h generalizing seen with
  | nil => rw [List.nil_append, scanString_quote, List.append_nil]
  | plain h hq hs _ ih => rw [List.append_assoc, scanString_plain h hq hs, ih]; simp
  | letter h _ ih => rw [List.cons_append, List.cons_append, scanString_letter h, ih]; simp
  | unit hx h _ ih =>
    simp only [List.cons_append]
    rw [scanString_unit (scanUnit_hex hx _) (lowUnit?_eq_none h _), ih]
    simp
  | @pair s x a b c d e f g h ch hx hp _ ih =>
    have hhigh : ∀ i ∈ [a, b, c, d], (Text.hexValue? i).isSome = true := fun i hi =>
      hx i (List.mem_append_left [e, f, g, h] hi)
    have hlow : ∀ i ∈ [e, f, g, h], (Text.hexValue? i).isSome = true := fun i hi =>
      hx i (List.mem_append_right [a, b, c, d] hi)
    have hl (y : Text) : lowUnit? (unit a b c d) (0x5C :: 0x75 :: e :: f :: g :: h :: y) =
        some (ch, y) := by
      simp [lowUnit?, scanUnit_hex hlow, hp]
    simp only [List.cons_append]
    rw [scanString_pair (scanUnit_hex hhigh _) (hl _), ih]
    simp
  | @lone s x a b c d hx hs hlone h ih =>
    have hl : lowUnit? (unit a b c d) (x ++ 0x22 :: rest) = none := by
      unfold lowUnit?
      split
      next after heq =>
        split
        next low after' hlow =>
          obtain ⟨e, f, g, i, rfl, rfl⟩ := cons_of_scanUnit hlow
          rw [pair?_of_spelled h hlone heq]
          rfl
        next => rfl
      next => rfl
    simp only [List.cons_append]
    rw [scanString_unit (scanUnit_hex hx _) hl, ih, single, if_pos hs]
    simp
  | stray hb h _ ih =>
    rw [List.cons_append, scanString_stray hb (Text.multibyte?_append_of_none h (by decide) rest), ih]
    simp

/-! ## Numbers -/

theorem scanNumber_append {s s' : NumberState} {x : Text} (h : x.foldlM NumberState.step s = some s')
    (seen rest : Text) : scanNumber s seen (x ++ rest) = scanNumber s' (x.reverse ++ seen) rest := by
  induction x generalizing s seen with
  | nil =>
    obtain rfl : s = s' := by simpa using h
    rfl
  | cons b x ih =>
    rw [List.foldlM_cons] at h
    obtain ⟨s₁, hs, h⟩ := Option.bind_eq_some_iff.mp h
    rw [List.cons_append, scanNumber, hs]
    simp only
    rw [ih h]
    simp

theorem step_eq_none (s : NumberState) {b : UInt8} (h : Lenient.inNumber b = false) :
    s.step b = none := by
  simp only [Lenient.inNumber, Bool.or_eq_false_iff, beq_eq_false_iff_ne] at h
  obtain ⟨⟨⟨⟨⟨hd, hp⟩, he⟩, hE⟩, hplus⟩, hminus⟩ := h
  have hzero : b ≠ 0x30 := by
    rintro rfl
    simp [Text.isDigit] at hd
  cases s <;> simp [NumberState.step, hd, hp, he, hE, hplus, hminus, hzero]

theorem scanNumber_ends {s : NumberState} (hs : s.complete = true) {rest : Text} (hr : Ends rest)
    (seen : Text) : scanNumber s seen rest = .done (.number seen.reverse) rest := by
  cases rest with
  | nil => rw [scanNumber, if_pos hs]
  | cons b rest =>
    rw [scanNumber, step_eq_none s (hr b rfl)]
    simp only
    rw [if_pos hs]

theorem foldlM_digits {s : NumberState} (hs : ∀ b, Text.isDigit b = true → s.step b = some s)
    {ds : Text} (h : ∀ b ∈ ds, Text.isDigit b = true) : ds.foldlM NumberState.step s = some s := by
  induction ds with
  | nil => rfl
  | cons d ds ih =>
    rw [List.foldlM_cons, hs d (h d (by simp))]
    exact ih fun b hb => h b (by simp [hb])

theorem foldlM_append {s s₁ s₂ : NumberState} {x y : Text}
    (hx : x.foldlM NumberState.step s = some s₁) (hy : y.foldlM NumberState.step s₁ = some s₂) :
    (x ++ y).foldlM NumberState.step s = some s₂ := by
  rw [List.foldlM_append, hx]
  exact hy

theorem foldlM_whole {whole : Text} (h : IsDigits whole)
    (hlead : whole.head? = some 0x30 → whole = [0x30]) :
    ∃ s, whole.foldlM NumberState.step .sign = some s ∧ (s = .zero ∨ s = .whole) := by
  obtain ⟨d, ds, rfl⟩ := List.exists_cons_of_ne_nil h.1
  by_cases hd : d = 0x30
  · refine ⟨.zero, ?_, .inl rfl⟩
    rw [hlead (by simp [hd])]
    rfl
  · refine ⟨.whole, ?_, .inr rfl⟩
    have hfirst : NumberState.step .sign d = some .whole := by
      simp [NumberState.step, hd, h.2 d (by simp)]
    rw [List.foldlM_cons, hfirst]
    refine foldlM_digits (fun b hb => ?_) fun b hb => h.2 b (by simp [hb])
    simp [NumberState.step, hb]

theorem foldlM_fraction {s : NumberState} (hs : s = .zero ∨ s = .whole) {x : Text}
    (h : IsFraction x) :
    ∃ s', x.foldlM NumberState.step s = some s' ∧ (s' = .zero ∨ s' = .whole ∨ s' = .fraction) := by
  rcases h with rfl | ⟨ds, rfl, hd⟩
  · exact ⟨s, rfl, by tauto⟩
  · obtain ⟨d, ds, rfl⟩ := List.exists_cons_of_ne_nil hd.1
    refine ⟨.fraction, ?_, by tauto⟩
    have hpoint : s.step 0x2E = some .point := by
      rcases hs with rfl | rfl <;> rfl
    have hfirst : NumberState.step .point d = some .fraction := by
      simp [NumberState.step, hd.2 d (by simp)]
    rw [List.foldlM_cons, hpoint, Option.bind_eq_bind, Option.bind_some, List.foldlM_cons, hfirst]
    refine foldlM_digits (fun b hb => ?_) fun b hb => hd.2 b (by simp [hb])
    simp [NumberState.step, hb]

theorem foldlM_exponent {s : NumberState} (hs : s = .zero ∨ s = .whole ∨ s = .fraction) {x : Text}
    (h : IsExponent x) :
    ∃ s', x.foldlM NumberState.step s = some s' ∧ s'.complete = true := by
  rcases h with rfl | ⟨mark, sign, ds, rfl, hm, hsign, hd⟩
  · refine ⟨s, rfl, ?_⟩
    rcases hs with rfl | rfl | rfl <;> rfl
  · obtain ⟨d, ds, rfl⟩ := List.exists_cons_of_ne_nil hd.1
    refine ⟨.exponent, ?_, rfl⟩
    have hmark : s.step mark = some .mark := by
      rcases hs with rfl | rfl | rfl <;> rcases hm with rfl | rfl <;> rfl
    have hdigits : ds.foldlM NumberState.step .exponent = some .exponent := by
      refine foldlM_digits (fun b hb => ?_) fun b hb => hd.2 b (by simp [hb])
      simp [NumberState.step, hb]
    have hfirst := hd.2 d (by simp)
    have hne {c : UInt8} (hc : Text.isDigit c = false) : d ≠ c := by
      rintro rfl
      simp [hfirst] at hc
    have htail : (sign ++ d :: ds).foldlM NumberState.step .mark = some .exponent := by
      rcases hsign with rfl | rfl | rfl
      · have hstep : NumberState.step .mark d = some .exponent := by
          simp [NumberState.step, hfirst, hne (c := 0x2B) rfl, hne (c := 0x2D) rfl]
        rw [List.nil_append, List.foldlM_cons, hstep]
        exact hdigits
      all_goals
        have hstep : NumberState.step .markSign d = some .exponent := by
          simp [NumberState.step, hfirst]
        show (d :: ds).foldlM NumberState.step .markSign = some .exponent
        rw [List.foldlM_cons, hstep]
        exact hdigits
    rw [List.cons_append, List.foldlM_cons, hmark]
    exact htail

theorem scanNumber_spelled {whole fraction exponent rest : Text} (hw : IsDigits whole)
    (hlead : whole.head? = some 0x30 → whole = [0x30]) (hf : IsFraction fraction)
    (he : IsExponent exponent) (hr : Ends rest) (seen : Text) :
    scanNumber .sign seen (whole ++ fraction ++ exponent ++ rest) =
      .done (.number (seen.reverse ++ (whole ++ fraction ++ exponent))) rest := by
  obtain ⟨s₁, h₁, hs₁⟩ := foldlM_whole hw hlead
  obtain ⟨s₂, h₂, hs₂⟩ := foldlM_fraction hs₁ hf
  obtain ⟨s₃, h₃, hs₃⟩ := foldlM_exponent hs₂ he
  rw [scanNumber_append (foldlM_append (foldlM_append h₁ h₂) h₃), scanNumber_ends hs₃ hr]
  simp

theorem scanScalar_digit {d : UInt8} (hd : Text.isDigit d = true) (rest : Text) :
    scanScalar d rest = scanNumber .sign [] (d :: rest) := by
  have hne {c : UInt8} (hc : Text.isDigit c = false) : d ≠ c := by
    rintro rfl
    simp [hd] at hc
  unfold scanScalar
  rw [if_neg (by simpa using hne (c := 0x22) rfl), if_neg (by simpa using hne (c := 0x2D) rfl),
    scanNumber]
  by_cases hzero : d = 0x30
  · simp [hzero, NumberState.step]
  · simp [hzero, hd, NumberState.step]

/-! ## Scalars -/

/-- The scalar is scanned from the text that spells it. -/
def Scans (t : Tree) : Prop :=
  ∀ {x rest : Text}, t.Spells x → Ends rest →
    ∃ b tail, x = b :: tail ∧ scanScalar b (tail ++ rest) = .done t.head rest

theorem scans_null : Scans .null := by
  rintro _ rest rfl -
  exact ⟨0x6E, "ull", rfl, rfl⟩

theorem scans_bool (b : Bool) : Scans (.bool b) := by
  rintro _ rest rfl -
  cases b with
  | true => exact ⟨0x74, "rue", rfl, rfl⟩
  | false => exact ⟨0x66, "alse", rfl, rfl⟩

theorem scanScalar_string {s body : Text} (h : SpellsString s body) (rest : Text) :
    scanScalar 0x22 (body ++ 0x22 :: rest) = .done (.string s) rest := by
  rw [scanScalar, if_pos (by rfl), scanString_spelled h [] rest]
  rfl

theorem scans_string (s : Text) : Scans (.string s) := by
  rintro _ rest ⟨body, rfl, hs⟩ -
  refine ⟨0x22, body ++ [0x22], rfl, ?_⟩
  rw [List.append_assoc]
  exact scanScalar_string hs rest

theorem scans_number (literal : Text) : Scans (.number literal) := by
  rintro _ rest ⟨rfl, sign, whole, fraction, exponent, rfl, hsign, hw, hlead, hf, he⟩ hr
  rcases hsign with rfl | rfl
  · obtain ⟨d, ds, rfl⟩ := List.exists_cons_of_ne_nil hw.1
    refine ⟨d, ds ++ fraction ++ exponent, rfl, ?_⟩
    rw [scanScalar_digit (hw.2 d (by simp))]
    exact scanNumber_spelled hw hlead hf he hr []
  · refine ⟨0x2D, whole ++ fraction ++ exponent, rfl, ?_⟩
    exact scanNumber_spelled hw hlead hf he hr [0x2D]

theorem ne_of_scanScalar {b : UInt8} {x rest : Text} {t : Token} (h : scanScalar b x = .done t rest)
    {c : UInt8} (hc : c ∈ [0x20, 0x09, 0x0A, 0x0D, 0x2C, 0x3A, 0x5B, 0x7B, 0x5D, 0x7D]) : b ≠ c := by
  rintro rfl
  simp only [List.mem_cons, List.not_mem_nil, or_false] at hc
  rcases hc with rfl | rfl | rfl | rfl | rfl | rfl | rfl | rfl | rfl | rfl <;>
    simp [scanScalar, Text.isDigit] at h

/-! ## Places -/

/-- What the reader knows between two tokens, but for the numbers of bytes. -/
structure Place where
  text : Text
  expect : Expectation
  outer : List Expectation
  nesting : Nesting

namespace Place

def Holds (p : Place) (s : Source) : Prop :=
  ∃ offset last, s = .strict
    { rest := p.text, offset, expect := p.expect, outer := p.outer, nesting := p.nesting, last }

/-- At the first place the reader emits the tokens, and then it is at the second one. -/
def Leads (p : Place) (ts : List Token) (q : Place) : Prop :=
  ∀ s, p.Holds s → ∃ s', s.Emits ts s' ∧ q.Holds s'

theorem Leads.append {p q r : Place} {ts us : List Token} (h₁ : p.Leads ts q) (h₂ : q.Leads us r) :
    p.Leads (ts ++ us) r := by
  intro s hs
  obtain ⟨s₁, he₁, hs₁⟩ := h₁ s hs
  obtain ⟨s₂, he₂, hs₂⟩ := h₂ s₁ hs₁
  exact ⟨s₂, he₁.append he₂, hs₂⟩

end Place

/-- What may stand before a token, and what is expected after it: blanks, or blanks around one
separator. -/
inductive Gap : Expectation → Text → Expectation → Prop
  | blank {x : Text} (e : Expectation) : Blank x → Gap e x e
  | separator {x y : Text} {sep : UInt8} {e e' : Expectation} :
      Blank x → Blank y → afterSeparator e sep = some e' → Gap e (x ++ sep :: y) e'

/-- May a token begin with the byte? -/
def Begins (b : UInt8) : Prop := isBlank b = false ∧ b ≠ 0x2C ∧ b ≠ 0x3A

theorem dropWhile_isBlank {x : Text} (hx : Blank x) {b : UInt8} (hb : isBlank b = false) (y : Text) :
    (x ++ b :: y).dropWhile isBlank = b :: y := by
  have hall : ∀ c ∈ x, isBlank c = true := by
    intro c hc
    rcases hx c hc with rfl | rfl | rfl | rfl <;> rfl
  rw [List.dropWhile_append_of_pos hall, List.dropWhile_cons_of_neg (by simp [hb])]

theorem dropWhile_blank {x : Text} (h : Blank x) : x.dropWhile isBlank = [] := by
  rw [List.dropWhile_eq_nil_iff]
  intro b hb
  rcases h b hb with rfl | rfl | rfl | rfl <;> rfl

theorem skipBlanks_eq {s : Strict} {x y : Text} {b : UInt8} (hrest : s.rest = x ++ b :: y)
    (hx : Blank x) (hb : isBlank b = false) :
    ∃ offset, s.skipBlanks = { s with rest := b :: y, offset } := by
  simp only [skipBlanks, hrest, dropWhile_isBlank hx hb]
  exact ⟨_, rfl⟩

theorem separator_of_afterSeparator {e e' : Expectation} {sep : UInt8}
    (h : afterSeparator e sep = some e') : sep = 0x2C ∨ sep = 0x3A := by
  unfold afterSeparator at h
  split at h
  · exact .inr rfl
  · exact .inl rfl
  · exact .inl rfl
  · simp at h

theorem next_eq {s : Strict} {gap rest : Text} {b : UInt8} {e : Expectation}
    (hrest : s.rest = gap ++ b :: rest) (hgap : Gap s.expect gap e) (hb : Begins b) :
    ∃ offset, s.next = ({ s with rest := b :: rest, offset, expect := e } : Strict).tokenAt b rest := by
  obtain ⟨hblank, hcomma, hcolon⟩ := hb
  have hnone : (b == 0x2C || b == 0x3A) = false := by simp [hcomma, hcolon]
  have hhead (y : Text) : (b :: y).dropWhile isBlank = b :: y :=
    List.dropWhile_cons_of_neg (by simp [hblank])
  unfold next
  cases hgap with
  | blank _ hx =>
    obtain ⟨offset, hskip⟩ := skipBlanks_eq hrest hx hblank
    refine ⟨offset, ?_⟩
    simp only [hskip, hhead, hnone, Bool.false_eq_true, if_false]
  | @separator x y sep _ _ hx hy hsep =>
    have hsepBlank : isBlank sep = false := by
      rcases separator_of_afterSeparator hsep with rfl | rfl <;> rfl
    have hsome : (sep == 0x2C || sep == 0x3A) = true := by
      rcases separator_of_afterSeparator hsep with rfl | rfl <;> rfl
    rw [List.append_assoc, List.cons_append] at hrest
    obtain ⟨offset, hskip⟩ := skipBlanks_eq hrest hx hsepBlank
    obtain ⟨offset', hskip'⟩ := skipBlanks_eq
      (s := { s with rest := y ++ b :: rest, offset := offset + 1, expect := e }) rfl hy hblank
    refine ⟨offset', ?_⟩
    simp only [hskip, List.dropWhile_cons_of_neg (p := isBlank) (a := sep) (by simp [hsepBlank]),
      hsome, if_true, hsep, hskip', hhead, hnone, Bool.false_eq_true, if_false]

theorem next_blank {s : Strict} (h : Blank s.rest) : s.next = (.error s.ending, s) := by
  have hskip : s.skipBlanks = s := by simp [skipBlanks, dropWhile_blank h]
  simp only [next, hskip, dropWhile_blank h]

theorem next_strict {s s' : Strict} {t : Token} (h : s.next = (.ok t, s')) :
    (Source.strict s).next = (.ok ⟨t, s'.last⟩, .strict s') := by
  rw [Source.next, h]

/-- A token that is handed on as soon as the bytes before it are passed. -/
theorem leads_emit {gap rest rest' : Text} {b : UInt8} {e e₁ e₂ : Expectation}
    {outer outer' : List Expectation} {n : Nesting} (token : Token) (hgap : Gap e gap e₁)
    (hb : Begins b)
    (ht : ∀ s : Strict, s.expect = e₁ → s.outer = outer → s.fault = none → s.broken = none →
      s.tokenAt b rest = s.emit token rest' e₂ outer') :
    Place.Leads ⟨gap ++ b :: rest, e, outer, n⟩ [(n.take token).2]
      ⟨rest', e₂, outer', (n.take token).1⟩ := by
  rintro _ ⟨offset, last, rfl⟩
  obtain ⟨offset', hnext⟩ := next_eq
    (s := { rest := gap ++ b :: rest, offset, expect := e, outer, nesting := n, last }) rfl hgap hb
  rw [ht _ rfl rfl rfl rfl, emit] at hnext
  exact ⟨_, .cons (next_strict hnext) (.nil _), _, _, rfl⟩

section Tokens

variable {gap rest : Text} {e e' around : Expectation} {outer : List Expectation} {n : Nesting}

theorem leads_beginArray (hgap : Gap e gap e') (he : e'.allowsValue = true) :
    Place.Leads ⟨gap ++ 0x5B :: rest, e, outer, n⟩ [.beginArray]
      ⟨rest, .firstElement, e' :: outer, .array :: n⟩ := by
  refine leads_emit .beginArray hgap ⟨rfl, by decide, by decide⟩ ?_
  intro s hs ho _ _
  rw [tokenAt, if_pos (by rfl), hs, if_pos he, ho]

theorem leads_beginObject (hgap : Gap e gap e') (he : e'.allowsValue = true) :
    Place.Leads ⟨gap ++ 0x7B :: rest, e, outer, n⟩ [.beginObject]
      ⟨rest, .firstKey, e' :: outer, .object true :: n⟩ := by
  refine leads_emit .beginObject hgap ⟨rfl, by decide, by decide⟩ ?_
  intro s hs ho _ _
  rw [tokenAt, if_neg (by decide), if_pos (by rfl), hs, if_pos he, ho]

theorem leads_endArray (hx : Blank gap) (he : e = .firstElement ∨ e = .elementEnd) :
    Place.Leads ⟨gap ++ 0x5D :: rest, e, around :: outer, .array :: n⟩ [.endArray]
      ⟨rest, around.afterValue, outer, n.valueDone⟩ := by
  refine leads_emit .endArray (.blank e hx) ⟨rfl, by decide, by decide⟩ ?_
  intro s hs ho _ _
  rw [tokenAt, if_neg (by decide), if_neg (by decide), if_pos (by rfl), hs,
    if_pos (by rcases he with rfl | rfl <;> rfl), close, ho]

theorem leads_endObject (hx : Blank gap) (he : e = .firstKey ∨ e = .memberEnd) :
    Place.Leads ⟨gap ++ 0x7D :: rest, e, around :: outer, .object true :: n⟩ [.endObject]
      ⟨rest, around.afterValue, outer, n.valueDone⟩ := by
  refine leads_emit .endObject (.blank e hx) ⟨rfl, by decide, by decide⟩ ?_
  intro s hs ho _ _
  rw [tokenAt, if_neg (by decide), if_neg (by decide), if_neg (by decide), if_pos (by rfl), hs,
    if_pos (by rcases he with rfl | rfl <;> rfl), close, ho]

theorem scalar_eq {s : Strict} {b : UInt8} {x : Text} {token : Token} (hf : s.fault = none)
    (hb : s.broken = none) (h : scanScalar b x = .done token rest) (e : Expectation) :
    s.scalar b x e = s.emit token rest e s.outer := by
  simp only [scalar, hb, h, hf]

theorem begins_of_scanScalar {b : UInt8} {x : Text} {token : Token}
    (h : scanScalar b x = .done token rest) : Begins b := by
  refine ⟨?_, ne_of_scanScalar h (by simp), ne_of_scanScalar h (by simp)⟩
  simp only [isBlank, Bool.or_eq_false_iff, beq_eq_false_iff_ne]
  exact ⟨⟨⟨ne_of_scanScalar h (by simp), ne_of_scanScalar h (by simp)⟩,
    ne_of_scanScalar h (by simp)⟩, ne_of_scanScalar h (by simp)⟩

theorem leads_scalar {b : UInt8} {x : Text} {token : Token} (hgap : Gap e gap e')
    (he : e'.allowsValue = true) (h : scanScalar b x = .done token rest) :
    Place.Leads ⟨gap ++ b :: x, e, outer, n⟩ [(n.take token).2]
      ⟨rest, e'.afterValue, outer, (n.take token).1⟩ := by
  refine leads_emit token hgap (begins_of_scanScalar h) ?_
  intro s hs ho hf hb
  -- where a value may come, no key may, so a quote begins a string
  have hkey : (e' == .firstKey || e' == .key) = false := by
    cases e' <;> simp_all [Expectation.allowsValue]
  have hne {c : UInt8} (hc : c ∈ [0x5B, 0x7B, 0x5D, 0x7D]) : ¬(b == c) = true := by
    simpa using ne_of_scanScalar h (List.mem_append_right [0x20, 0x09, 0x0A, 0x0D, 0x2C, 0x3A] hc)
  rw [tokenAt, if_neg (hne (by simp)), if_neg (hne (by simp)), if_neg (hne (by simp)),
    if_neg (hne (by simp)), hs, hkey, Bool.and_false, if_neg (by decide), if_pos he,
    scalar_eq hf hb h, ho]

theorem leads_key {name key : Text} (hgap : Gap e gap e') (he : e' = .firstKey ∨ e' = .key)
    (h : SpellsQuoted name key) :
    Place.Leads ⟨gap ++ (key ++ rest), e, outer, .object true :: n⟩ [.key name]
      ⟨rest, .colon, outer, .object false :: n⟩ := by
  obtain ⟨body, rfl, hbody⟩ := h
  have hscan := scanScalar_string hbody rest
  rw [List.cons_append, List.append_assoc, List.singleton_append]
  refine leads_emit (.string name) hgap ⟨rfl, by decide, by decide⟩ ?_
  intro s hs ho hf hb
  rw [tokenAt, if_neg (by decide), if_neg (by decide), if_neg (by decide), if_neg (by decide), hs,
    if_pos (by rcases he with rfl | rfl <;> rfl), scalar_eq hf hb hscan, ho]

end Tokens

/-! ## Documents -/

section Documents

variable {gap rest : Text} {e e' around : Expectation} {outer : List Expectation} {n : Nesting}

/-- The text of a value, where one may come, is read as its tokens. -/
def ReadsTree (t : Tree) : Prop :=
  ∀ {gap x rest : Text} {e e' : Expectation} {outer : List Expectation} {n : Nesting}, Gap e gap e' →
    e'.allowsValue = true → t.Spells x → AwaitsValue n → Ends rest →
    Place.Leads ⟨gap ++ (x ++ rest), e, outer, n⟩ t.tokens ⟨rest, e'.afterValue, outer, n.valueDone⟩

def ReadsMoreItems (items : List Tree) : Prop :=
  ∀ {x rest : Text} {around : Expectation} {outer : List Expectation} {n : Nesting},
    Tree.SpellsMoreItems items x →
    Place.Leads ⟨x ++ 0x5D :: rest, .elementEnd, around :: outer, .array :: n⟩
      (Tree.itemTokens items ++ [.endArray]) ⟨rest, around.afterValue, outer, n.valueDone⟩

def ReadsMoreMembers (members : List (Text × Tree)) : Prop :=
  ∀ {x rest : Text} {around : Expectation} {outer : List Expectation} {n : Nesting},
    Tree.SpellsMoreMembers members x →
    Place.Leads ⟨x ++ 0x7D :: rest, .memberEnd, around :: outer, .object true :: n⟩
      (Tree.memberTokens members ++ [.endObject]) ⟨rest, around.afterValue, outer, n.valueDone⟩

theorem leads_item {t : Tree} {items : List Tree} {y after : Text} (ht : ReadsTree t)
    (hi : ReadsMoreItems items) (hgap : Gap e gap e') (he : e' = .firstElement ∨ e' = .element)
    (hy : t.Spells y) (ha : Tree.SpellsMoreItems items after) :
    Place.Leads ⟨gap ++ (y ++ after) ++ 0x5D :: rest, e, around :: outer, .array :: n⟩
      (Tree.itemTokens (t :: items) ++ [.endArray]) ⟨rest, around.afterValue, outer, n.valueDone⟩ := by
  have hvalue : e'.allowsValue = true := by rcases he with rfl | rfl <;> rfl
  have hafter : e'.afterValue = .elementEnd := by rcases he with rfl | rfl <;> rfl
  have htree : Place.Leads ⟨gap ++ (y ++ (after ++ 0x5D :: rest)), e, around :: outer, .array :: n⟩
      t.tokens ⟨after ++ 0x5D :: rest, e'.afterValue, around :: outer, .array :: n⟩ :=
    ht hgap hvalue hy (by simp [AwaitsValue]) (Lenient.ends_moreItems ha)
  rw [hafter] at htree
  simpa [Tree.itemTokens, Tree.tokens] using htree.append (hi ha)

theorem leads_member {name : Text} {t : Tree} {members : List (Text × Tree)}
    {key colon after y more : Text} (ht : ReadsTree t) (hm : ReadsMoreMembers members)
    (hgap : Gap e gap e') (he : e' = .firstKey ∨ e' = .key) (hk : SpellsQuoted name key)
    (hc : Blank colon) (ha : Blank after) (hy : t.Spells y)
    (hmore : Tree.SpellsMoreMembers members more) :
    Place.Leads ⟨gap ++ (key ++ (colon ++ 0x3A :: (after ++ (y ++ more)))) ++ 0x7D :: rest, e,
        around :: outer, .object true :: n⟩
      (Tree.memberTokens ((name, t) :: members) ++ [.endObject])
      ⟨rest, around.afterValue, outer, n.valueDone⟩ := by
  have hkey : Place.Leads
      ⟨gap ++ (key ++ ((colon ++ 0x3A :: after) ++ (y ++ (more ++ 0x7D :: rest)))), e,
        around :: outer, .object true :: n⟩ [.key name]
      ⟨(colon ++ 0x3A :: after) ++ (y ++ (more ++ 0x7D :: rest)), .colon, around :: outer,
        .object false :: n⟩ := leads_key hgap he hk
  have hcolon : Gap .colon (colon ++ 0x3A :: after) .member := .separator hc ha rfl
  have htree : Place.Leads ⟨(colon ++ 0x3A :: after) ++ (y ++ (more ++ 0x7D :: rest)), .colon,
        around :: outer, .object false :: n⟩ t.tokens
      ⟨more ++ 0x7D :: rest, .memberEnd, around :: outer, .object true :: n⟩ :=
    ht hcolon rfl hy (by simp [AwaitsValue]) (Lenient.ends_moreMembers hmore)
  simpa [Tree.memberTokens, Tree.tokens] using hkey.append (htree.append (hm hmore))

theorem readsTree_array {items : List Tree}
    (h : ∀ t rest, items = t :: rest → ReadsTree t ∧ ReadsMoreItems rest) :
    ReadsTree (.array items) := by
  rintro gap _ rest e e' outer n hgap he ⟨body, rfl, hbody⟩ - -
  rw [List.cons_append, List.append_assoc, List.singleton_append]
  refine (leads_beginArray hgap he).append ?_
  cases items with
  | nil => exact leads_endArray hbody (.inl rfl)
  | cons t items =>
    obtain ⟨ht, hi⟩ := h t items rfl
    obtain ⟨before, y, after, rfl, hb, hy, ha⟩ := hbody
    exact leads_item ht hi (.blank _ hb) (.inl rfl) hy ha

theorem readsTree_object {members : List (Text × Tree)}
    (h : ∀ name t rest, members = (name, t) :: rest → ReadsTree t ∧ ReadsMoreMembers rest) :
    ReadsTree (.object members) := by
  rintro gap _ rest e e' outer n hgap he ⟨body, rfl, hbody⟩ - -
  rw [List.cons_append, List.append_assoc, List.singleton_append]
  refine (leads_beginObject hgap he).append ?_
  cases members with
  | nil => exact leads_endObject hbody (.inl rfl)
  | cons m members =>
    obtain ⟨ht, hm⟩ := h m.1 m.2 members rfl
    obtain ⟨before, key, colon, after, y, more, rfl, hb, hk, hc, ha, hy, hmore⟩ := hbody
    exact leads_member ht hm (.blank _ hb) (.inl rfl) hk hc ha hy hmore

theorem readsMoreItems_cons {t : Tree} {items : List Tree} (ht : ReadsTree t)
    (hi : ReadsMoreItems items) : ReadsMoreItems (t :: items) := by
  rintro _ rest around outer n ⟨blank, before, y, after, rfl, hb, ha, hy, hmore⟩
  have hgap : Gap .elementEnd (blank ++ 0x2C :: before) .element := .separator hb ha rfl
  simpa using leads_item ht hi hgap (.inr rfl) hy hmore

theorem readsMoreMembers_cons {name : Text} {t : Tree} {members : List (Text × Tree)}
    (ht : ReadsTree t) (hm : ReadsMoreMembers members) : ReadsMoreMembers ((name, t) :: members) := by
  rintro _ rest around outer n
    ⟨blank, before, key, colon, after, y, more, rfl, hb, hbefore, hk, hc, ha, hy, hmore⟩
  have hgap : Gap .memberEnd (blank ++ 0x2C :: before) .key := .separator hb hbefore rfl
  simpa using leads_member ht hm hgap (.inr rfl) hk hc ha hy hmore

theorem readsTree_scalar {t : Tree} (ht : t.tail = []) (hscan : Scans t)
    (htake : ∀ {n : Nesting}, AwaitsValue n → n.take t.head = (n.valueDone, t.head)) :
    ReadsTree t := by
  intro gap x rest e e' outer n hgap he hx hn hr
  obtain ⟨b, tail, rfl, h⟩ := hscan hx hr
  have hlead : Place.Leads ⟨gap ++ b :: (tail ++ rest), e, outer, n⟩ [(n.take t.head).2]
      ⟨rest, e'.afterValue, outer, (n.take t.head).1⟩ := leads_scalar hgap he h
  rwa [htake hn, ← ht] at hlead

mutual

/-- Every text that spells a value is read as its tokens. -/
theorem readsTree : ∀ t : Tree, ReadsTree t
  | .array [] => readsTree_array (by simp)
  | .array (t :: items) => readsTree_array fun _ _ h => by
    obtain ⟨rfl, rfl⟩ := List.cons.inj h
    exact ⟨readsTree t, readsMoreItems items⟩
  | .object [] => readsTree_object (by simp)
  | .object ((name, t) :: members) => readsTree_object fun _ _ _ h => by
    obtain ⟨hm, rfl⟩ := List.cons.inj h
    obtain ⟨rfl, rfl⟩ := Prod.mk.inj hm
    exact ⟨readsTree t, readsMoreMembers members⟩
  | .null => readsTree_scalar rfl scans_null fun _ => rfl
  | .bool b => readsTree_scalar rfl (scans_bool b) fun _ => rfl
  | .number literal => readsTree_scalar rfl (scans_number literal) fun _ => rfl
  | .string s => readsTree_scalar (t := .string s) rfl (scans_string s) fun hn =>
      Lenient.take_of_awaitsValue hn s

theorem readsMoreItems : ∀ items : List Tree, ReadsMoreItems items
  | [] => fun h => leads_endArray h (.inr rfl)
  | t :: items => readsMoreItems_cons (readsTree t) (readsMoreItems items)

theorem readsMoreMembers : ∀ members : List (Text × Tree), ReadsMoreMembers members
  | [] => fun h => leads_endObject h (.inr rfl)
  | (_, t) :: members => readsMoreMembers_cons (readsTree t) (readsMoreMembers members)

end

end Documents

end WireSchema.Json.Strict
