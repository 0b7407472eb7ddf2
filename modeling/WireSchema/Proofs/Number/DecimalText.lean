import Mathlib.Algebra.Order.Ring.Int
import Mathlib.Data.List.TakeDrop
import WireSchema.Number.Decimal
import WireSchema.Proofs.Number.Digits

/-!
# Decimals in text

A decimal is read back from its text as the same number, if its exponent fits in 32 bits. The text
drops trailing zeros, so coefficient and exponent may come back different.
-/

namespace WireSchema.Decimal

open Text
open Json (IsDigits IsNumber)

def value (d : Decimal) : ℚ := d.coefficient * 10 ^ d.exponent

def withSign (negative : Bool) (n : Nat) : Int := if negative then -(n : Int) else n

/-! ## Reading -/

theorem integer?_signed (negative : Bool) {t : Text} (h : IsDigits t) :
    integer? (signed negative t) = some (withSign negative (digitsValue t)) := by
  have hall : t.all isDigit = true := List.all_eq_true.mpr h.2
  have hne : t.isEmpty = false := by simpa using h.1
  simp only [integer?, Integer.splitSign_isDigits negative h, hall, hne]
  cases negative <;> rfl

theorem span_eq_of_all {p : UInt8 → Bool} {t : Text} (h : ∀ b ∈ t, p b = true) :
    t.span p = (t, []) := by
  rw [List.span_eq_takeWhile_dropWhile, List.takeWhile_eq_self_iff.mpr h,
    List.dropWhile_eq_nil_iff.mpr h]

theorem span_append_cons {p : UInt8 → Bool} {t u : Text} {b : UInt8} (h : ∀ b ∈ t, p b = true)
    (hb : p b = false) : (t ++ b :: u).span p = (t, b :: u) := by
  rw [List.span_eq_takeWhile_dropWhile, List.takeWhile_append_of_pos h,
    List.dropWhile_append_of_pos h]
  simp [hb]

theorem mem_signed_ne {negative : Bool} {t : Text} (h : ∀ b ∈ t, isDigit b = true) {c : UInt8}
    (hc : isDigit c = false) (hm : c ≠ 0x2D) : ∀ b ∈ signed negative t, b ≠ c := by
  intro b hb
  cases negative with
  | false => exact ne_of_isDigit (h b hb) hc
  | true =>
    rcases List.mem_cons.mp hb with rfl | hb
    · exact hm.symm
    · exact ne_of_isDigit (h b hb) hc

theorem parse_whole (negative : Bool) {whole : Text} (h : IsDigits whole) :
    parse (signed negative whole) = .ok ⟨withSign negative (digitsValue whole), 0⟩ := by
  have hmark : (signed negative whole).span (fun b => !(b == 0x65 || b == 0x45)) =
      (signed negative whole, []) := by
    refine span_eq_of_all fun b hb => ?_
    have he := mem_signed_ne h.2 (c := 0x65) rfl (by decide) b hb
    have hE := mem_signed_ne h.2 (c := 0x45) rfl (by decide) b hb
    simp [he, hE]
  have hpoint : (signed negative whole).span (fun b => b != 0x2E) = (signed negative whole, []) := by
    refine span_eq_of_all fun b hb => ?_
    simpa using mem_signed_ne h.2 (c := 0x2E) rfl (by decide) b hb
  simp only [parse, hmark, readMantissa, hpoint, integer?_signed negative h, pure, bind, Except.pure,
    Except.bind]
  rfl

theorem parse_fraction (negative : Bool) {whole ds : Text} (hw : IsDigits whole) (hd : IsDigits ds)
    (hfits : exponentFits (-(ds.length : Int)) = true) :
    parse (signed negative (whole ++ 0x2E :: ds)) =
      .ok ⟨withSign negative (digitsValue (whole ++ ds)), -(ds.length : Int)⟩ := by
  have hall : IsDigits (whole ++ ds) :=
    ⟨by simp [hw.1], fun b hb => (List.mem_append.mp hb).elim (hw.2 b) (hd.2 b)⟩
  have hmark : (signed negative (whole ++ 0x2E :: ds)).span (fun b => !(b == 0x65 || b == 0x45)) =
      (signed negative (whole ++ 0x2E :: ds), []) := by
    refine span_eq_of_all fun b hb => ?_
    rw [signed_append] at hb
    rcases List.mem_append.mp hb with hb | hb
    · have he := mem_signed_ne hw.2 (c := 0x65) rfl (by decide) b hb
      have hE := mem_signed_ne hw.2 (c := 0x45) rfl (by decide) b hb
      simp [he, hE]
    · rcases List.mem_cons.mp hb with rfl | hb
      · rfl
      · have he := ne_of_isDigit (hd.2 b hb) (c := 0x65) rfl
        have hE := ne_of_isDigit (hd.2 b hb) (c := 0x45) rfl
        simp [he, hE]
  have hpoint : (signed negative (whole ++ 0x2E :: ds)).span (fun b => b != 0x2E) =
      (signed negative whole, 0x2E :: ds) := by
    rw [signed_append]
    refine span_append_cons (fun b hb => ?_) rfl
    simpa using mem_signed_ne hw.2 (c := 0x2E) rfl (by decide) b hb
  have hone : List.contains ds 0x2E = false := by
    rw [← Bool.not_eq_true, List.contains_iff_mem]
    exact fun hb => ne_of_isDigit (hd.2 _ hb) (c := 0x2E) rfl rfl
  simp only [parse, hmark, readMantissa, hpoint, hone, Bool.false_eq_true, if_false, ← signed_append,
    integer?_signed negative hall, pure, bind, Except.pure, Except.bind, zero_sub, hfits, if_true]

/-! ## Writing -/

theorem isDigit_padded (n k : Nat) : ∀ b ∈ List.replicate k 0x30 ++ ofNat n, isDigit b = true := by
  intro b hb
  rcases List.mem_append.mp hb with hb | hb
  · rw [List.eq_of_mem_replicate hb]
    rfl
  · exact (isDigits_ofNat n).2 b hb

theorem whole_padded {n places : Nat} (hp : 0 < places) {padded : Text}
    (hpadded : List.replicate (places + 1 - (ofNat n).length) 0x30 ++ ofNat n = padded)
    (hhead : (padded.take (padded.length - places)).head? = some 0x30) :
    padded.take (padded.length - places) = [0x30] := by
  have hlen : padded.length = places + 1 - (ofNat n).length + (ofNat n).length := by
    rw [← hpadded, List.length_append, List.length_replicate]
  by_cases hshort : (ofNat n).length ≤ places
  · obtain ⟨k, hk⟩ : ∃ k, places + 1 - (ofNat n).length = k + 1 := ⟨places - (ofNat n).length, by omega⟩
    have hone : padded.length - places = 1 := by omega
    rw [hone, ← hpadded, hk]
    rfl
  · have hnil : places + 1 - (ofNat n).length = 0 := by omega
    rw [hnil] at hpadded
    have hpos : padded.length - places ≠ 0 := by omega
    rw [List.head?_take, if_neg hpos, ← hpadded] at hhead
    rw [head_ofNat hhead] at hshort
    exact absurd hp (by simpa [ofNat_of_lt] using hshort)

/-- The positional digits of `n / 10 ^ places`: a whole part without leading zeros, and a fraction of
which `z` zeros were dropped. -/
theorem positional_eq (n : Nat) {places : Nat} (hp : 0 < places) :
    ∃ whole kept z, positional n places = (if kept = [] then whole else whole ++ 0x2E :: kept) ∧
      IsDigits whole ∧ (whole.head? = some 0x30 → whole = [0x30]) ∧
      (∀ b ∈ kept, isDigit b = true) ∧ kept.length + z = places ∧
      n = digitsValue (whole ++ kept) * 10 ^ z := by
  have hall := isDigit_padded n (places + 1 - (ofNat n).length)
  have hvalue : digitsValue (List.replicate (places + 1 - (ofNat n).length) 0x30 ++ ofNat n) = n := by
    rw [digitsValue_replicate_append, digitsValue_ofNat]
  obtain ⟨padded, hpadded⟩ : ∃ padded, List.replicate (places + 1 - (ofNat n).length) 0x30 ++ ofNat n =
    padded := ⟨_, rfl⟩
  have hwhole := whole_padded hp hpadded
  have hlen : places + 1 ≤ padded.length := by
    rw [← hpadded, List.length_append, List.length_replicate]
    omega
  rw [hpadded] at hall hvalue
  obtain ⟨w, hw⟩ : ∃ w, padded.length - places = w := ⟨_, rfl⟩
  obtain ⟨z, hz⟩ := exists_trim (padded.drop w)
  obtain ⟨kept, hkept⟩ : ∃ kept, trimZeros (padded.drop w) = kept := ⟨_, rfl⟩
  rw [← trimZeros, hkept] at hz
  rw [hw] at hwhole
  refine ⟨padded.take w, kept, z, ?_, ⟨?_, ?_⟩, hwhole, ?_, ?_, ?_⟩
  · simp only [positional, hpadded, hw, hkept, List.isEmpty_iff]
    split_ifs
    · rfl
    · rw [List.append_assoc]
      rfl
  · rw [← List.length_pos_iff, List.length_take]
    omega
  · exact fun b hb => hall b (List.mem_of_mem_take hb)
  · intro b hb
    refine hall b (List.mem_of_mem_drop (i := w) ?_)
    rw [hz]
    exact List.mem_append_left _ hb
  · have := congrArg List.length hz
    rw [List.length_drop, List.length_append, List.length_replicate] at this
    omega
  · rw [← digitsValue_append_replicate, List.append_assoc, ← hz, List.take_append_drop, hvalue]

theorem withSign_natAbs (n : Int) : withSign (n < 0) n.natAbs = n := by
  unfold withSign
  split_ifs with h
  · simp only [decide_eq_true_eq] at h
    omega
  · simp only [decide_eq_true_eq] at h
    omega

theorem withSign_mul (negative : Bool) (n k : Nat) :
    withSign negative (n * k) = withSign negative n * k := by
  cases negative <;> simp [withSign]

theorem ofInt_eq_signed (n : Int) : ofInt n = signed (n < 0) (ofNat n.natAbs) := by
  cases n with
  | ofNat k => simp [ofInt, signed]
  | negSucc k => simp [ofInt, signed]

theorem toText_eq (d : Decimal) :
    ∃ whole kept, d.toText =
        signed (d.coefficient < 0) (if kept = [] then whole else whole ++ 0x2E :: kept) ∧
      IsDigits whole ∧ (whole.head? = some 0x30 → whole = [0x30]) ∧
      (∀ b ∈ kept, isDigit b = true) ∧ (kept = [] ∨ d.exponent ≤ -(kept.length : Int)) ∧
      d.value = withSign (d.coefficient < 0) (digitsValue (whole ++ kept)) * 10 ^ (-(kept.length : Int)) := by
  obtain ⟨c, e⟩ := d
  cases e with
  | ofNat e =>
    have hpow : (0 : Int) < ((Nat.pow 10 e : Nat) : Int) := by
      exact_mod_cast Nat.pow_pos (by decide)
    have hsign : (c * (Nat.pow 10 e : Nat) < 0) ↔ c < 0 := by
      constructor
      · intro h
        by_contra hc
        exact absurd h (not_lt.mpr (mul_nonneg (not_lt.mp hc) hpow.le))
      · exact fun h => mul_neg_of_neg_of_pos h hpow
    refine ⟨ofNat (c * (Nat.pow 10 e : Nat)).natAbs, [], ?_, isDigits_ofNat _, ?_, by simp, .inl rfl, ?_⟩
    · simp only [toText, ofInt_eq_signed, hsign, if_true]
    · intro h
      rw [head_ofNat h]
      rfl
    · rw [List.append_nil, digitsValue_ofNat]
      simp only [← hsign, withSign_natAbs, value]
      simp
  | negSucc e =>
    obtain ⟨whole, kept, z, htext, hw, hhead, hk, hlen, hn⟩ :=
      positional_eq c.natAbs (show 0 < e + 1 by omega)
    refine ⟨whole, kept, ?_, hw, hhead, hk, .inr ?_, ?_⟩
    · simp only [toText, htext, signed, decide_eq_true_eq]
    · show Int.negSucc e ≤ _
      rw [Int.negSucc_eq]
      omega
    · have hc : (c : ℚ) = withSign (c < 0) (digitsValue (whole ++ kept)) * 10 ^ (z : Int) := by
        have := withSign_natAbs c
        rw [hn, withSign_mul] at this
        rw [zpow_natCast]
        exact_mod_cast this.symm
      have hexp : (Int.negSucc e : Int) = -(kept.length : Int) - z := by
        rw [Int.negSucc_eq]
        omega
      simp only [value, hexp]
      rw [hc, mul_assoc, ← zpow_add₀ (by norm_num)]
      congr 2
      omega

/-- **A decimal is read back from its text** as the same number. -/
theorem parse_toText {d : Decimal} (h : exponentFits d.exponent = true) :
    ∃ d', parse d.toText = .ok d' ∧ d'.value = d.value := by
  obtain ⟨whole, kept, htext, hw, -, hk, hexp, hvalue⟩ := toText_eq d
  by_cases hnil : kept = []
  · subst hnil
    refine ⟨_, by rw [htext, if_pos rfl]; exact parse_whole _ hw, ?_⟩
    rw [hvalue]
    simp [value]
  · have hfits : exponentFits (-(kept.length : Int)) = true := by
      simp only [exponentFits, Bool.and_eq_true, decide_eq_true_eq] at h ⊢
      have := hexp.resolve_left hnil
      omega
    refine ⟨_, by rw [htext, if_neg hnil]; exact parse_fraction _ hw ⟨hnil, hk⟩ hfits, ?_⟩
    rw [hvalue]
    rfl

theorem isNumber_toText (d : Decimal) : IsNumber d.toText := by
  obtain ⟨whole, kept, htext, hw, hhead, hk, -⟩ := toText_eq d
  refine ⟨if d.coefficient < 0 then [0x2D] else [], whole, if kept = [] then [] else 0x2E :: kept, [],
    ?_, ?_, hw, hhead, ?_, .inl rfl⟩
  · rw [htext]
    by_cases hc : d.coefficient < 0 <;> by_cases hnil : kept = [] <;> simp [signed, hc, hnil]
  · by_cases hc : d.coefficient < 0 <;> simp [hc]
  · by_cases hnil : kept = []
    · rw [if_pos hnil]
      exact .inl rfl
    · rw [if_neg hnil]
      exact .inr ⟨kept, rfl, hnil, hk⟩

end WireSchema.Decimal
