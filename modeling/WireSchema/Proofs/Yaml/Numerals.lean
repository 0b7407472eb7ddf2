import WireSchema.Proofs.Number.DecimalText
import WireSchema.Proofs.Number.Overflow
import WireSchema.Yaml.Meaning

/-!
# Numerals as plain scalars

What a plain scalar means that is a number in positional digits. An integer of 64 bits, signed or not,
means itself. Every other numeral is taken for a floating-point number, whose text is kept; where the
format has no such number, nothing is left for the scalar to mean and it is text.
-/

namespace WireSchema

open Text (signed isDigit digitsValue ofNat ofInt)
open Json (IsDigits)
open Binary (numeral isNumeralByte)
open Decimal (withSign)

/-! ## Digits -/

namespace Text

theorem digit_of_isDigit {d : UInt8} (h : isDigit d = true) : digit (d.toNat - 0x30) = d := by
  simp only [isDigit, Bool.and_eq_true, decide_eq_true_eq, UInt8.le_iff_toNat_le] at h
  have hlow : 0x30 ≤ d.toNat := h.1
  rw [digit, Nat.add_sub_cancel' hlow, UInt8.ofNat_toNat]

/-- Digits without leading zeros are those of the number that they spell. -/
theorem ofNat_digitsValue {t : Text} (h : IsDigits t) (hlead : t.head? = some 0x30 → t = [0x30]) :
    ofNat (digitsValue t) = t := by
  induction t using List.reverseRecOn with
  | nil => exact absurd rfl h.1
  | append_singleton t d ih =>
    have hd : isDigit d = true := h.2 d (by simp)
    have hvalue : digitsValue (t ++ [d]) = digitsValue t * 10 + (d.toNat - 0x30) := by
      rw [digitsValue_append, digitsValue_cons]
      simp
    have hlt := toNat_sub_lt_of_isDigit hd
    rw [hvalue]
    by_cases hnil : t = []
    · subst hnil
      rw [digitsValue_nil, Nat.zero_mul, Nat.zero_add, ofNat_of_lt hlt, digit_of_isDigit hd]
      rfl
    · have ht : IsDigits t := ⟨hnil, fun b hb => h.2 b (by simp [hb])⟩
      have hhead : t.head? ≠ some 0x30 := by
        intro hzero
        have := congrArg List.length (hlead (by rw [List.head?_append_of_ne_nil _ hnil, hzero]))
        have := List.length_pos_iff.mpr hnil
        simp only [List.length_append, List.length_cons, List.length_nil] at *
        omega
      have ht' := ih ht (fun hzero => absurd hzero hhead)
      have hpos : digitsValue t ≠ 0 := by
        intro hzero
        rw [hzero] at ht'
        rw [← ht'] at hhead
        exact hhead rfl
      rw [ofNat_of_le (by omega), show (digitsValue t * 10 + (d.toNat - 0x30)) / 10 = digitsValue t by
        omega, show (digitsValue t * 10 + (d.toNat - 0x30)) % 10 = d.toNat - 0x30 by omega, ht',
        digit_of_isDigit hd]

end Text

/-! ## Integers that announce their base -/

namespace Integer

variable {bits : Nat} {t whole : Text}

theorem scanDigits_tooLarge {limit : Nat} (h : ∀ b ∈ t, isDigit b = true) {n : Nat} (hn : n ≤ limit)
    (hl : limit < n * 10 ^ t.length + digitsValue t) : scanDigits 10 limit n t = .tooLarge := by
  induction t generalizing n with
  | nil =>
    simp only [List.length_nil, pow_zero, Nat.mul_one, Text.digitsValue_nil, Nat.add_zero] at hl
    omega
  | cons d t ih =>
    have hd : isDigit d = true := h d (by simp)
    have hlt := Text.toNat_sub_lt_of_isDigit hd
    rw [Text.mul_pow_add_digitsValue_cons] at hl
    simp only [scanDigits, digitValue?, hd, if_true, not_le.mpr hlt, if_false]
    split_ifs with hlarge
    · rfl
    · exact ih (fun b hb => h b (by simp [hb])) (by omega) hl

theorem digitValue?_of_scanDigits {base limit n m : Nat} (h : scanDigits base limit n t = .value m) :
    ∀ b ∈ t, (digitValue? b).isSome = true := by
  induction t generalizing n with
  | nil => simp
  | cons d t ih =>
    rw [scanDigits] at h
    cases hd : digitValue? d with
    | none =>
      rw [hd] at h
      cases h
    | some k =>
      simp only [hd] at h
      split_ifs at h
      exact List.forall_mem_cons.mpr ⟨by rw [hd]; rfl, ih h⟩

theorem mem_announcedBase (h : 0x2E ∈ t) : 0x2E ∈ (announcedBase t).2 := by
  unfold announcedBase
  split
  · rename_i b c rest
    simp only [List.mem_cons, show (0x2E : UInt8) ≠ 0x30 by decide, false_or] at h
    rcases h with rfl | h
    · exact .head _
    · dsimp only
      split_ifs
      all_goals simp [h]
  · simpa using h
  · exact h

theorem scanAnnounced_point (h : 0x2E ∈ t) (n : Nat) : scanAnnounced bits t ≠ .value n := by
  have hne : t.isEmpty = false := by
    cases t with
    | nil => cases h
    | cons => rfl
  rw [scanAnnounced, hne, if_neg (by decide)]
  intro hscan
  have := digitValue?_of_scanDigits hscan _ (mem_announcedBase h)
  simp [digitValue?, isDigit, Text.isAlpha] at this

theorem announcedBase_of_head (h : t.head? ≠ some 0x30) : announcedBase t = (10, t) := by
  unfold announcedBase
  split
  · exact absurd rfl h
  · exact absurd rfl h
  · rfl

theorem scanAnnounced_minus : scanAnnounced bits (0x2D :: t) = .malformed := by
  rw [scanAnnounced, announcedBase_of_head (by simp)]
  rfl

/-- Digits without a leading zero announce the base ten. -/
theorem scanAnnounced_whole (hw : IsDigits whole) (hlead : whole.head? = some 0x30 → whole = [0x30]) :
    scanAnnounced bits whole =
      if digitsValue whole < 2 ^ bits then .value (digitsValue whole) else .tooLarge := by
  have hpos : 0 < 2 ^ bits := Nat.pow_pos (by decide)
  have hne : whole.isEmpty = false := by simpa using hw.1
  by_cases hzero : whole.head? = some 0x30
  · obtain rfl := hlead hzero
    exact (if_pos hpos).symm
  · rw [scanAnnounced, hne, if_neg (by decide), announcedBase_of_head hzero]
    simp only [Nat.pow_eq]
    split_ifs with hlt
    · have hle : 0 * 10 ^ whole.length + digitsValue whole ≤ 2 ^ bits - 1 := by omega
      rw [scanDigits_eq hw.2 0 hle, Nat.zero_mul, Nat.zero_add]
    · exact scanDigits_tooLarge hw.2 (Nat.zero_le _) (by omega)

theorem readAnnounced_whole (negative : Bool) (hw : IsDigits whole) :
    readAnnounced bits (signed negative whole) = clamp bits negative (scanAnnounced bits whole) := by
  rw [readAnnounced, splitSign_isDigits negative hw]

theorem readAnnounced_point (h : 0x2E ∈ t) (n : Int) : readAnnounced bits t ≠ (n, none) := by
  have hmem : 0x2E ∈ (splitSign t).2 := by
    unfold splitSign
    split
    · simpa using h
    · simpa using h
    · exact h
  rw [readAnnounced]
  cases hs : scanAnnounced bits (splitSign t).2 with
  | value m => exact absurd hs (scanAnnounced_point hmem m)
  | malformed | tooLarge => simp [hs, clamp]

end Integer

/-! ## Numerals -/

namespace Yaml

/-- The text is a number in positional digits: a sign, digits, and a point with digits after it. -/
def IsNumeral (t : Text) : Prop :=
  ∃ negative whole kept, t = signed negative (numeral whole kept []) ∧ IsDigits whole ∧
    ∀ b ∈ kept, isDigit b = true

namespace Meaning

variable (negative : Bool) {t u whole kept : Text}

theorem numeral_eq (whole kept : Text) :
    numeral whole kept [] = whole ++ if kept.isEmpty then [] else 0x2E :: kept := by
  rw [numeral, List.append_nil]

theorem isNumeralByte_of_isNumeral (h : IsNumeral t) : ∀ b ∈ t, isNumeralByte b = true := by
  obtain ⟨negative, whole, kept, rfl, hw, hk⟩ := h
  have hbytes := Binary.isNumeralByte_numeral hw.2 hk .missing
  cases negative with
  | false => exact hbytes
  | true => exact List.forall_mem_cons.mpr ⟨rfl, hbytes⟩

theorem exists_digit_of_isNumeral (h : IsNumeral t) :
    ∃ negative d rest, t = signed negative (d :: rest) ∧ isDigit d = true := by
  obtain ⟨negative, whole, kept, rfl, hw, -⟩ := h
  obtain ⟨d, ds, rfl⟩ := List.exists_cons_of_ne_nil hw.1
  exact ⟨negative, d, _, by rw [numeral_eq, List.cons_append], hw.2 d (by simp)⟩

theorem skipDigits?_append (h : IsDigits t) (hu : ∀ b ∈ u.head?, isDigit b = false) :
    skipDigits? (t ++ u) = some u := by
  obtain ⟨d, ds, rfl⟩ := List.exists_cons_of_ne_nil h.1
  rw [List.cons_append, skipDigits?, if_pos (h.2 d (by simp)),
    List.dropWhile_append_of_pos fun b hb => h.2 b (by simp [hb])]
  cases u with
  | nil => rfl
  | cons c u => simp [hu c rfl]

theorem skipSign_signed {d : UInt8} (hd : isDigit d = true) (rest : Text) :
    skipSign (signed negative (d :: rest)) = d :: rest := by
  have hplus : d ≠ 0x2B := Text.ne_of_isDigit hd rfl
  have hminus : d ≠ 0x2D := Text.ne_of_isDigit hd rfl
  cases negative with
  | false => simp [signed, skipSign, hplus, hminus]
  | true => rfl

theorem skipMantissa?_numeral (hw : IsDigits whole) (hk : ∀ b ∈ kept, isDigit b = true) :
    skipMantissa? (numeral whole kept []) = some [] := by
  have hskip : skipDigits? (numeral whole kept []) =
      some (if kept.isEmpty then [] else 0x2E :: kept) := by
    rw [numeral_eq]
    refine skipDigits?_append hw fun b hb => ?_
    split_ifs at hb
    · cases hb
    · cases hb
      rfl
  unfold skipMantissa?
  split
  · rename_i rest heq
    obtain ⟨d, ds, rfl⟩ := List.exists_cons_of_ne_nil hw.1
    rw [numeral_eq] at heq
    exact absurd (List.cons.inj heq).1 (Text.ne_of_isDigit (hw.2 d (by simp)) rfl)
  · rw [hskip, Option.map_some]
    split_ifs
    · rfl
    · rw [skipFraction, List.dropWhile_eq_nil_iff.mpr hk]

theorem isDecimalForm_numeral (h : IsNumeral t) : isDecimalForm t = true := by
  obtain ⟨negative, whole, kept, rfl, hw, hk⟩ := h
  have hmantissa := skipMantissa?_numeral hw hk
  obtain ⟨d, ds, rfl⟩ := List.exists_cons_of_ne_nil hw.1
  rw [numeral_eq, List.cons_append] at hmantissa ⊢
  rw [isDecimalForm, skipSign_signed negative (hw.2 d (by simp)), hmantissa]

theorem filter_numeral (h : IsNumeral t) : t.filter (· != 0x5F) = t := by
  refine List.filter_eq_self.mpr fun b hb => ?_
  rw [bne_iff_ne]
  rintro rfl
  exact absurd (isNumeralByte_of_isNumeral h _ hb) (by decide)

theorem prefixed?_numeral (h : IsNumeral t) : prefixed? t = none := by
  have hbytes := isNumeralByte_of_isNumeral h
  have hb : (0x62 : UInt8) ∉ t := fun hmem => absurd (hbytes _ hmem) (by decide)
  have ho : (0x6F : UInt8) ∉ t := fun hmem => absurd (hbytes _ hmem) (by decide)
  unfold prefixed?
  split
  · simp at hb
  · simp at hb
  · simp at ho
  · simp at ho
  · rfl

theorem number?_numeral (h : IsNumeral t) :
    number? t = match integer? t with
      | some n => some (.integer n)
      | none => (float? t).map .float := by
  simp only [number?, filter_numeral h, prefixed?_numeral h]
  cases integer? t with
  | some n => rfl
  | none => cases float? t <;> rfl

theorem lookup_words {d : UInt8} (hd : isDigit d = true) (rest : Text) :
    words.lookup (signed negative (d :: rest)) = none := by
  have hwords : (words.all fun p => !(skipSign p.1).head?.any isDigit) = true := by decide +kernel
  rw [List.lookup_eq_none_iff]
  intro p hp
  rw [bne_iff_ne]
  intro heq
  have := List.all_eq_true.mp hwords p hp
  rw [← heq, skipSign_signed negative hd rest] at this
  simp [hd] at this

/-- A numeral is no point in time: what follows its digits is no dash. -/
theorem accepts_numeral (h : IsNumeral t) : Timestamp.accepts t = false := by
  obtain ⟨negative, whole, kept, rfl, hw, -⟩ := h
  have hdate : Timestamp.date? (signed negative (numeral whole kept [])) = none := by
    cases negative with
    | true => rfl
    | false =>
      have htake : (numeral whole kept []).takeWhile isDigit = whole := by
        rw [numeral_eq, List.takeWhile_append_of_pos hw.2]
        split_ifs
        · simp
        · simp [isDigit]
      simp only [signed, Bool.false_eq_true, if_false, Timestamp.date?, htake]
      split_ifs with hfour
      · rfl
      · have hlen : whole.length = 4 := by simpa using hfour
        rw [numeral_eq, ← hlen, List.drop_left]
        split_ifs <;> rfl
  rw [Timestamp.accepts, hdate]

theorem ofText_numeral (h : IsNumeral t) (timestamps : Bool) :
    ofText timestamps t = (number? t).getD .text := by
  have haccepts := accepts_numeral h
  obtain ⟨negative, d, rest, rfl, hd⟩ := exists_digit_of_isNumeral h
  have hpoint : (d == 0x2E) = false := by simpa using Text.ne_of_isDigit hd (c := 0x2E) rfl
  unfold ofText
  rw [lookup_words negative hd rest]
  cases negative with
  | false =>
    simp only [signed, Bool.false_eq_true, if_false] at haccepts ⊢
    simp [hpoint, hd, haccepts]
  | true =>
    simp only [signed, if_true] at haccepts ⊢
    simp [haccepts]

/-! ## Integers and other numbers -/

theorem integer?_whole (hw : IsDigits whole) (hlead : whole.head? = some 0x30 → whole = [0x30]) :
    integer? (signed negative whole) =
      if -2 ^ 63 ≤ withSign negative (digitsValue whole) ∧
        withSign negative (digitsValue whole) < 2 ^ 64
      then some (withSign negative (digitsValue whole)) else none := by
  have hscan : Integer.scanAnnounced 64 whole = _ := Integer.scanAnnounced_whole hw hlead
  have hhalf : Integer.half 64 = 2 ^ 63 := rfl
  rw [integer?, Integer.readAnnounced_whole negative hw]
  generalize digitsValue whole = v at hscan ⊢
  by_cases hv : v < 2 ^ 64
  · rw [if_pos hv] at hscan
    rw [hscan]
    cases negative with
    | false =>
      have hfits : -2 ^ 63 ≤ withSign false v ∧ withSign false v < 2 ^ 64 := by
        simp only [withSign, Bool.false_eq_true, if_false]
        omega
      rw [if_pos hfits]
      simp only [Integer.clamp, signed, withSign, Bool.false_eq_true, if_false, hscan]
      split_ifs <;> rfl
    | true =>
      simp only [Integer.clamp, signed, withSign, if_true, Integer.scanAnnounced_minus, hhalf]
      by_cases hlow : 2 ^ 63 < v
      · rw [if_pos hlow, if_neg (by omega)]
        rfl
      · rw [if_neg hlow, if_pos (by omega)]
  · rw [if_neg hv] at hscan
    have hfits : ¬ (-2 ^ 63 ≤ withSign negative v ∧ withSign negative v < 2 ^ 64) := by
      cases negative with
      | false =>
        simp only [withSign, Bool.false_eq_true, if_false]
        omega
      | true =>
        simp only [withSign, if_true]
        omega
    rw [hscan, if_neg hfits]
    cases negative with
    | false => simp only [Integer.clamp, signed, Bool.false_eq_true, if_false, hscan, unsigned?]
    | true => simp only [Integer.clamp, signed, if_true, Integer.scanAnnounced_minus, unsigned?]

theorem integer?_point (h : 0x2E ∈ t) : integer? t = none := by
  unfold integer?
  split
  · rename_i heq
    exact absurd heq (Integer.readAnnounced_point h _)
  · cases hs : Integer.scanAnnounced 64 t with
    | value m => exact absurd hs (Integer.scanAnnounced_point h m)
    | malformed | tooLarge => rfl

theorem isSome_float?_iff (hw : IsDigits whole) (hk : ∀ b ∈ kept, isDigit b = true) :
    (float? (signed negative (numeral whole kept []))).isSome = true ↔
      (digitsValue (whole ++ kept) : ℚ) * 10 ^ (-(kept.length : Int)) <
        BinaryFormat.double.overflow := by
  rw [← Binary.read_numeral_iff negative Binary.bounded_double (by decide) hw hk, float?,
    if_pos (isDecimalForm_numeral ⟨negative, whole, kept, rfl, hw, hk⟩)]
  rcases Binary.read .double (signed negative (numeral whole kept [])) with ⟨x, _ | fault⟩ <;> simp

end Meaning

/-! ## Tokens -/

open Meaning

section Tokens

variable {t : Text}

theorem scalarTag_numeral (h : IsNumeral t) :
    scalarTag [] .plain t = ((number? t).getD .text).tag := by
  have hmerge : (t == ("<<" : Text)) = false := by
    rw [beq_eq_false_iff_ne]
    rintro rfl
    exact absurd (isNumeralByte_of_isNumeral h _ (.head _)) (by decide)
  rw [scalarTag, hmerge, ofText_numeral h]
  rfl

theorem scalarToken_of_integer (h : IsNumeral t) {n : Int} (hn : number? t = some (.integer n)) :
    scalarToken [] .plain t = .ok (.number (if n ≤ maxInteger then ofInt n else t)) := by
  rw [scalarToken, scalarTag_numeral h, ofText_numeral h, hn]
  rfl

theorem scalarToken_of_float (h : IsNumeral t) {x : Binary} (hx : number? t = some (.float x))
    {d : Decimal} (hd : Decimal.parse t = .ok d) : scalarToken [] .plain t = .ok (.number t) := by
  rw [scalarToken, scalarTag_numeral h, hx, hd]
  rfl

theorem scalarToken_of_none (h : IsNumeral t) (hn : number? t = none) :
    scalarToken [] .plain t = .ok (.string t) := by
  rw [scalarToken, scalarTag_numeral h, hn]
  rfl

theorem scalarToken_of_integer?_none {negative : Bool} {whole kept : Text} (hw : IsDigits whole)
    (hk : ∀ b ∈ kept, isDigit b = true) (ht : t = signed negative (numeral whole kept []))
    (hinteger : integer? t = none) {d : Decimal} (hd : Decimal.parse t = .ok d) :
    scalarToken [] .plain t =
      .ok (if (digitsValue (whole ++ kept) : ℚ) * 10 ^ (-(kept.length : Int)) <
        BinaryFormat.double.overflow then .number t else .string t) := by
  have h : IsNumeral t := ⟨negative, whole, kept, ht, hw, hk⟩
  have hnumber := number?_numeral h
  have hfloat := isSome_float?_iff negative hw hk
  rw [hinteger] at hnumber
  rw [← ht] at hfloat
  cases hx : float? t with
  | some x =>
    rw [hx] at hnumber hfloat
    rw [scalarToken_of_float h hnumber hd, if_pos (hfloat.mp rfl)]
  | none =>
    rw [hx] at hnumber hfloat
    rw [scalarToken_of_none h hnumber, if_neg (fun hlt => by cases hfloat.mpr hlt)]

theorem two_pow_lt_overflow {k : Nat} (hk : k < 1023) :
    (2 : ℚ) ^ k < BinaryFormat.double.overflow := by
  have hle : (2 : ℚ) ^ (1023 : Int) ≤ BinaryFormat.double.overflow :=
    Binary.le_overflow (f := .double) (by decide)
  refine lt_of_lt_of_le ?_ hle
  rw [← zpow_natCast]
  exact zpow_lt_zpow_right₀ (by norm_num) (by omega)

/-- **An integer as a plain scalar** is a number if it is in the range of double precision, and else a
text. -/
theorem scalarToken_ofInt (n : Int) :
    scalarToken [] .plain (ofInt n) =
      .ok (if |(n : ℚ)| < BinaryFormat.double.overflow then .number (ofInt n)
        else .string (ofInt n)) := by
  have hw := Text.isDigits_ofNat n.natAbs
  have hlead : (ofNat n.natAbs).head? = some 0x30 → ofNat n.natAbs = [0x30] := by
    intro hzero
    rw [Text.head_ofNat hzero]
    rfl
  have hinteger := integer?_whole (n < 0) hw hlead
  have htext : ofInt n = signed (n < 0) (numeral (ofNat n.natAbs) [] []) := by
    rw [numeral_eq, Decimal.ofInt_eq_signed]
    simp
  rw [← Decimal.ofInt_eq_signed, Text.digitsValue_ofNat, Decimal.withSign_natAbs] at hinteger
  by_cases hfits : -2 ^ 63 ≤ n ∧ n < 2 ^ 64
  · have h : IsNumeral (ofInt n) := ⟨_, _, _, htext, hw, by simp⟩
    have hnumber : number? (ofInt n) = some (.integer n) := by
      rw [number?_numeral h, hinteger, if_pos hfits]
    have hle : |n| ≤ 2 ^ 64 := abs_le.mpr (by omega)
    have hle' : |(n : ℚ)| ≤ 2 ^ 64 := by exact_mod_cast hle
    have hsmall := hle'.trans_lt (two_pow_lt_overflow (by decide))
    rw [scalarToken_of_integer h hnumber, if_pos hsmall, ite_self]
  · rw [if_neg hfits] at hinteger
    have hparse := Decimal.parse_whole (n < 0) hw
    rw [← Decimal.ofInt_eq_signed] at hparse
    have hvalue : (digitsValue (ofNat n.natAbs ++ []) : ℚ) * 10 ^ (-((0 : Nat) : Int)) = |(n : ℚ)| := by
      rw [List.append_nil, Text.digitsValue_ofNat]
      simp
    rw [scalarToken_of_integer?_none hw (by simp) htext hinteger hparse, List.length_nil, hvalue]

theorem abs_withSign (negative : Bool) (n : Nat) : |((withSign negative n : Int) : ℚ)| = n := by
  cases negative <;> simp [withSign]

theorem toText_whole {d : Decimal} {whole : Text} (hw : IsDigits whole)
    (hlead : whole.head? = some 0x30 → whole = [0x30])
    (htext : d.toText = signed (d.coefficient < 0) whole)
    (hvalue : d.value = withSign (d.coefficient < 0) (digitsValue whole)) :
    ∃ n : Int, d.toText = ofInt n ∧ d.value = n := by
  refine ⟨withSign (d.coefficient < 0) (digitsValue whole), ?_, hvalue⟩
  rw [htext, Decimal.ofInt_eq_signed]
  by_cases hc : d.coefficient < 0
  · -- A number below zero is not zero, so that its sign stays.
    have hne : digitsValue whole ≠ 0 := by
      intro hzero
      rw [hzero] at hvalue
      simp only [Decimal.value, withSign, Nat.cast_zero, neg_zero, ite_self, Int.cast_zero,
        mul_eq_zero, Int.cast_eq_zero] at hvalue
      rcases hvalue with hvalue | hvalue
      · omega
      · exact absurd hvalue (zpow_ne_zero _ (by norm_num))
    have hneg : withSign true (digitsValue whole) < 0 := by
      simp only [withSign, if_true]
      omega
    rw [decide_eq_true hc, decide_eq_true hneg, withSign, if_pos rfl, Int.natAbs_neg,
      Int.natAbs_natCast, Text.ofNat_digitsValue hw hlead]
  · have hpos : ¬ withSign false (digitsValue whole) < 0 := by
      simp only [withSign, Bool.false_eq_true, if_false]
      omega
    rw [decide_eq_false hc, decide_eq_false hpos, withSign, if_neg (by decide), Int.natAbs_natCast,
      Text.ofNat_digitsValue hw hlead]

theorem isNumeral_toText (d : Decimal) : IsNumeral d.toText := by
  obtain ⟨whole, kept, htext, hw, -, hk, -, -⟩ := Decimal.toText_eq d
  refine ⟨d.coefficient < 0, whole, kept, ?_, hw, hk⟩
  rw [htext, numeral_eq]
  by_cases hnil : kept = []
  · simp [hnil]
  · simp [hnil]

/-- **A decimal as a plain scalar** is a number if it is in the range of double precision, and else a
text. -/
theorem scalarToken_toText {d : Decimal} (hd : Decimal.exponentFits d.exponent = true) :
    scalarToken [] .plain d.toText =
      .ok (if |d.value| < BinaryFormat.double.overflow then .number d.toText
        else .string d.toText) := by
  obtain ⟨whole, kept, htext, hw, hlead, hk, -, hvalue⟩ := Decimal.toText_eq d
  obtain ⟨d', hparse, -⟩ := Decimal.parse_toText hd
  by_cases hnil : kept = []
  · subst hnil
    rw [if_pos rfl] at htext
    have hvalue : d.value = withSign (d.coefficient < 0) (digitsValue whole) := by simpa using hvalue
    obtain ⟨n, hn, hnvalue⟩ := toText_whole hw hlead htext hvalue
    rw [hn, hnvalue, scalarToken_ofInt]
  · rw [if_neg hnil] at htext
    have hnumeral : d.toText = signed (d.coefficient < 0) (numeral whole kept []) := by
      rw [htext, numeral_eq, if_neg (by simpa using hnil)]
    have hpoint : 0x2E ∈ d.toText := by
      rw [htext, Text.signed_append]
      simp
    have habs : |d.value| = (digitsValue (whole ++ kept) : ℚ) * 10 ^ (-(kept.length : Int)) := by
      rw [hvalue, abs_mul, abs_withSign, abs_of_pos (Binary.ten_zpow_pos _)]
    rw [habs]
    exact scalarToken_of_integer?_none hw hk hnumeral (integer?_point hpoint) hparse

end Tokens

end Yaml

end WireSchema
