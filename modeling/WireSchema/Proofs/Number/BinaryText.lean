import WireSchema.Number.BinaryText
import WireSchema.Proofs.Number.Digits
import WireSchema.Proofs.Number.ShortestDigits

/-!
# Floating-point numbers in text

A finite number of single or double precision is read back from its text. The text is a numeral: whole
digits, a fraction and an exponent. Its parts are scanned back, they stand for the shortest digits, and
those are rounded to the number.
-/

namespace WireSchema.Binary

open Text
open Json (IsDigits IsNumber)

/-! ## Numerals -/

/-- Whole digits, a fraction with its point unless it is empty, and an exponent. -/
def numeral (whole fraction exponent : Text) : Text :=
  whole ++ ((if fraction.isEmpty then [] else 0x2E :: fraction) ++ exponent)

/-- The text is that of the exponent `x`, or is missing for zero. -/
inductive IsExponentText : Int → Text → Prop
  | missing : IsExponentText 0 []
  | written {x : Int} (h : x.natAbs < 10000) : IsExponentText x (exponentText x)

def isNumeralByte (b : UInt8) : Bool :=
  isDigit b || b == 0x2E || b == 0x65 || b == 0x2B || b == 0x2D

theorem isNumeralByte_of_isDigit {b : UInt8} (h : isDigit b = true) : isNumeralByte b = true := by
  simp [isNumeralByte, h]

theorem lowerByte_numeral {b : UInt8} (h : isNumeralByte b = true) : lowerByte b = b := by
  simp only [isNumeralByte, Bool.or_eq_true, beq_iff_eq] at h
  rcases h with (((h | rfl) | rfl) | rfl) | rfl
  · simp only [isDigit, Bool.and_eq_true, decide_eq_true_eq, UInt8.le_iff_toNat_le] at h
    have : ¬ (0x41 : UInt8) ≤ b := by
      rw [UInt8.le_iff_toNat_le]
      exact fun hb => absurd (hb.trans h.2) (by decide)
    simp [lowerByte, this]
  all_goals rfl

theorem exponentText_eq (x : Int) : ∃ sign ds, exponentText x = 0x65 :: sign :: ds ∧
    (sign = if x < 0 then 0x2D else 0x2B) ∧ IsDigits ds ∧ digitsValue ds = x.natAbs := by
  obtain ⟨ds, hds⟩ : ∃ ds, (if (ofNat x.natAbs).length < 2 then 0x30 :: ofNat x.natAbs
      else ofNat x.natAbs) = ds := ⟨_, rfl⟩
  refine ⟨if x < 0 then 0x2D else 0x2B, ds, ?_, rfl, ?_⟩
  · simp only [exponentText, hds]
    split_ifs <;> rfl
  · subst hds
    have h := isDigits_ofNat x.natAbs
    split_ifs
    · refine ⟨⟨by simp, fun b hb => ?_⟩, ?_⟩
      · rcases List.mem_cons.mp hb with rfl | hb
        exacts [rfl, h.2 b hb]
      · simpa [digitsValue_ofNat] using digitsValue_replicate_append 1 (ofNat x.natAbs)
    · exact ⟨h, digitsValue_ofNat _⟩

theorem IsExponentText.isNumeralByte {x : Int} {ex : Text} (h : IsExponentText x ex) :
    ∀ b ∈ ex, isNumeralByte b = true := by
  cases h with
  | missing => simp
  | written =>
    obtain ⟨sign, ds, heq, hsign, hds, -⟩ := exponentText_eq x
    intro b hb
    rw [heq] at hb
    rcases List.mem_cons.mp hb with rfl | hb
    · rfl
    rcases List.mem_cons.mp hb with rfl | hb
    · rw [hsign]
      split_ifs <;> rfl
    · exact isNumeralByte_of_isDigit (hds.2 b hb)

theorem isNumeralByte_numeral {whole fraction ex : Text} {x : Int}
    (hw : ∀ b ∈ whole, isDigit b = true) (hf : ∀ b ∈ fraction, isDigit b = true)
    (hx : IsExponentText x ex) : ∀ b ∈ numeral whole fraction ex, isNumeralByte b = true := by
  intro b hb
  rcases List.mem_append.mp hb with hb | hb
  · exact isNumeralByte_of_isDigit (hw b hb)
  rcases List.mem_append.mp hb with hb | hb
  · split_ifs at hb
    · simp at hb
    · rcases List.mem_cons.mp hb with rfl | hb
      exacts [rfl, isNumeralByte_of_isDigit (hf b hb)]
  · exact hx.isNumeralByte b hb

/-! ## Scanning -/

theorem scanMantissa_digits {t : Text} (h : ∀ b ∈ t, isDigit b = true) (acc : Digits) (u : Text) :
    scanMantissa 10 acc (t ++ u) = scanMantissa 10
      { acc with
        value := acc.value * 10 ^ t.length + digitsValue t
        places := if acc.point then acc.places + t.length else acc.places
        any := acc.any || !t.isEmpty } u := by
  induction t generalizing acc with
  | nil => simp
  | cons d t ih =>
    have hd : isDigit d = true := h d (by simp)
    have hu : (d == 0x5F) = false := by simpa using ne_of_isDigit hd (c := 0x5F) rfl
    have hp : (d == 0x2E) = false := by simpa using ne_of_isDigit hd (c := 0x2E) rfl
    rw [List.cons_append, scanMantissa]
    simp only [hu, hp, hd, Bool.false_eq_true, if_false, if_true, show (10 == 16) = false from rfl]
    rw [ih fun b hb => h b (by simp [hb])]
    have hv : (acc.value * 10 + (d.toNat - 0x30)) * 10 ^ t.length + digitsValue t =
        acc.value * 10 ^ (d :: t).length + digitsValue (d :: t) := by
      rw [digitsValue_cons, List.length_cons, pow_succ]
      ring
    have hplaces : (if acc.point = true then
        (if acc.point = true then acc.places + 1 else acc.places) + t.length
        else if acc.point = true then acc.places + 1 else acc.places) =
        if acc.point = true then acc.places + (d :: t).length else acc.places := by
      split_ifs
      · rw [List.length_cons]
        omega
      · rfl
    simp only [hv, hplaces, Bool.true_or, List.isEmpty_cons, Bool.not_false, Bool.or_true]

theorem scanMantissa_exponent {x : Int} {ex : Text} (h : IsExponentText x ex) (acc : Digits) :
    scanMantissa 10 acc ex = (acc, ex) := by
  cases h with
  | missing => rfl
  | written =>
    obtain ⟨sign, ds, heq, -⟩ := exponentText_eq x
    rw [heq]
    rfl

theorem scanMantissa_numeral {whole fraction ex : Text} {x : Int} (hw : IsDigits whole)
    (hf : ∀ b ∈ fraction, isDigit b = true) (hx : IsExponentText x ex) :
    scanMantissa 10 {} (numeral whole fraction ex) =
      (⟨digitsValue (whole ++ fraction), fraction.length, !fraction.isEmpty, true, false⟩, ex) := by
  have hne : whole.isEmpty = false := by simpa using hw.1
  rw [numeral, scanMantissa_digits hw.2]
  cases fraction with
  | nil => simp [hne, scanMantissa_exponent hx]
  | cons d ds =>
    have hpoint (acc : Digits) (u : Text) (h : acc.point = false) :
        scanMantissa 10 acc (0x2E :: u) = scanMantissa 10 { acc with point := true } u := by
      simp [scanMantissa, h]
    simp only [List.isEmpty_cons, Bool.false_eq_true, if_false, List.cons_append]
    rw [hpoint _ _ rfl, ← List.cons_append, scanMantissa_digits hf, scanMantissa_exponent hx,
      digitsValue_append]
    simp [hne]

theorem scanExponent_digits {t : Text} (h : ∀ b ∈ t, isDigit b = true) (n : Nat)
    (hn : n * 10 ^ t.length + digitsValue t < 10000) :
    scanExponent n false t = (n * 10 ^ t.length + digitsValue t, false, []) := by
  induction t generalizing n with
  | nil => simp [scanExponent]
  | cons d t ih =>
    have hd : isDigit d = true := h d (by simp)
    have hu : (d == 0x5F) = false := by simpa using ne_of_isDigit hd (c := 0x5F) rfl
    have hsum : n * 10 ^ (d :: t).length + digitsValue (d :: t) =
        (n * 10 + (d.toNat - 0x30)) * 10 ^ t.length + digitsValue t := by
      rw [digitsValue_cons, List.length_cons, pow_succ]
      ring
    have hlt : n < 10000 := by
      have := Nat.le_mul_of_pos_right n (Nat.pow_pos (n := (d :: t).length) (by decide : 0 < 10))
      omega
    rw [hsum] at hn ⊢
    simp only [scanExponent, hu, hd, hlt, Bool.false_eq_true, if_false, if_true]
    exact ih (fun b hb => h b (by simp [hb])) _ hn

theorem exponentPart?_eq {x : Int} {ex : Text} (h : IsExponentText x ex) :
    exponentPart? false ex = some (x, false, []) := by
  cases h with
  | missing => rfl
  | written hlt =>
    obtain ⟨sign, ds, heq, hsign, hds, hv⟩ := exponentText_eq x
    have hscan := scanExponent_digits hds.2 0 (by omega)
    rw [Nat.zero_mul, Nat.zero_add, hv] at hscan
    have hsplit : Integer.splitSign (sign :: ds) = (decide (x < 0), ds) := by
      rw [hsign]
      split_ifs with hx <;> simp [Integer.splitSign, hx]
    obtain ⟨d, rest, rfl⟩ := List.exists_cons_of_ne_nil hds.1
    rw [heq]
    simp only [exponentPart?, hsplit, hds.2 d (by simp), hscan]
    have habs : (if decide (x < 0) = true then -(x.natAbs : Int) else x.natAbs) = x := by
      simp only [decide_eq_true_eq]
      split_ifs <;> omega
    rw [habs]
    rfl

section Reading

variable {whole fraction ex : Text} {x : Int} (negative : Bool)

theorem splitSign_numeral (hw : IsDigits whole) :
    Integer.splitSign (signed negative (numeral whole fraction ex)) =
      (negative, numeral whole fraction ex) := by
  obtain ⟨d, ds, rfl⟩ := List.exists_cons_of_ne_nil hw.1
  exact Integer.splitSign_signed negative (hw.2 d (by simp))

theorem parts?_numeral (hw : IsDigits whole) (hf : ∀ b ∈ fraction, isDigit b = true)
    (hx : IsExponentText x ex) :
    parts? (signed negative (numeral whole fraction ex)) =
      some ⟨negative, false, digitsValue (whole ++ fraction), fraction.length, x⟩ := by
  have hscan := scanMantissa_numeral hw hf hx
  have hbytes := isNumeralByte_numeral hw.2 hf hx
  unfold parts?
  rw [splitSign_numeral negative hw]
  generalize numeral whole fraction ex = t at hscan hbytes
  simp only
  split
  · rename_i y c rest
    have hy : isNumeralByte y = true := hbytes y (by simp)
    -- The byte after a leading zero is no mark of a base.
    have hmark : (lowerByte y == 0x78) = false := by
      rw [lowerByte_numeral hy, beq_eq_false_iff_ne]
      rintro rfl
      simp [isNumeralByte, isDigit] at hy
    simp only [hmark, Bool.false_eq_true, if_false, hscan, exponentPart?_eq hx]
    rfl
  · simp only [Bool.false_eq_true, if_false, hscan, exponentPart?_eq hx]
    rfl

theorem named?_numeral (hw : IsDigits whole) :
    named? (signed negative (numeral whole fraction ex)) = none := by
  obtain ⟨d, ds, rfl⟩ := List.exists_cons_of_ne_nil hw.1
  have hd := hw.2 d (by simp)
  have hlower : lowerByte d = d := lowerByte_numeral (isNumeralByte_of_isDigit hd)
  have hi : d ≠ 0x69 := ne_of_isDigit hd rfl
  have hn : d ≠ 0x6E := ne_of_isDigit hd rfl
  have hname : ∀ c cs, d ≠ c → (lowerAscii (numeral (d :: ds) fraction ex) == c :: cs) = false := by
    intro c cs hne
    rw [beq_eq_false_iff_ne]
    intro heq
    exact hne (hlower.symm.trans (List.cons.inj heq).1)
  have hnan : (lowerAscii (signed negative (numeral (d :: ds) fraction ex)) == ("nan" : Text)) =
      false := by
    cases negative with
    | false => exact hname 0x6E _ hn
    | true => rfl
  have hinf : (lowerAscii (numeral (d :: ds) fraction ex) == ("inf" : Text)) = false := hname 0x69 _ hi
  have hinfinity : (lowerAscii (numeral (d :: ds) fraction ex) == ("infinity" : Text)) = false :=
    hname 0x69 _ hi
  simp only [named?, splitSign_numeral negative hw, hinf, hinfinity, hnan, Bool.or_self,
    Bool.false_eq_true, if_false]

theorem parse_numeral (f : BinaryFormat) (hw : IsDigits whole) (hf : ∀ b ∈ fraction, isDigit b = true)
    (hx : IsExponentText x ex) {y : Binary} (hy : y.isFinite = true)
    (h : ofScaled f negative 10 (digitsValue (whole ++ fraction)) (x - fraction.length) = y) :
    parse f (signed negative (numeral whole fraction ex)) = .ok y := by
  have hread : read f (signed negative (numeral whole fraction ex)) = (y, none) := by
    simp only [read, named?_numeral negative hw, parts?_numeral negative hw hf hx, Bool.false_eq_true,
      if_false, h, hy, if_true]
  rw [parse, hread]

end Reading

theorem isNumber_numeral (negative : Bool) {whole fraction ex : Text} {x : Int} (hw : IsDigits whole)
    (hlead : whole.head? = some 0x30 → whole = [0x30]) (hf : ∀ b ∈ fraction, isDigit b = true)
    (hx : IsExponentText x ex) : IsNumber (signed negative (numeral whole fraction ex)) := by
  refine ⟨if negative then [0x2D] else [], whole, if fraction.isEmpty then [] else 0x2E :: fraction, ex,
    ?_, ?_, hw, hlead, ?_, ?_⟩
  · cases negative <;> simp [signed, numeral]
  · cases negative <;> simp
  · split_ifs with h
    · exact .inl rfl
    · exact .inr ⟨fraction, rfl, by simpa using h, hf⟩
  · cases hx with
    | missing => exact .inl rfl
    | written =>
      obtain ⟨sign, ds, heq, hsign, hds, -⟩ := exponentText_eq x
      refine .inr ⟨0x65, [sign], ds, heq, .inl rfl, .inr ?_, hds⟩
      rw [hsign]
      split_ifs <;> simp

/-! ## Layout -/

theorem significant_spec {n : Nat} (hn : 0 < n) :
    ∃ z, ofNat n = significant n ++ List.replicate z 0x30 ∧ IsDigits (significant n) ∧
      (significant n).head? ≠ some 0x30 := by
  obtain ⟨z, hz⟩ := exists_trim (ofNat n)
  have hne : ((ofNat n).reverse.dropWhile (· == 0x30)).reverse ≠ [] := by
    intro h
    rw [h, List.nil_append] at hz
    have := digitsValue_ofNat n
    rw [hz, digitsValue_replicate] at this
    omega
  have hs : significant n = ((ofNat n).reverse.dropWhile (· == 0x30)).reverse := by
    rw [significant, if_neg (by simpa using hne)]
  rw [← hs] at hz hne
  refine ⟨z, hz, ⟨hne, fun b hb => (isDigits_ofNat n).2 b (by rw [hz]; simp [hb])⟩, fun h => ?_⟩
  have := head_ofNat (n := n) (by rw [hz, List.head?_append_of_ne_nil _ hne, h])
  omega

/-- The text is a numeral of the number whose digits are `ds`, the first of them at `10 ^ x`. -/
def LaysOut (ds : Text) (x : Int) (t : Text) : Prop :=
  ∃ whole fraction ex y, t = numeral whole fraction ex ∧ IsDigits whole ∧
    (whole.head? = some 0x30 → whole = [0x30]) ∧ (∀ b ∈ fraction, isDigit b = true) ∧
    IsExponentText y ex ∧ min 0 (x + 1 - ds.length) ≤ y - fraction.length ∧
    (digitsValue (whole ++ fraction) : ℚ) * 10 ^ (y - fraction.length) =
      digitsValue ds * 10 ^ (x + 1 - ds.length)

section Layout

variable {d : UInt8} {ds : Text} {x : Int}

theorem laysOut_exponent (hd : IsDigits (d :: ds)) (hd0 : d ≠ 0x30) (hx : x.natAbs < 10000) :
    LaysOut (d :: ds) x (numeral [d] ds (exponentText x)) := by
  refine ⟨[d], ds, exponentText x, x, rfl, ⟨by simp, ?_⟩, by simp [hd0], ?_, .written hx, ?_, ?_⟩
  · simpa using hd.2 d (by simp)
  · exact fun b hb => hd.2 b (by simp [hb])
  · rw [List.length_cons]
    omega
  · rw [List.length_cons, List.singleton_append]
    congr 2
    push_cast
    ring

theorem laysOut_fraction (hd : IsDigits ds) (hx : x < 0) :
    LaysOut ds x (numeral [0x30] (zeros (x.natAbs - 1) ++ ds) []) := by
  obtain ⟨k, hk⟩ : ∃ k, x.natAbs - 1 = k := ⟨_, rfl⟩
  rw [hk]
  have hlen : ((zeros k ++ ds).length : Int) = -(x + 1 - ds.length) := by
    simp only [zeros, List.length_append, List.length_replicate]
    omega
  refine ⟨[0x30], zeros k ++ ds, [], 0, rfl, ⟨by simp, by simp [isDigit]⟩, by simp, ?_, .missing, ?_, ?_⟩
  · intro b hb
    rcases List.mem_append.mp hb with hb | hb
    · rw [List.eq_of_mem_replicate hb]
      rfl
    · exact hd.2 b hb
  · omega
  · have hv : digitsValue ([0x30] ++ (zeros k ++ ds)) = digitsValue ds := by
      rw [zeros, digitsValue_append, digitsValue_replicate_append]
      simp [digitsValue]
    rw [hv, hlen, zero_sub, neg_neg]

theorem laysOut_whole {n : Nat} (hd : IsDigits (d :: ds)) (hd0 : d ≠ 0x30) :
    LaysOut (d :: ds) n (numeral ((d :: ds).take (n + 1) ++
      zeros (n + 1 - ((d :: ds).take (n + 1)).length)) ((d :: ds).drop (n + 1)) []) := by
  obtain ⟨t, ht⟩ : ∃ t, d :: ds = t := ⟨_, rfl⟩
  have hlead : (t.take (n + 1)).head? = some d := by simp [← ht]
  rw [ht] at hd ⊢
  refine ⟨_, _, [], 0, rfl, ⟨?_, ?_⟩, ?_, ?_, .missing, ?_, ?_⟩
  · simp [← ht]
  · intro b hb
    rcases List.mem_append.mp hb with hb | hb
    · exact hd.2 b (List.mem_of_mem_take hb)
    · rw [List.eq_of_mem_replicate hb]
      rfl
  · rw [List.head?_append, hlead]
    simp [hd0]
  · exact fun b hb => hd.2 b (List.mem_of_mem_drop hb)
  · rw [List.length_drop]
    omega
  · rcases Nat.le_total t.length (n + 1) with hle | hle
    · -- all digits stand before the point, with zeros after them
      rw [List.take_of_length_le hle, List.drop_of_length_le hle, List.append_nil, zeros,
        digitsValue_append_replicate]
      push_cast
      rw [mul_assoc, ← zpow_natCast, ← zpow_add₀ (by norm_num)]
      congr 2
      simp only [List.length_nil]
      omega
    · rw [List.length_take, Nat.min_eq_left hle, Nat.sub_self, zeros, List.replicate_zero,
        List.append_nil, List.take_append_drop, List.length_drop]
      congr 2
      omega

end Layout

theorem laysOut_layout {ds : Text} {x : Int} (hd : IsDigits ds) (hlead : ds.head? ≠ some 0x30)
    (hx : x.natAbs < 10000) : LaysOut ds x (layout ds x) := by
  obtain ⟨d, ds, rfl⟩ := List.exists_cons_of_ne_nil hd.1
  have hd0 : d ≠ 0x30 := by simpa using hlead
  unfold layout
  split_ifs with hfar hneg
  · simpa [numeral] using laysOut_exponent hd hd0 hx
  · have hzero : ("0." : Text) = [0x30, 0x2E] := rfl
    simpa [numeral, hzero] using laysOut_fraction hd hneg
  · obtain ⟨n, rfl⟩ : ∃ n : Nat, x = n := ⟨x.toNat, by omega⟩
    simpa [numeral] using laysOut_whole hd hd0

/-! ## Reading back -/

section RoundTrip

variable {f : BinaryFormat} {m v : Nat} {e k : Int}

theorem two_zpow_le_scaled (hv : 0 < v) (hk : 0 ≤ k) :
    (2 : ℚ) ^ ((Nat.log2 v : Int) + k * 3) ≤ v * 10 ^ k := by
  rw [zpow_add₀ (by norm_num), mul_comm k, zpow_mul]
  exact mul_le_mul (log2_le hv) (zpow_le_zpow_left₀ hk (by norm_num) (by norm_num)) (by positivity)
    (by positivity)

/-- A scaled integer near a number is rounded to it: it is neither too large nor too small to be
computed. -/
theorem ofScaled_eq (negative : Bool) (hf : f.Bounded) (hc : Canonical f m e) (hm : 0 < m)
    (hk : -1000 ≤ k) (h : Near f m e (v * 10 ^ k)) :
    ofScaled f negative 10 v k = .finite negative m e := by
  have hv : 0 < v := h.digits_pos hm
  have hlt : (v : ℚ) * 10 ^ k < 2 ^ (1024 : Int) :=
    (h.lt_zpow hc).trans_le (zpow_le_zpow_right₀ (by norm_num)
      (by have := hc.le_maxExp; have := hf.maxExp_le; have := hf.bits_le; omega))
  have hlog10 : Nat.log2 10 = 3 := by decide
  have hhigh (hk0 : 0 ≤ k) : (Nat.log2 v : Int) + k * 3 ≤ 5000 := by
    have := exponent_lt_of_zpow_lt ((two_zpow_le_scaled hv hk0).trans_lt hlt)
    omega
  have hv0 : (v == 0) = false := by simpa using hv.ne'
  simp only [ofScaled, hv0, hlog10, Bool.false_eq_true, if_false, Bool.and_eq_true, decide_eq_true_eq]
  rw [if_neg (by omega), if_neg (by omega)]
  cases k with
  | ofNat i =>
    refine ofRatio_eq negative hc (Nat.mul_pos hv (Nat.pow_pos (by decide))) one_pos hf.bits_pos ?_
    simpa using h
  | negSucc i =>
    refine ofRatio_eq negative hc hv (Nat.pow_pos (by decide)) hf.bits_pos ?_
    rw [zpow_negSucc] at h
    simpa [div_eq_mul_inv] using h

theorem natAbs_shortest_lt (hf : f.Bounded) (hc : Canonical f m e) (hm : 0 < m) :
    ((shortest f m e).exponent + (ofNat (shortest f m e).digits).length - 1).natAbs < 10000 := by
  obtain ⟨hnear, hlow⟩ := shortest_spec hf hc hm
  generalize shortest f m e = s at hnear hlow ⊢
  obtain ⟨n, k⟩ := s
  simp only at hnear hlow ⊢
  obtain ⟨len, hlen⟩ : ∃ len, (ofNat n).length = len + 1 :=
    ⟨(ofNat n).length - 1, by have := List.length_pos_of_ne_nil (isDigits_ofNat n).1; omega⟩
  have hn : 1 ≤ n := hnear.digits_pos hm
  have hpow : 10 ^ len ≤ n := by
    rcases Nat.eq_zero_or_pos len with rfl | hpos
    · simpa using hn
    · have := (length_ofNat_le (n := n) hpos).not.mp (by omega)
      omega
  have hlt : (10 : ℚ) ^ (k + len) < 10 ^ (1024 : Int) :=
    calc (10 : ℚ) ^ (k + len) = 10 ^ len * 10 ^ k := by
          rw [zpow_add₀ (by norm_num), zpow_natCast, mul_comm]
      _ ≤ n * 10 ^ k := mul_le_mul_of_nonneg_right (by exact_mod_cast hpow) (ten_zpow_pos k).le
      _ < 2 ^ (e + f.bits) := hnear.lt_zpow hc
      _ ≤ 2 ^ (1024 : Int) := zpow_le_zpow_right₀ (by norm_num)
          (by have := hc.le_maxExp; have := hf.maxExp_le; have := hf.bits_le; omega)
      _ ≤ 10 ^ (1024 : Int) := zpow_le_zpow_left₀ (by norm_num) (by norm_num) (by norm_num)
  have := (zpow_lt_zpow_iff_right₀ (by norm_num : (1 : ℚ) < 10)).mp hlt
  rw [hlen]
  omega

/-- The text of a finite number is a numeral that is rounded to it. -/
theorem toText_spec (negative : Bool) (hf : f.Bounded) (hc : Canonical f m e) :
    ∃ whole fraction ex y, toText f (.finite negative m e) = signed negative (numeral whole fraction ex) ∧
      IsDigits whole ∧ (whole.head? = some 0x30 → whole = [0x30]) ∧
      (∀ b ∈ fraction, isDigit b = true) ∧ IsExponentText y ex ∧
      ofScaled f negative 10 (digitsValue (whole ++ fraction)) (y - fraction.length) =
        .finite negative m e := by
  rcases Nat.eq_zero_or_pos m with rfl | hm
  · have he : e = f.minExp :=
      hc.full.resolve_left (not_le.mpr (Nat.pow_pos (by decide)))
    refine ⟨[0x30], [], [], 0, ?_, ⟨by simp, by simp [isDigit]⟩, by simp, by simp, .missing, ?_⟩
    · cases negative <;> rfl
    · rw [he]
      rfl
  · obtain ⟨hnear, hlow⟩ := shortest_spec hf hc hm
    have hx := natAbs_shortest_lt hf hc hm
    obtain ⟨z, hz, hdigits, hlead⟩ := significant_spec (hnear.digits_pos hm)
    obtain ⟨whole, fraction, ex, y, hlay, hw, hwlead, hfrac, hex, hmin, hvalue⟩ :=
      laysOut_layout hdigits hlead hx
    have hm0 : (m == 0) = false := by simpa using hm.ne'
    -- the exponent of the last significant digit
    have hlast : (shortest f m e).exponent + (ofNat (shortest f m e).digits).length - 1 + 1 -
        (significant (shortest f m e).digits).length = (shortest f m e).exponent + z := by
      rw [hz, List.length_append, List.length_replicate]
      push_cast
      ring
    refine ⟨whole, fraction, ex, y, ?_, hw, hwlead, hfrac, hex, ofScaled_eq negative hf hc hm ?_ ?_⟩
    · simp only [toText, hm0, Bool.false_eq_true, if_false, hlay, signed]
    · omega
    · have hall : digitsValue (significant (shortest f m e).digits) * 10 ^ z =
          (shortest f m e).digits := by
        rw [← digitsValue_append_replicate, ← hz, digitsValue_ofNat]
      have hall' : (digitsValue (significant (shortest f m e).digits) : ℚ) * 10 ^ z =
          (shortest f m e).digits := by exact_mod_cast hall
      rw [hvalue, hlast, add_comm, zpow_add₀ (by norm_num), zpow_natCast, ← mul_assoc, hall']
      exact hnear

theorem parse_toText (negative : Bool) (hf : f.Bounded) (hc : Canonical f m e) :
    parse f (toText f (.finite negative m e)) = .ok (.finite negative m e) := by
  obtain ⟨whole, fraction, ex, y, heq, hw, -, hfrac, hex, hround⟩ := toText_spec negative hf hc
  rw [heq, parse_numeral negative f hw hfrac hex rfl hround]

theorem isNumber_toText (negative : Bool) (hf : f.Bounded) (hc : Canonical f m e) :
    IsNumber (toText f (.finite negative m e)) := by
  obtain ⟨whole, fraction, ex, y, heq, hw, hlead, hfrac, hex, -⟩ := toText_spec negative hf hc
  rw [heq]
  exact isNumber_numeral negative hw hlead hfrac hex

end RoundTrip

end WireSchema.Binary
