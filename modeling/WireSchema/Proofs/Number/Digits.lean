import Mathlib.Data.List.Basic
import Mathlib.Data.List.TakeWhile
import Mathlib.Tactic.Ring
import WireSchema.Number.Integer
import WireSchema.Proofs.Json.Grammar

/-!
# Decimal digits

The value of a text of digits, what the digits of a number look like, and that signed integers are
read back from their digits.
-/

namespace WireSchema.Text

/-- The number that decimal digits spell, first digit first. -/
def digitsValue (t : Text) : Nat := t.foldl (fun n d => n * 10 + (d.toNat - 0x30)) 0

theorem foldl_digits (n : Nat) (t : Text) :
    t.foldl (fun n d => n * 10 + (d.toNat - 0x30)) n = n * 10 ^ t.length + digitsValue t := by
  induction t generalizing n with
  | nil => simp [digitsValue]
  | cons d t ih =>
    have hd : digitsValue (d :: t) = (0 * 10 + (d.toNat - 0x30)) * 10 ^ t.length + digitsValue t :=
      ih _
    rw [List.foldl_cons, ih, hd, List.length_cons, Nat.pow_succ]
    ring

@[simp]
theorem digitsValue_nil : digitsValue [] = 0 := rfl

theorem digitsValue_cons (d : UInt8) (t : Text) :
    digitsValue (d :: t) = (d.toNat - 0x30) * 10 ^ t.length + digitsValue t := by
  rw [digitsValue, List.foldl_cons, foldl_digits, Nat.zero_mul, Nat.zero_add]

theorem digitsValue_append (t u : Text) :
    digitsValue (t ++ u) = digitsValue t * 10 ^ u.length + digitsValue u := by
  rw [digitsValue, List.foldl_append, foldl_digits]
  rfl

theorem digitsValue_replicate (z : Nat) : digitsValue (List.replicate z 0x30) = 0 := by
  induction z with
  | zero => rfl
  | succ z ih => rw [List.replicate_succ, digitsValue_cons, ih]; simp

theorem digitsValue_replicate_append (z : Nat) (t : Text) :
    digitsValue (List.replicate z 0x30 ++ t) = digitsValue t := by
  rw [digitsValue_append, digitsValue_replicate, Nat.zero_mul, Nat.zero_add]

theorem digitsValue_append_replicate (t : Text) (z : Nat) :
    digitsValue (t ++ List.replicate z 0x30) = digitsValue t * 10 ^ z := by
  rw [digitsValue_append, digitsValue_replicate, List.length_replicate, Nat.add_zero]

/-- A text is what is left of it without its trailing zeros, and zeros. -/
theorem exists_trim (t : Text) :
    ∃ z, t = (t.reverse.dropWhile (· == 0x30)).reverse ++ List.replicate z 0x30 := by
  refine ⟨(t.reverse.takeWhile (· == 0x30)).length, ?_⟩
  have hzeros : t.reverse.takeWhile (· == 0x30) =
      List.replicate (t.reverse.takeWhile (· == 0x30)).length 0x30 :=
    List.eq_replicate_length.mpr fun b hb => by simpa using List.mem_takeWhile_imp hb
  have := congrArg List.reverse (List.takeWhile_append_dropWhile (p := (· == 0x30)) (l := t.reverse))
  rw [List.reverse_append, List.reverse_reverse, hzeros, List.reverse_replicate] at this
  exact this.symm

def digit (n : Nat) : UInt8 := UInt8.ofNat (0x30 + n)

theorem ne_of_isDigit {b c : UInt8} (h : isDigit b = true) (hc : isDigit c = false) : b ≠ c := by
  rintro rfl
  simp [h] at hc

theorem toNat_digit {n : Nat} (h : n < 10) : (digit n).toNat = 0x30 + n := by
  simp [digit]
  omega

theorem isDigit_digit {n : Nat} (h : n < 10) : isDigit (digit n) = true := by
  simp [isDigit, UInt8.le_iff_toNat_le, toNat_digit h]
  omega

theorem toNat_sub_lt_of_isDigit {d : UInt8} (h : isDigit d = true) : d.toNat - 0x30 < 10 := by
  simp [isDigit, UInt8.le_iff_toNat_le] at h
  omega

theorem digitChar_eq : ∀ n < 10, (Nat.digitChar n).toNat.toUInt8 = digit n := by
  decide

theorem ofNat_of_lt {n : Nat} (h : n < 10) : ofNat n = [digit n] := by
  simp [ofNat, Nat.toDigits_of_lt_base h, digitChar_eq n h]

theorem ofNat_of_le {n : Nat} (h : 10 ≤ n) : ofNat n = ofNat (n / 10) ++ [digit (n % 10)] := by
  simp [ofNat, Nat.toDigits_of_base_le (by decide) h, digitChar_eq _ (Nat.mod_lt n (by decide))]

theorem mul_pow_add_digitsValue_cons (n : Nat) (d : UInt8) (t : Text) :
    n * 10 ^ (d :: t).length + digitsValue (d :: t) =
      (n * 10 + (d.toNat - 0x30)) * 10 ^ t.length + digitsValue t := by
  rw [digitsValue_cons, List.length_cons, Nat.pow_succ]
  ring

theorem digitsValue_ofNat (n : Nat) : digitsValue (ofNat n) = n := by
  induction n using Nat.strongRecOn with
  | ind n ih =>
    by_cases h : n < 10
    · rw [ofNat_of_lt h, digitsValue_cons, toNat_digit h]
      simp
    · rw [ofNat_of_le (by omega), digitsValue_append, ih _ (by omega), digitsValue_cons,
        toNat_digit (by omega)]
      simp
      omega

theorem isDigits_ofNat (n : Nat) : Json.IsDigits (ofNat n) := by
  induction n using Nat.strongRecOn with
  | ind n ih =>
    by_cases h : n < 10
    · rw [ofNat_of_lt h]
      exact ⟨by simp, by simp [isDigit_digit h]⟩
    · rw [ofNat_of_le (by omega)]
      refine ⟨by simp, fun b hb => ?_⟩
      rcases List.mem_append.mp hb with hb | hb
      · exact (ih _ (by omega)).2 b hb
      · obtain rfl := List.mem_singleton.mp hb
        exact isDigit_digit (by omega)

theorem head_ofNat {n : Nat} (h : (ofNat n).head? = some 0x30) : n = 0 := by
  induction n using Nat.strongRecOn with
  | ind n ih =>
    by_cases hn : n < 10
    · rw [ofNat_of_lt hn, List.head?_cons, Option.some.injEq] at h
      have := toNat_digit hn
      rw [h] at this
      simp at this
      omega
    · rw [ofNat_of_le (by omega), List.head?_append_of_ne_nil _ (isDigits_ofNat _).1] at h
      have := ih _ (by omega) h
      omega

theorem length_ofNat_le {n k : Nat} (hk : 0 < k) : (ofNat n).length ≤ k ↔ n < 10 ^ k := by
  simp [ofNat, Nat.length_toDigits_le_iff (by decide : 1 < 10) hk]

def signed (negative : Bool) (t : Text) : Text := if negative then 0x2D :: t else t

theorem signed_append (negative : Bool) (t u : Text) :
    signed negative (t ++ u) = signed negative t ++ u := by
  cases negative <;> rfl

end WireSchema.Text

namespace WireSchema.Integer

open Text

theorem splitSign_signed (negative : Bool) {d : UInt8} {t : Text} (hd : isDigit d = true) :
    splitSign (signed negative (d :: t)) = (negative, d :: t) := by
  cases negative with
  | true => rfl
  | false =>
    simp only [signed, Bool.false_eq_true, if_false]
    unfold splitSign
    split
    · rename_i heq
      exact absurd (List.cons.inj heq).1 (ne_of_isDigit hd rfl)
    · rename_i heq
      exact absurd (List.cons.inj heq).1 (ne_of_isDigit hd rfl)
    · rfl

theorem splitSign_isDigits (negative : Bool) {t : Text} (h : Json.IsDigits t) :
    splitSign (signed negative t) = (negative, t) := by
  obtain ⟨d, ds, rfl⟩ := List.exists_cons_of_ne_nil h.1
  exact splitSign_signed negative (h.2 d (by simp))

/-- Digits are scanned to their value, as long as it stays below the limit. -/
theorem scanDigits_eq {limit : Nat} {t : Text} (h : ∀ b ∈ t, isDigit b = true) (n : Nat)
    (hl : n * 10 ^ t.length + digitsValue t ≤ limit) :
    scanDigits 10 limit n t = .value (n * 10 ^ t.length + digitsValue t) := by
  induction t generalizing n with
  | nil => simp [scanDigits]
  | cons d t ih =>
    have hd : isDigit d = true := h d (by simp)
    have hlt := toNat_sub_lt_of_isDigit hd
    rw [mul_pow_add_digitsValue_cons] at hl
    have hle : n * 10 + (d.toNat - 0x30) ≤ limit := by
      have := Nat.le_mul_of_pos_right (n * 10 + (d.toNat - 0x30))
        (Nat.pow_pos (n := t.length) (by decide : 0 < 10))
      omega
    rw [mul_pow_add_digitsValue_cons]
    simp only [scanDigits, digitValue?, hd, if_true]
    rw [if_neg (by omega), if_neg (by omega)]
    exact ih (fun b hb => h b (by simp [hb])) _ hl

theorem parse_ofInt {bits : Nat} {n : Int} (hb : 0 < bits) (hlow : -(half bits : Int) ≤ n)
    (hhigh : n < half bits) : parse bits (ofInt n) = .ok n := by
  have hlimit : half bits ≤ Nat.pow 2 bits - 1 := by
    obtain ⟨k, rfl⟩ : ∃ k, bits = k + 1 := ⟨bits - 1, by omega⟩
    have : 0 < 2 ^ k := Nat.pow_pos (by decide)
    simp only [half, Nat.add_sub_cancel, Nat.pow_eq, Nat.pow_succ]
    omega
  have hscan (k : Nat) (hk : k ≤ half bits) : scanUnsigned 10 bits (ofNat k) = .value k := by
    have hne : (ofNat k).isEmpty = false := by simpa using (isDigits_ofNat k).1
    have hle : 0 * 10 ^ (ofNat k).length + digitsValue (ofNat k) ≤ Nat.pow 2 bits - 1 := by
      rw [digitsValue_ofNat]
      omega
    rw [scanUnsigned, hne, if_neg (by decide), scanDigits_eq (isDigits_ofNat k).2 0 hle,
      digitsValue_ofNat, Nat.zero_mul, Nat.zero_add]
  cases n with
  | ofNat k =>
    have hk : k < half bits := by simpa using hhigh
    have hr : readSigned bits (ofInt (.ofNat k)) = (.ofNat k, none) := by
      have hsplit : splitSign (ofNat k) = (false, ofNat k) :=
        splitSign_isDigits false (isDigits_ofNat k)
      simp only [readSigned, ofInt, hsplit, hscan k hk.le, clamp]
      rw [if_neg (by decide), if_neg (by omega)]
      rfl
    rw [parse, hr]
  | negSucc k =>
    have hk : k + 1 ≤ half bits := by
      rw [Int.negSucc_eq] at hlow
      omega
    have hr : readSigned bits (ofInt (.negSucc k)) = (.negSucc k, none) := by
      simp only [readSigned, ofInt, splitSign, hscan (k + 1) hk, clamp, if_true]
      rw [if_neg (by omega)]
      rfl
    rw [parse, hr]

theorem isNumber_ofInt (n : Int) : Json.IsNumber (ofInt n) := by
  have hwhole (k : Nat) : (ofNat k).head? = some 0x30 → ofNat k = [0x30] := by
    intro h
    rw [head_ofNat h]
    rfl
  cases n with
  | ofNat k =>
    exact ⟨[], ofNat k, [], [], by simp [ofInt], .inl rfl, isDigits_ofNat k, hwhole k, .inl rfl, .inl rfl⟩
  | negSucc k =>
    exact ⟨[0x2D], ofNat (k + 1), [], [], by simp [ofInt], .inr rfl, isDigits_ofNat _, hwhole _, .inl rfl,
      .inl rfl⟩

end WireSchema.Integer
