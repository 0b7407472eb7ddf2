import Mathlib.Tactic.Positivity
import WireSchema.Proofs.Number.BinaryText

/-!
# Which numbers are too large for a format

Rounding ends in infinity from half a unit above the largest number of the format on, and nowhere
below. So a text of digits is read as a finite number exactly if the number that it spells is below that
bound.
-/

namespace WireSchema

/-- Half a unit above the largest number of the format. -/
def BinaryFormat.overflow (f : BinaryFormat) : ℚ := (2 ^ f.bits - 1 / 2) * 2 ^ f.maxExp

namespace Binary

theorem overflow_double : BinaryFormat.double.overflow = 2 ^ 1024 - 2 ^ 970 := by
  have hbits : BinaryFormat.double.bits = 53 := rfl
  have hmax : BinaryFormat.double.maxExp = ((971 : Nat) : Int) := rfl
  have hlarge : (2 : ℚ) ^ 1024 = 2 ^ 53 * 2 ^ 971 := pow_add 2 53 971
  have hhalf : (2 : ℚ) ^ 971 = 2 * 2 ^ 970 := pow_succ' 2 970
  rw [BinaryFormat.overflow, hbits, hmax, zpow_natCast, hlarge, hhalf]
  generalize (2 : ℚ) ^ 970 = x
  ring

/-! ## Ratios -/

theorem roundDiv_le {a b : Nat} (hb : 0 < b) : (roundDiv a b : ℚ) ≤ a / b + 1 / 2 := by
  obtain ⟨q, r, ha, hr⟩ : ∃ q r, a = b * q + r ∧ r < b :=
    ⟨a / b, a % b, (Nat.div_add_mod a b).symm, Nat.mod_lt a hb⟩
  have hq : a / b = q := by rw [ha, Nat.mul_add_div hb, Nat.div_eq_of_lt hr, Nat.add_zero]
  have hmod : a % b = r := by rw [ha, Nat.mul_add_mod, Nat.mod_eq_of_lt hr]
  have hb' : (0 : ℚ) < b := by exact_mod_cast hb
  have hratio : (a : ℚ) / b = q + r / b := by
    rw [ha]
    push_cast
    field_simp
  have hrest : (0 : ℚ) ≤ r / b := by positivity
  simp only [roundDiv, hq, hmod]
  split_ifs with hup
  · have hhalf : (b : ℚ) ≤ 2 * r := by
      simp only [Bool.or_eq_true, decide_eq_true_eq, Bool.and_eq_true, beq_iff_eq] at hup
      have : b ≤ 2 * r := by omega
      exact_mod_cast this
    have : (1 : ℚ) / 2 ≤ r / b := by
      rw [div_le_div_iff₀ (by norm_num) hb']
      linarith
    push_cast
    linarith
  · linarith

section Ratio

variable {f : BinaryFormat} {n d : Nat} {e : Int}

theorem overflow_pos : 0 < f.overflow := by
  have : (1 : ℚ) ≤ 2 ^ f.bits := one_le_pow₀ (by norm_num)
  exact mul_pos (by linarith) (two_zpow_pos _)

theorem overflow_lt : f.overflow < 2 ^ (f.maxExp + f.bits) := by
  rw [add_comm, zpow_add₀ (by norm_num), zpow_natCast]
  exact mul_lt_mul_of_pos_right (by linarith) (two_zpow_pos _)

theorem le_overflow (hbits : 0 < f.bits) : (2 : ℚ) ^ (f.maxExp + f.bits - 1) ≤ f.overflow := by
  have hone : (1 : ℚ) ≤ 2 ^ (f.bits - 1) := one_le_pow₀ (by norm_num)
  have hpow : (2 : ℚ) ^ f.bits = 2 * 2 ^ (f.bits - 1) := by
    rw [← pow_succ', Nat.sub_add_cancel hbits]
  rw [show f.maxExp + f.bits - 1 = ((f.bits - 1 : Nat) : Int) + f.maxExp by omega,
    zpow_add₀ (by norm_num), zpow_natCast, BinaryFormat.overflow, hpow]
  exact mul_le_mul_of_nonneg_right (by linarith) (two_zpow_pos _).le

theorem isFinite_ofRatio (negative : Bool) (hn : 0 < n) (he : unitExp f n d = e) :
    (ofRatio f negative n d).isFinite = true ↔
      (if roundDiv (inUnits n d e).1 (inUnits n d e).2 = 2 ^ f.bits then e + 1 else e) ≤ f.maxExp := by
  have hn' : (n == 0) = false := by simpa using hn.ne'
  simp only [ofRatio, hn', he, Nat.pow_eq, beq_iff_eq, Bool.false_eq_true, if_false]
  split_ifs <;> simp_all [isFinite]

/-- From the bound on, a ratio lies in the last half unit below a power of two and is rounded up to
that. -/
theorem roundDiv_of_overflow_le (hd : 0 < d) (hbits : 0 < f.bits) (hlow : f.overflow ≤ (n : ℚ) / d)
    (hhigh : (n : ℚ) / d < 2 ^ (f.maxExp + f.bits)) :
    roundDiv (inUnits n d f.maxExp).1 (inUnits n d f.maxExp).2 = 2 ^ f.bits := by
  have heven : ¬ 2 ^ f.bits % 2 = 1 := by
    rw [← Nat.sub_add_cancel hbits, pow_succ]
    omega
  refine roundDiv_of_ratio (inUnits_pos hd _) (inUnits_ratio hd _) ?_ ?_
    (fun h => absurd h heven) (fun h => absurd h heven)
  · rw [le_div_iff₀ (two_zpow_pos _)]
    push_cast
    exact hlow
  · rw [add_comm, zpow_add₀ (by norm_num), zpow_natCast, ← div_lt_iff₀ (two_zpow_pos _)] at hhigh
    push_cast
    linarith

theorem roundDiv_of_lt_overflow (hd : 0 < d) (h : (n : ℚ) / d < f.overflow) :
    roundDiv (inUnits n d f.maxExp).1 (inUnits n d f.maxExp).2 ≠ 2 ^ f.bits := by
  intro hfull
  have hround := roundDiv_le (inUnits_pos (n := n) hd f.maxExp) (a := (inUnits n d f.maxExp).1)
  rw [inUnits_ratio hd, hfull] at hround
  have hlt : (n : ℚ) / d / 2 ^ f.maxExp < 2 ^ f.bits - 1 / 2 :=
    (div_lt_iff₀ (two_zpow_pos _)).mpr h
  push_cast at hround
  linarith

/-- **The largest ratios that are rounded to a number** are those below the bound. -/
theorem isFinite_ofRatio_iff (negative : Bool) (hn : 0 < n) (hd : 0 < d) (hbits : 0 < f.bits)
    (hexp : f.minExp ≤ f.maxExp) :
    (ofRatio f negative n d).isFinite = true ↔ (n : ℚ) / d < f.overflow := by
  obtain ⟨exact, hunit, hlow, hhigh⟩ := unitExp_spec hn hd hbits
  obtain ⟨e, he⟩ : ∃ e, max exact f.minExp = e := ⟨_, rfl⟩
  have hexact : exact ≤ e := by omega
  rw [isFinite_ofRatio negative hn (hunit.trans he)]
  constructor
  · intro hfinite
    by_contra hlarge
    rw [not_lt] at hlarge
    have hmax : f.maxExp ≤ exact := by
      have := exponent_lt_of_zpow_lt (((le_overflow hbits).trans hlarge).trans_lt hhigh)
      omega
    obtain rfl : e = f.maxExp := by
      have : e ≤ f.maxExp := by split_ifs at hfinite <;> omega
      omega
    obtain rfl : exact = f.maxExp := by omega
    rw [if_pos (roundDiv_of_overflow_le hd hbits hlarge hhigh)] at hfinite
    omega
  · intro hsmall
    have hmax : exact ≤ f.maxExp := by
      have := exponent_lt_of_zpow_lt (hlow.trans_lt (hsmall.trans overflow_lt))
      omega
    rcases (show e ≤ f.maxExp by omega).lt_or_eq with hlt | rfl
    · split_ifs <;> omega
    · rw [if_neg (roundDiv_of_lt_overflow hd hsmall)]

end Ratio

/-! ## Digits and a power of ten -/

section Scaled

variable {f : BinaryFormat} {v : Nat} {k : Int}

theorem scaled_lt_two_zpow (hv : 0 < v) (hk : k ≤ 0) :
    (v : ℚ) * 10 ^ k < 2 ^ ((Nat.log2 v : Int) + 1 + k * 3) := by
  have hpow : (10 : ℚ) ^ k ≤ (2 ^ (3 : Int)) ^ k := by
    rw [← neg_neg k, zpow_neg _ (-k), zpow_neg _ (-k)]
    exact inv_anti₀ (by positivity) (zpow_le_zpow_left₀ (by omega) (by norm_num) (by norm_num))
  rw [zpow_add₀ (by norm_num), mul_comm k, zpow_mul]
  exact mul_lt_mul (lt_log2 hv) hpow (by positivity) (by positivity)

/-- Digits with a power of ten are finite below the bound, also where the power is not computed. -/
theorem isFinite_ofScaled_iff (negative : Bool) (hf : f.Bounded) (hexp : f.minExp ≤ f.maxExp) :
    (ofScaled f negative 10 v k).isFinite = true ↔ (v : ℚ) * 10 ^ k < f.overflow := by
  have hlog10 : Nat.log2 10 = 3 := by decide
  have hpos := overflow_pos (f := f)
  have hlow := hf.le_minExp
  have hbits := hf.bits_pos
  rcases Nat.eq_zero_or_pos v with rfl | hv
  · simpa [ofScaled, isFinite] using hpos
  have hv0 : (v == 0) = false := by simpa using hv.ne'
  simp only [ofScaled, hv0, hlog10, Bool.false_eq_true, if_false, Bool.and_eq_true, decide_eq_true_eq]
  split_ifs with hlarge hsmall
  · have : f.overflow ≤ v * 10 ^ k := by
      have hmax := hf.maxExp_le
      have hle := hf.bits_le
      refine overflow_lt.le.trans (le_trans ?_ (two_zpow_le_scaled hv hlarge.1))
      exact zpow_le_zpow_right₀ (by norm_num) (by omega)
    simpa [isFinite] using this
  · have : (v : ℚ) * 10 ^ k < f.overflow := by
      refine (scaled_lt_two_zpow hv (by omega)).trans_le (le_trans ?_ (le_overflow hbits))
      exact zpow_le_zpow_right₀ (by norm_num) (by omega)
    simpa [isFinite] using this
  · cases k with
    | ofNat i =>
      have hn : 0 < v * Nat.pow 10 i := Nat.mul_pos hv (Nat.pow_pos (by decide))
      refine (isFinite_ofRatio_iff negative hn one_pos hbits hexp).trans ?_
      simp
    | negSucc i =>
      have hd : 0 < Nat.pow 10 (i + 1) := Nat.pow_pos (by decide)
      refine (isFinite_ofRatio_iff negative hv hd hbits hexp).trans ?_
      rw [zpow_negSucc, div_eq_mul_inv]
      simp

end Scaled

/-- A numeral without an exponent is read as a finite number exactly if what it spells is below the
bound. -/
theorem read_numeral_iff (negative : Bool) {f : BinaryFormat} (hf : f.Bounded)
    (hexp : f.minExp ≤ f.maxExp) {whole fraction : Text} (hw : Json.IsDigits whole)
    (hfraction : ∀ b ∈ fraction, Text.isDigit b = true) :
    (∃ x, read f (Text.signed negative (numeral whole fraction [])) = (x, none)) ↔
      (Text.digitsValue (whole ++ fraction) : ℚ) * 10 ^ (-(fraction.length : Int)) < f.overflow := by
  rw [← isFinite_ofScaled_iff negative hf hexp]
  simp only [read, named?_numeral negative hw, parts?_numeral negative hw hfraction .missing,
    Bool.false_eq_true, if_false, zero_sub]
  split_ifs with h <;> simp [h]

end Binary

end WireSchema
