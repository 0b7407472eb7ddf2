import Mathlib.Algebra.Order.Field.Basic
import Mathlib.Algebra.Order.Field.Rat
import Mathlib.Tactic.FieldSimp
import Mathlib.Tactic.Linarith
import Mathlib.Tactic.NormNum
import Mathlib.Tactic.Ring
import WireSchema.Number.Binary

/-!
# Rounding to a binary format

Every positive ratio in the interval around a number of a format is rounded to that number. The
interval ends half a unit above the number and half a unit below it, or a quarter below a power of two,
where the units get smaller; the ends belong to it when the significand is even.
-/

namespace WireSchema.Binary

/-- The significand and the exponent are those of a finite number of the format: the significand fills
all bits unless the exponent is the least one. -/
structure Canonical (f : BinaryFormat) (m : Nat) (e : Int) : Prop where
  lt : m < 2 ^ f.bits
  minExp_le : f.minExp ≤ e
  le_maxExp : e ≤ f.maxExp
  full : 2 ^ (f.bits - 1) ≤ m ∨ e = f.minExp

/-- How far below a number its interval reaches, in units of its last bit. -/
def lowGap (f : BinaryFormat) (m : Nat) (e : Int) : ℚ :=
  if m = 2 ^ (f.bits - 1) ∧ f.minExp < e then 1 / 4 else 1 / 2

/-- The number `x` lies in the interval around `m * 2 ^ e`. -/
structure Near (f : BinaryFormat) (m : Nat) (e : Int) (x : ℚ) : Prop where
  low_le : (m - lowGap f m e) * 2 ^ e ≤ x
  le_high : x ≤ (m + 1 / 2) * 2 ^ e
  low_ne : m % 2 = 1 → (m - lowGap f m e) * 2 ^ e ≠ x
  ne_high : m % 2 = 1 → x ≠ (m + 1 / 2) * 2 ^ e

theorem lowGap_le (f : BinaryFormat) (m : Nat) (e : Int) : lowGap f m e ≤ 1 / 2 := by
  unfold lowGap
  split_ifs <;> norm_num

theorem two_zpow_pos (e : Int) : (0 : ℚ) < 2 ^ e := zpow_pos (by norm_num) e

/-! ## Units -/

theorem inUnits_pos {n d : Nat} (hd : 0 < d) (e : Int) : 0 < (inUnits n d e).2 := by
  unfold inUnits
  split
  · exact Nat.mul_pos hd (Nat.pow_pos (by decide))
  · exact hd

theorem inUnits_ratio {n d : Nat} (hd : 0 < d) (e : Int) :
    ((inUnits n d e).1 : ℚ) / (inUnits n d e).2 = n / d / 2 ^ e := by
  have hd' : (d : ℚ) ≠ 0 := by exact_mod_cast hd.ne'
  unfold inUnits
  split
  · rename_i k
    simp only [Nat.pow_eq]
    push_cast
    rw [div_div]
    simp
  · rename_i k
    simp only [Nat.pow_eq, zpow_negSucc]
    push_cast
    field_simp

/-! ## Quotients -/

/-- A quotient within half of an integer is rounded to it; at exactly half the integer must be even. -/
theorem roundDiv_eq {a b m : Nat} (hb : 0 < b) (hlow : 2 * m * b ≤ 2 * a + b)
    (hhigh : 2 * a ≤ (2 * m + 1) * b) (hlow' : 2 * m * b = 2 * a + b → m % 2 = 0)
    (hhigh' : 2 * a = (2 * m + 1) * b → m % 2 = 0) : roundDiv a b = m := by
  obtain ⟨q, r, ha, hr⟩ : ∃ q r, a = b * q + r ∧ r < b :=
    ⟨a / b, a % b, (Nat.div_add_mod a b).symm, Nat.mod_lt a hb⟩
  have hq : a / b = q := by rw [ha, Nat.mul_add_div hb, Nat.div_eq_of_lt hr, Nat.add_zero]
  have hmod : a % b = r := by rw [ha, Nat.mul_add_mod, Nat.mod_eq_of_lt hr]
  simp only [roundDiv, hq, hmod]
  have htwice : 2 * m * b = 2 * (b * m) := by ring
  have hodd : (2 * m + 1) * b = 2 * (b * m) + b := by ring
  rw [htwice, ha] at hlow hlow'
  rw [hodd, ha] at hhigh hhigh'
  have hle : m ≤ q + 1 := by
    by_contra hlt
    have := Nat.mul_le_mul_left b (show q + 2 ≤ m by omega)
    rw [Nat.mul_add] at this
    omega
  have hge : q ≤ m := by
    by_contra hlt
    have := Nat.mul_le_mul_left b (show m + 1 ≤ q by omega)
    rw [Nat.mul_add] at this
    omega
  rcases (show q = m ∨ q + 1 = m by omega) with rfl | rfl
  · have heven : 2 * r = b → q % 2 = 0 := fun h => hhigh' (by omega)
    rw [if_neg]
    simp only [Bool.or_eq_true, decide_eq_true_eq, Bool.and_eq_true, beq_iff_eq]
    omega
  · rw [Nat.mul_add] at hlow hlow'
    have heven : 2 * r = b → (q + 1) % 2 = 0 := fun h => hlow' (by omega)
    rw [if_pos]
    simp only [Bool.or_eq_true, decide_eq_true_eq, Bool.and_eq_true, beq_iff_eq]
    omega

theorem roundDiv_of_ratio {a b m : Nat} {y : ℚ} (hb : 0 < b) (hy : (a : ℚ) / b = y)
    (hlow : (m : ℚ) - 1 / 2 ≤ y) (hhigh : y ≤ m + 1 / 2) (hlow' : m % 2 = 1 → (m : ℚ) - 1 / 2 ≠ y)
    (hhigh' : m % 2 = 1 → y ≠ m + 1 / 2) : roundDiv a b = m := by
  have hb' : (0 : ℚ) < b := by exact_mod_cast hb
  have ha : (a : ℚ) = y * b := by rw [← hy, div_mul_cancel₀ _ hb'.ne']
  refine roundDiv_eq hb ?_ ?_ ?_ ?_
  · have : (2 : ℚ) * m * b ≤ 2 * a + b := by rw [ha]; nlinarith
    exact_mod_cast this
  · have : (2 : ℚ) * a ≤ (2 * m + 1) * b := by rw [ha]; nlinarith
    exact_mod_cast this
  · intro h
    have h' : (2 : ℚ) * m * b = 2 * a + b := by exact_mod_cast h
    have : (m : ℚ) - 1 / 2 = y := by
      apply mul_right_cancel₀ hb'.ne'
      rw [← ha]
      linarith
    exact (Nat.mod_two_eq_zero_or_one m).resolve_right fun hm => hlow' hm this
  · intro h
    have h' : (2 : ℚ) * a = (2 * m + 1) * b := by exact_mod_cast h
    have : y = m + 1 / 2 := by
      apply mul_right_cancel₀ hb'.ne'
      rw [← ha]
      linarith
    exact (Nat.mod_two_eq_zero_or_one m).resolve_right fun hm => hhigh' hm this

/-! ## Exponents -/

theorem log2_le {n : Nat} (hn : 0 < n) : (2 : ℚ) ^ (Nat.log2 n : Int) ≤ n := by
  rw [zpow_natCast]
  exact_mod_cast Nat.log2_self_le hn.ne'

theorem lt_log2 {n : Nat} (hn : 0 < n) : (n : ℚ) < 2 ^ ((Nat.log2 n : Int) + 1) := by
  have : n < 2 ^ (Nat.log2 n + 1) := (Nat.log2_lt hn.ne').mp (Nat.lt_succ_self _)
  rw [show (Nat.log2 n : Int) + 1 = ((Nat.log2 n + 1 : Nat) : Int) by push_cast; rfl, zpow_natCast]
  exact_mod_cast this

/-- The exponent for a ratio: the least of the format, or the one with which the ratio fills all
bits. -/
theorem unitExp_spec {f : BinaryFormat} {n d : Nat} (hn : 0 < n) (hd : 0 < d) (hbits : 0 < f.bits) :
    ∃ exact : Int, unitExp f n d = max exact f.minExp ∧
      (2 : ℚ) ^ (exact + f.bits - 1) ≤ n / d ∧ (n : ℚ) / d < 2 ^ (exact + f.bits) := by
  have hd' : (0 : ℚ) < d := by exact_mod_cast hd
  have hlow : (2 : ℚ) ^ ((Nat.log2 n : Int) - Nat.log2 d - 1) < n / d := by
    rw [lt_div_iff₀ hd']
    calc (2 : ℚ) ^ ((Nat.log2 n : Int) - Nat.log2 d - 1) * d
        < 2 ^ ((Nat.log2 n : Int) - Nat.log2 d - 1) * 2 ^ ((Nat.log2 d : Int) + 1) :=
          mul_lt_mul_of_pos_left (lt_log2 hd) (two_zpow_pos _)
      _ = 2 ^ (Nat.log2 n : Int) := by rw [← zpow_add₀ (by norm_num)]; congr 1; ring
      _ ≤ n := log2_le hn
  have hhigh : (n : ℚ) / d < 2 ^ ((Nat.log2 n : Int) - Nat.log2 d + 1) := by
    rw [div_lt_iff₀ hd']
    calc (n : ℚ) < 2 ^ ((Nat.log2 n : Int) + 1) := lt_log2 hn
      _ = 2 ^ ((Nat.log2 n : Int) - Nat.log2 d + 1) * 2 ^ (Nat.log2 d : Int) := by
          rw [← zpow_add₀ (by norm_num)]; congr 1; ring
      _ ≤ 2 ^ ((Nat.log2 n : Int) - Nat.log2 d + 1) * d :=
          mul_le_mul_of_nonneg_left (log2_le hd) (two_zpow_pos _).le
  obtain ⟨guess, hguess⟩ : ∃ g : Int, (Nat.log2 n : Int) - Nat.log2 d - (f.bits - 1 : Nat) = g :=
    ⟨_, rfl⟩
  have hb : ((f.bits - 1 : Nat) : Int) = f.bits - 1 := by omega
  have htest : (inUnits n d guess).1 < (inUnits n d guess).2 * Nat.pow 2 (f.bits - 1) ↔
      (n : ℚ) / d < 2 ^ (guess + f.bits - 1) := by
    have hpos : (0 : ℚ) < (inUnits n d guess).2 := by exact_mod_cast inUnits_pos hd guess
    rw [show guess + f.bits - 1 = ((f.bits - 1 : Nat) : Int) + guess by omega,
      zpow_add₀ (by norm_num), ← div_lt_iff₀ (two_zpow_pos guess), ← inUnits_ratio hd,
      div_lt_iff₀ hpos, zpow_natCast, mul_comm (2 ^ _ : ℚ)]
    exact_mod_cast Iff.rfl
  refine ⟨if (inUnits n d guess).1 < (inUnits n d guess).2 * Nat.pow 2 (f.bits - 1) then guess - 1
    else guess, by simp only [unitExp, hguess], ?_⟩
  split_ifs with h
  · rw [htest] at h
    refine ⟨hlow.le.trans' (le_of_eq (congrArg _ ?_)), lt_of_lt_of_eq h (congrArg _ ?_)⟩ <;> omega
  · rw [htest, not_lt] at h
    refine ⟨h, lt_of_lt_of_eq hhigh (congrArg _ ?_)⟩
    omega

/-! ## Nearest numbers -/

section Nearest

variable {f : BinaryFormat} {m n d : Nat} {e : Int} {x : ℚ}

theorem Near.lt_zpow (h : Near f m e x) (hc : Canonical f m e) : x < 2 ^ (e + f.bits) := by
  have hm : (m : ℚ) + 1 ≤ 2 ^ f.bits := by exact_mod_cast hc.lt
  calc x ≤ (m + 1 / 2) * 2 ^ e := h.le_high
    _ < 2 ^ f.bits * 2 ^ e := mul_lt_mul_of_pos_right (by linarith) (two_zpow_pos e)
    _ = 2 ^ (e + f.bits) := by rw [add_comm, zpow_add₀ (by norm_num), zpow_natCast]

theorem exponent_lt_of_zpow_lt {a b : Int} (h : (2 : ℚ) ^ a < 2 ^ b) : a < b :=
  (zpow_lt_zpow_iff_right₀ (by norm_num)).mp h

/-- A ratio near a number but below all numbers with that exponent is near a power of two, a quarter of
a unit below it at most. -/
theorem Near.power_of_lt (h : Near f m e x) (hc : Canonical f m e) (he : f.minExp < e)
    (hx : x < 2 ^ (e - 1 + f.bits)) (hbits : 0 < f.bits) :
    m = 2 ^ (f.bits - 1) ∧ (2 ^ (f.bits - 1) - 1 / 4 : ℚ) * 2 ^ e ≤ x := by
  have hm : 2 ^ (f.bits - 1) ≤ m := hc.full.resolve_right he.ne'
  have hx' : x < 2 ^ (f.bits - 1) * 2 ^ e := by
    rwa [← zpow_natCast, ← zpow_add₀ (by norm_num), show ((f.bits - 1 : Nat) : Int) + e =
      e - 1 + f.bits by omega]
  have hlt : (m - lowGap f m e : ℚ) < 2 ^ (f.bits - 1) :=
    lt_of_mul_lt_mul_right (h.low_le.trans_lt hx') (two_zpow_pos e).le
  have hgap := lowGap_le f m e
  have hm' : m < 2 ^ (f.bits - 1) + 1 := by
    have : (m : ℚ) < 2 ^ (f.bits - 1) + 1 := by linarith
    exact_mod_cast this
  have heq : m = 2 ^ (f.bits - 1) := by omega
  have hlow := h.low_le
  rw [lowGap, if_pos ⟨heq, he⟩, heq] at hlow
  exact ⟨heq, by exact_mod_cast hlow⟩

theorem ofRatio_of_round (negative : Bool) (hn : 0 < n) (he : unitExp f n d = e)
    (hk : roundDiv (inUnits n d e).1 (inUnits n d e).2 = m) (hlt : m < 2 ^ f.bits)
    (hmax : e ≤ f.maxExp) : ofRatio f negative n d = .finite negative m e := by
  have hn' : (n == 0) = false := by simpa using hn.ne'
  have hfull : (m == 2 ^ f.bits) = false := by simpa using hlt.ne
  simp only [ofRatio, hn', he, hk, Nat.pow_eq, hfull, Bool.false_eq_true, if_false, not_lt.mpr hmax]

theorem ofRatio_of_round_full (negative : Bool) (hn : 0 < n) (he : unitExp f n d = e)
    (hk : roundDiv (inUnits n d e).1 (inUnits n d e).2 = 2 ^ f.bits) (hmax : e + 1 ≤ f.maxExp) :
    ofRatio f negative n d = .finite negative (2 ^ (f.bits - 1)) (e + 1) := by
  have hn' : (n == 0) = false := by simpa using hn.ne'
  simp only [ofRatio, hn', he, hk, Nat.pow_eq, beq_self_eq_true, Bool.false_eq_true, if_false, if_true,
    not_lt.mpr hmax]

/-- A ratio near a number is, in units of that number, rounded to it. -/
theorem Near.roundDiv_eq (h : Near f m e (n / d)) (hd : 0 < d) :
    roundDiv (inUnits n d e).1 (inUnits n d e).2 = m := by
  have hgap := lowGap_le f m e
  have hhalf : (m - 1 / 2 : ℚ) * 2 ^ e ≤ (m - lowGap f m e) * 2 ^ e :=
    mul_le_mul_of_nonneg_right (by linarith) (two_zpow_pos e).le
  refine roundDiv_of_ratio (inUnits_pos hd _) (inUnits_ratio hd _) ?_ ?_ ?_ ?_
  · rw [le_div_iff₀ (two_zpow_pos _)]
    exact hhalf.trans h.low_le
  · rw [div_le_iff₀ (two_zpow_pos _)]
    exact h.le_high
  · intro hodd heq
    refine h.low_ne hodd (le_antisymm h.low_le ?_)
    rw [eq_div_iff (two_zpow_pos _).ne'] at heq
    exact heq ▸ hhalf
  · intro hodd heq
    rw [div_eq_iff (two_zpow_pos _).ne'] at heq
    exact h.ne_high hodd heq

/-- A ratio a quarter of a unit at most below a power of two is more than the half of it. -/
theorem exponent_lt_of_quarter (hbits : 0 < f.bits)
    (hx : (2 ^ (f.bits - 1) - 1 / 4 : ℚ) * 2 ^ e ≤ x) {b : Int} (hb : x < 2 ^ b) :
    e - 1 + f.bits - 1 < b := by
  have hone : (1 : ℚ) ≤ 2 ^ (f.bits - 1) := one_le_pow₀ (by norm_num)
  refine exponent_lt_of_zpow_lt ?_
  calc (2 : ℚ) ^ (e - 1 + f.bits - 1) = 2 ^ (f.bits - 1) / 2 * 2 ^ e := by
        rw [show e - 1 + f.bits - 1 = ((f.bits - 1 : Nat) : Int) + e - 1 by omega,
          zpow_sub_one₀ (by norm_num), zpow_add₀ (by norm_num), zpow_natCast]
        ring
    _ ≤ (2 ^ (f.bits - 1) - 1 / 4) * 2 ^ e :=
        mul_le_mul_of_nonneg_right (by linarith) (two_zpow_pos e).le
    _ < 2 ^ b := hx.trans_lt hb

/-- In units half as large, such a ratio is rounded up to the power of two, which does not fit the
format any more. -/
theorem roundDiv_of_quarter (hbits : 0 < f.bits) (hd : 0 < d)
    (hx : (2 ^ (f.bits - 1) - 1 / 4 : ℚ) * 2 ^ e ≤ n / d) (hlt : (n / d : ℚ) < 2 ^ (e - 1 + f.bits)) :
    roundDiv (inUnits n d (e - 1)).1 (inUnits n d (e - 1)).2 = 2 ^ f.bits := by
  have heven : ¬ 2 ^ f.bits % 2 = 1 := by
    rw [← Nat.sub_add_cancel hbits, pow_succ]
    omega
  have hpow : (2 : ℚ) ^ f.bits = 2 * 2 ^ (f.bits - 1) := by
    rw [← pow_succ', Nat.sub_add_cancel hbits]
  have hhalf : (2 : ℚ) ^ e = 2 * 2 ^ (e - 1) := by
    rw [zpow_sub_one₀ (by norm_num)]
    ring
  refine roundDiv_of_ratio (inUnits_pos hd _) (inUnits_ratio hd _) ?_ ?_
    (fun h => absurd h heven) (fun h => absurd h heven)
  · rw [le_div_iff₀ (two_zpow_pos _)]
    push_cast
    rw [hhalf] at hx
    rw [hpow]
    linarith
  · rw [add_comm, zpow_add₀ (by norm_num), zpow_natCast] at hlt
    rw [div_le_iff₀ (two_zpow_pos _)]
    push_cast
    linarith [two_zpow_pos (e - 1)]

theorem ofRatio_eq (negative : Bool) (hc : Canonical f m e) (hn : 0 < n) (hd : 0 < d)
    (hbits : 0 < f.bits) (h : Near f m e (n / d)) :
    ofRatio f negative n d = .finite negative m e := by
  obtain ⟨exact, hunit, hlow, hhigh⟩ := unitExp_spec hn hd hbits
  have hle : exact ≤ e := by
    have := exponent_lt_of_zpow_lt (hlow.trans_lt (h.lt_zpow hc))
    omega
  rcases (max_le hle hc.minExp_le).lt_or_eq with hlt | heq
  · -- The ratio is below the power of two `m`, in the binade of smaller units: it is rounded up to the
    -- end of that binade.
    have hexact : exact ≤ e - 1 := by have := le_max_left exact f.minExp; omega
    have hmin : f.minExp < e := (le_max_right exact f.minExp).trans_lt hlt
    have hbelow : (n / d : ℚ) < 2 ^ (e - 1 + f.bits) :=
      hhigh.trans_le (zpow_le_zpow_right₀ (by norm_num) (by omega))
    obtain ⟨rfl, hquarter⟩ := h.power_of_lt hc hmin hbelow hbits
    have hunit' : unitExp f n d = e - 1 := by
      have := exponent_lt_of_quarter hbits hquarter hhigh
      omega
    have hround := roundDiv_of_quarter hbits hd hquarter hbelow
    have := ofRatio_of_round_full negative hn hunit' hround (by have := hc.le_maxExp; omega)
    rwa [sub_add_cancel] at this
  · exact ofRatio_of_round negative hn (hunit.trans heq) (h.roundDiv_eq hd) hc.lt hc.le_maxExp

end Nearest

end WireSchema.Binary
