import Mathlib.Algebra.Order.Field.Power
import Mathlib.Tactic.Positivity
import WireSchema.Number.Shortest
import WireSchema.Proofs.Number.Rounding

/-!
# Shortest digits

The digits chosen for a number stand for a decimal in the interval around it. The search ends with such
digits, since eighteen of them are enough for every number of at most 53 bits.
-/

namespace WireSchema

/-- The format has at most the bits and the exponents of double precision. -/
structure BinaryFormat.Bounded (f : BinaryFormat) : Prop where
  bits_pos : 0 < f.bits
  bits_le : f.bits ≤ 53
  le_minExp : -1074 ≤ f.minExp
  maxExp_le : f.maxExp ≤ 971

namespace Binary

theorem bounded_single : BinaryFormat.single.Bounded := ⟨by decide, by decide, by decide, by decide⟩

theorem bounded_double : BinaryFormat.double.Bounded := ⟨by decide, by decide, by decide, by decide⟩

theorem ten_zpow_pos (k : Int) : (0 : ℚ) < 10 ^ k := zpow_pos (by norm_num) k

/-! ## Scaled numbers -/

section Scaled

variable {n d : Nat} {e k : Int}

theorem scaled_pos (n : Nat) (e k : Int) : 0 < (scaled n e k).2 := by
  unfold scaled
  generalize e - 2 = e
  cases e <;> cases k <;> simp

theorem scaled_ratio (n : Nat) (e k : Int) :
    ((scaled n e k).1 : ℚ) = n * 2 ^ (e - 2) * 10 ^ k * (scaled n e k).2 := by
  unfold scaled
  generalize e - 2 = e
  cases e <;> cases k <;> simp only [Nat.pow_eq, zpow_negSucc, Int.ofNat_eq_natCast, zpow_natCast] <;>
    push_cast <;> field_simp

theorem scaled_lt : (scaled n e k).1 < d * (scaled n e k).2 ↔ (n : ℚ) * 2 ^ (e - 2) < d * 10 ^ (-k) := by
  have hb : (0 : ℚ) < (scaled n e k).2 := by exact_mod_cast scaled_pos n e k
  rw [← Nat.cast_lt (α := ℚ), Nat.cast_mul, scaled_ratio, mul_lt_mul_iff_left₀ hb, zpow_neg,
    ← div_eq_mul_inv, lt_div_iff₀ (ten_zpow_pos k)]

theorem scaled_eq : (scaled n e k).1 = d * (scaled n e k).2 ↔ (n : ℚ) * 2 ^ (e - 2) = d * 10 ^ (-k) := by
  have hb : ((scaled n e k).2 : ℚ) ≠ 0 := by exact_mod_cast (scaled_pos n e k).ne'
  rw [← Nat.cast_inj (R := ℚ), Nat.cast_mul, scaled_ratio, mul_left_inj' hb, zpow_neg,
    ← div_eq_mul_inv, eq_div_iff (ten_zpow_pos k).ne']

theorem lt_scaled : d * (scaled n e k).2 < (scaled n e k).1 ↔ (d : ℚ) * 10 ^ (-k) < n * 2 ^ (e - 2) := by
  have hb : (0 : ℚ) < (scaled n e k).2 := by exact_mod_cast scaled_pos n e k
  rw [← Nat.cast_lt (α := ℚ), Nat.cast_mul, scaled_ratio, mul_lt_mul_iff_left₀ hb, zpow_neg,
    ← div_eq_mul_inv, div_lt_iff₀ (ten_zpow_pos k)]

end Scaled

/-! ## Candidates -/

section Candidates

variable {f : BinaryFormat} {m : Nat} {e k : Int}

theorem quarter (n : Nat) (e : Int) : (n : ℚ) * 2 ^ (e - 2) = n / 4 * 2 ^ e := by
  rw [zpow_sub₀ (by norm_num)]
  norm_num
  ring

theorem interval_low (hm : 0 < m) :
    ((interval f m e).1 : ℚ) * 2 ^ (e - 2) = (m - lowGap f m e) * 2 ^ e := by
  rw [quarter]
  congr 1
  unfold interval lowGap
  simp only [Nat.pow_eq, Bool.and_eq_true, beq_iff_eq, decide_eq_true_eq]
  split_ifs <;> rw [Nat.cast_sub (by omega)] <;> push_cast <;> ring

theorem interval_high : ((interval f m e).2.2 : ℚ) * 2 ^ (e - 2) = (m + 1 / 2) * 2 ^ e := by
  rw [quarter]
  congr 1
  simp only [interval]
  push_cast
  ring

/-- Do the digits `n`, with `k` of them after the point, lie in the interval? -/
def inside (f : BinaryFormat) (m : Nat) (e k : Int) (n : Nat) : Bool :=
  ((scaled (interval f m e).1 e k).1 < n * (scaled (interval f m e).1 e k).2
    || (m % 2 == 0 && (scaled (interval f m e).1 e k).1 == n * (scaled (interval f m e).1 e k).2))
  && (n * (scaled (interval f m e).2.2 e k).2 < (scaled (interval f m e).2.2 e k).1
    || (m % 2 == 0 && n * (scaled (interval f m e).2.2 e k).2 == (scaled (interval f m e).2.2 e k).1))

theorem inside_iff (hm : 0 < m) {n : Nat} :
    inside f m e k n = true ↔ Near f m e (n * 10 ^ (-k)) := by
  simp only [inside, Bool.and_eq_true, Bool.or_eq_true, decide_eq_true_eq, beq_iff_eq, scaled_lt,
    scaled_eq, lt_scaled, @eq_comm _ (n * _), interval_low hm, interval_high]
  have hparity := Nat.mod_two_eq_zero_or_one m
  constructor
  · rintro ⟨hlow, hhigh⟩
    refine ⟨?_, ?_, fun hodd => ?_, fun hodd => ?_⟩
    · exact hlow.elim le_of_lt fun h => h.2.le
    · exact hhigh.elim le_of_lt fun h => h.2.ge
    · exact (hlow.resolve_right fun h => by omega).ne
    · exact (hhigh.resolve_right fun h => by omega).ne
  · intro h
    refine ⟨?_, ?_⟩
    · rcases hparity with heven | hodd
      · exact h.low_le.lt_or_eq.imp_right fun heq => ⟨heven, heq⟩
      · exact .inl (lt_of_le_of_ne h.low_le (h.low_ne hodd))
    · rcases hparity with heven | hodd
      · exact h.le_high.lt_or_eq.imp_right fun heq => ⟨heven, heq.symm⟩
      · exact .inl (lt_of_le_of_ne h.le_high (h.ne_high hodd))

/-- The candidate is one of two neighbours, of which the lower one is the number cut off. -/
theorem candidate?_eq (f : BinaryFormat) (m : Nat) (e k : Int) :
    ∃ down up nearer, down = (scaled (4 * m) e k).1 / (scaled (4 * m) e k).2 ∧
      (nearer = down ∨ nearer = up) ∧
      candidate? f m e k =
        if inside f m e k down && inside f m e k up then some nearer
        else if inside f m e k down then some down
        else if inside f m e k up then some up
        else none :=
  ⟨_, _, _, rfl, ite_eq_or_eq _ _ _, rfl⟩

theorem near_of_candidate? {n : Nat} (hm : 0 < m) (h : candidate? f m e k = some n) :
    Near f m e (n * 10 ^ (-k)) := by
  rw [← inside_iff hm]
  obtain ⟨down, up, nearer, -, hnearer, heq⟩ := candidate?_eq f m e k
  rw [heq] at h
  split_ifs at h with hboth hdown hup
  · rw [Bool.and_eq_true] at hboth
    cases h
    rcases hnearer with rfl | rfl
    exacts [hboth.1, hboth.2]
  · cases h
    exact hdown
  · cases h
    exact hup

/-- There is a candidate if the number cut off lies in the interval. -/
theorem candidate?_isSome (hm : 0 < m)
    (h : Near f m e (((scaled (4 * m) e k).1 / (scaled (4 * m) e k).2 : Nat) * 10 ^ (-k))) :
    (candidate? f m e k).isSome = true := by
  obtain ⟨down, up, nearer, rfl, -, heq⟩ := candidate?_eq f m e k
  rw [heq, (inside_iff hm).mpr h]
  simp only [Bool.true_and, if_true]
  split <;> rfl

/-- Cutting a number off after digits that are worth less than a quarter of its last bit keeps it in
its interval. -/
theorem near_cut (hk : (10 : ℚ) ^ (-k) < 2 ^ (e - 2)) :
    Near f m e (((scaled (4 * m) e k).1 / (scaled (4 * m) e k).2 : Nat) * 10 ^ (-k)) := by
  obtain ⟨a, ha⟩ : ∃ a, (scaled (4 * m) e k).1 / (scaled (4 * m) e k).2 = a := ⟨_, rfl⟩
  have hb := scaled_pos (4 * m) e k
  have hle : (a : ℚ) * 10 ^ (-k) ≤ m * 2 ^ e := by
    have : ¬ (scaled (4 * m) e k).1 < a * (scaled (4 * m) e k).2 := by
      rw [← ha]
      exact not_lt.mpr (Nat.div_mul_le_self _ _)
    rw [scaled_lt, not_lt, quarter] at this
    push_cast at this
    linarith
  have hlt : (m : ℚ) * 2 ^ e < (a + 1) * 10 ^ (-k) := by
    have : (scaled (4 * m) e k).1 < (a + 1) * (scaled (4 * m) e k).2 := by
      rw [← ha, ← Nat.div_lt_iff_lt_mul hb]
      exact Nat.lt_succ_self _
    rw [scaled_lt, quarter] at this
    push_cast at this
    linarith
  have hquarter : (2 : ℚ) ^ (e - 2) = 1 / 4 * 2 ^ e := by simpa using quarter 1 e
  have hgap : 1 / 4 * 2 ^ e ≤ lowGap f m e * 2 ^ e := by
    refine mul_le_mul_of_nonneg_right ?_ (two_zpow_pos e).le
    unfold lowGap
    split_ifs <;> norm_num
  have hpos := two_zpow_pos e
  rw [ha]
  have hlow : (m - lowGap f m e) * 2 ^ e < a * 10 ^ (-k) := by linarith
  have hhigh : (a : ℚ) * 10 ^ (-k) < (m + 1 / 2) * 2 ^ e := by linarith
  exact ⟨hlow.le, hhigh.le, fun _ => hlow.ne, fun _ => hhigh.ne⟩

end Candidates

/-! ## The size of a number -/

theorem decimalSize_spec (m : Nat) (e : Int) (fuel : Nat) (k : Int) :
    k ≤ decimalSize m e fuel k ∧
      (decimalSize m e fuel k = k ∨ (10 : ℚ) ^ (decimalSize m e fuel k - 1) ≤ m * 2 ^ e) := by
  induction fuel generalizing k with
  | zero => exact ⟨le_rfl, .inl rfl⟩
  | succ fuel ih =>
    simp only [decimalSize]
    split_ifs with h
    · exact ⟨le_rfl, .inl rfl⟩
    · obtain ⟨hle, hsize⟩ := ih (k + 1)
      refine ⟨by omega, .inr (hsize.elim (fun heq => ?_) id)⟩
      rw [← Nat.one_mul (scaled _ _ _).2, scaled_lt, neg_neg, not_lt, quarter] at h
      push_cast at h
      rw [heq, add_sub_cancel_right]
      linarith

/-- The guessed size of a power of two is too small. -/
theorem ten_zpow_guess_le {l : Int} (hlow : -40000 ≤ l) (hhigh : l ≤ 40000) :
    (10 : ℚ) ^ (l * 30103 / 100000 - 2) ≤ 2 ^ l := by
  obtain ⟨g, hg⟩ : ∃ g, l * 30103 / 100000 - 2 = g := ⟨_, rfl⟩
  rw [hg]
  -- The power of ten is compared with one of two at a power where both are almost the same.
  rcases le_or_gt 0 g with hpos | hneg
  · have hpow : ((10 : ℚ) ^ g) ^ 59 ≤ (2 ^ l) ^ 59 :=
      calc ((10 : ℚ) ^ g) ^ 59 = ((10 : ℚ) ^ (59 : Int)) ^ g := by
            rw [← zpow_natCast, ← zpow_mul, ← zpow_mul, mul_comm]; rfl
        _ ≤ ((2 : ℚ) ^ (196 : Int)) ^ g := zpow_le_zpow_left₀ hpos (by norm_num) (by norm_num)
        _ = 2 ^ (196 * g) := by rw [← zpow_mul]
        _ ≤ 2 ^ (l * 59) := zpow_le_zpow_right₀ (by norm_num) (by omega)
        _ = (2 ^ l) ^ 59 := by rw [zpow_mul]; rfl
    exact le_of_pow_le_pow_left₀ (by norm_num) (two_zpow_pos l).le hpow
  · have hpow : ((10 : ℚ) ^ g) ^ 28 ≤ (2 ^ l) ^ 28 :=
      calc ((10 : ℚ) ^ g) ^ 28 = (((10 : ℚ) ^ (28 : Int)) ^ (-g))⁻¹ := by
            rw [← zpow_natCast, ← zpow_mul, ← zpow_mul, ← zpow_neg]; congr 1; push_cast; ring
        _ ≤ (((2 : ℚ) ^ (93 : Int)) ^ (-g))⁻¹ :=
            inv_anti₀ (by positivity) (zpow_le_zpow_left₀ (by omega) (by norm_num) (by norm_num))
        _ = 2 ^ (93 * g) := by rw [← zpow_mul, ← zpow_neg]; congr 1; ring
        _ ≤ 2 ^ (l * 28) := zpow_le_zpow_right₀ (by norm_num) (by omega)
        _ = (2 ^ l) ^ 28 := by rw [zpow_mul]; rfl
    exact le_of_pow_le_pow_left₀ (by norm_num) (two_zpow_pos l).le hpow

/-! ## The search -/

theorem shortestFrom_spec {f : BinaryFormat} {m : Nat} {e size : Int} {fuel n last : Nat}
    (hle : n ≤ last) (hfuel : last ≤ n + fuel)
    (h : (candidate? f m e (last - size)).isSome = true) :
    ∃ j digits, j ≤ last ∧ candidate? f m e (j - size) = some digits ∧
      shortestFrom f m e size fuel n = ⟨digits, size - j⟩ := by
  induction fuel generalizing n with
  | zero =>
    obtain rfl : last = n := by omega
    obtain ⟨digits, hd⟩ := Option.isSome_iff_exists.mp h
    exact ⟨last, digits, le_rfl, hd, by rw [shortestFrom, hd, Option.getD_some]⟩
  | succ fuel ih =>
    cases hc : candidate? f m e (n - size) with
    | some digits => exact ⟨n, digits, hle, hc, by rw [shortestFrom, hc]⟩
    | none =>
      have hne : n ≠ last := by
        rintro rfl
        simp [hc] at h
      obtain ⟨j, digits, hj, hd, heq⟩ := ih (n := n + 1) (by omega) (by omega)
      exact ⟨j, digits, hj, hd, by rw [shortestFrom, hc, heq]⟩

section Shortest

variable {f : BinaryFormat} {m : Nat} {e : Int}

theorem Near.digits_pos {n : Nat} {k : Int} (hm : 0 < m) (h : Near f m e (n * 10 ^ k)) : 0 < n := by
  have hm' : (1 : ℚ) ≤ m := by exact_mod_cast hm
  have hgap := lowGap_le f m e
  have hpos : (0 : ℚ) < n * 10 ^ k :=
    lt_of_lt_of_le (mul_pos (by linarith) (two_zpow_pos e)) h.low_le
  refine Nat.pos_of_ne_zero fun h0 => ?_
  simp [h0] at hpos

theorem log2_lt_bits (hf : f.Bounded) (hc : Canonical f m e) (hm : 0 < m) : Nat.log2 m < 53 :=
  (Nat.log2_lt hm.ne').mpr (hc.lt.trans_le (Nat.pow_le_pow_right (by decide) hf.bits_le))

/-- The size that the search starts from: the number has a digit there or further left. -/
theorem ten_zpow_size_le (hf : f.Bounded) (hc : Canonical f m e) (hm : 0 < m) (fuel : Nat) :
    (10 : ℚ) ^ (decimalSize m e fuel (((Nat.log2 m : Int) + e) * 30103 / 100000 - 1) - 1)
      ≤ m * 2 ^ e := by
  rcases (decimalSize_spec m e fuel _).2 with heq | hle
  · have hlog := log2_lt_bits hf hc hm
    have hmin := hc.minExp_le
    have hmax := hc.le_maxExp
    have := hf.le_minExp
    have := hf.maxExp_le
    rw [heq, sub_sub]
    calc (10 : ℚ) ^ (((Nat.log2 m : Int) + e) * 30103 / 100000 - (1 + 1))
        ≤ 2 ^ ((Nat.log2 m : Int) + e) := ten_zpow_guess_le (by omega) (by omega)
      _ = 2 ^ (Nat.log2 m : Int) * 2 ^ e := zpow_add₀ (by norm_num) _ _
      _ ≤ m * 2 ^ e := mul_le_mul_of_nonneg_right (log2_le hm) (two_zpow_pos e).le
  · exact hle

/-- Eighteen digits are enough. -/
theorem candidate?_eighteen (hf : f.Bounded) (hc : Canonical f m e) (hm : 0 < m) {size : Int}
    (hsize : (10 : ℚ) ^ (size - 1) ≤ m * 2 ^ e) :
    (candidate? f m e ((18 : Nat) - size)).isSome = true := by
  refine candidate?_isSome hm (near_cut ?_)
  have hm' : (m : ℚ) < 2 ^ 53 := by
    exact_mod_cast hc.lt.trans_le (Nat.pow_le_pow_right (by decide) hf.bits_le)
  calc (10 : ℚ) ^ (-(((18 : Nat) : Int) - size)) = 10 ^ (size - 1) / 10 ^ 17 := by
        rw [show -(((18 : Nat) : Int) - size) = size - 1 - (17 : Nat) by push_cast; ring,
          zpow_sub₀ (by norm_num), zpow_natCast]
    _ ≤ m * 2 ^ e / 10 ^ 17 := div_le_div_of_nonneg_right hsize (by positivity)
    _ < 2 ^ 53 * 2 ^ e / 10 ^ 17 :=
        div_lt_div_of_pos_right (mul_lt_mul_of_pos_right hm' (two_zpow_pos e)) (by positivity)
    _ ≤ 1 / 4 * 2 ^ e := by linarith [two_zpow_pos e]
    _ = 2 ^ (e - 2) := by simpa using (quarter 1 e).symm

/-- The shortest digits lie in the interval around the number. -/
theorem shortest_spec (hf : f.Bounded) (hc : Canonical f m e) (hm : 0 < m) :
    Near f m e ((shortest f m e).digits * 10 ^ (shortest f m e).exponent) ∧
      -1000 ≤ (shortest f m e).exponent := by
  have hsize := ten_zpow_size_le hf hc hm 8
  have hguess := (decimalSize_spec m e 8 (((Nat.log2 m : Int) + e) * 30103 / 100000 - 1)).1
  obtain ⟨size, hs⟩ : ∃ s, decimalSize m e 8 (((Nat.log2 m : Int) + e) * 30103 / 100000 - 1) = s :=
    ⟨_, rfl⟩
  rw [hs] at hsize hguess
  obtain ⟨j, digits, hj, hcand, heq⟩ : ∃ j digits, j ≤ 18 ∧
      candidate? f m e ((j : Nat) - size) = some digits ∧
      shortestFrom f m e size 20 1 = ⟨digits, size - j⟩ :=
    shortestFrom_spec (by decide) (by decide) (candidate?_eighteen hf hc hm hsize)
  have hshort : shortest f m e = ⟨digits, size - j⟩ := by rw [shortest, hs, heq]
  have hmin := hc.minExp_le
  have hfmin := hf.le_minExp
  rw [hshort]
  refine ⟨?_, by simp only; omega⟩
  have := near_of_candidate? hm hcand
  rwa [neg_sub] at this

end Shortest

end Binary

end WireSchema
