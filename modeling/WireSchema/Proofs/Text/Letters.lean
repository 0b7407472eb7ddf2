import WireSchema.Proofs.Model.Names

/-!
# Letters, digits and capitals

What the tables of characters have to do with each other: no character is both a letter and a digit,
the capital of a letter is a letter, and a digit is its own capital. The tables are compared range
by range, so that each of these facts costs one pass through a table for each range of another.
-/

namespace WireSchema

/-! ## Stretches of code points -/

namespace RangeTable

variable {t : RangeTable} {lo hi n : Nat}

/-- The range in which the search for a code point from `lo` on begins. -/
def from? (t : RangeTable) (lo : Nat) : Option (Nat × Nat) := t.find? fun r => lo.ble r.2

/-- Is the stretch from `lo` to `hi` inside one range? -/
def covers (t : RangeTable) (lo hi : Nat) : Bool := (t.from? lo).any fun r => r.1 ≤ lo && hi ≤ r.2

/-- Is the stretch from `lo` to `hi` before the next range? -/
def avoids (t : RangeTable) (lo hi : Nat) : Bool := (t.from? lo).all fun r => hi < r.1 && hi ≤ r.2

theorem contains_of_from? {r : Nat × Nat} (h : t.from? lo = some r) (hlo : lo ≤ n) (hn : n ≤ r.2) :
    t.contains n = decide (r.1 ≤ n) := by
  induction t with
  | nil => cases h
  | cons s rest ih =>
    rw [from?, List.find?_cons] at h
    rw [contains]
    cases hs : lo.ble s.2 with
    | true =>
      simp only [hs, Option.some.injEq] at h
      rw [h, if_pos hn]
    | false =>
      have hne : ¬lo ≤ s.2 := Nat.not_le_of_not_ble_eq_true (by simp [hs])
      simp only [hs] at h
      rw [if_neg (fun hle => hne (hlo.trans hle))]
      exact ih h

theorem contains_of_from?_none (h : t.from? lo = none) (hlo : lo ≤ n) : t.contains n = false := by
  induction t with
  | nil => rfl
  | cons s rest ih =>
    rw [from?, List.find?_eq_none, List.forall_mem_cons] at h
    have hs : s.2 < lo := Nat.lt_of_not_le fun hle => h.1 (Nat.ble_eq.mpr hle)
    rw [contains, if_neg (by omega)]
    exact ih (List.find?_eq_none.mpr h.2)

theorem contains_of_covers (h : t.covers lo hi = true) (hlo : lo ≤ n) (hhi : n ≤ hi) :
    t.contains n = true := by
  rw [covers] at h
  cases hr : t.from? lo with
  | none => simp [hr] at h
  | some r =>
    simp only [hr, Option.any_some, Bool.and_eq_true, decide_eq_true_eq] at h
    rw [contains_of_from? hr hlo (by omega)]
    exact decide_eq_true (by omega)

theorem contains_of_avoids (h : t.avoids lo hi = true) (hlo : lo ≤ n) (hhi : n ≤ hi) :
    t.contains n = false := by
  rw [avoids] at h
  cases hr : t.from? lo with
  | none => exact contains_of_from?_none hr hlo
  | some r =>
    simp only [hr, Option.all_some, Bool.and_eq_true, decide_eq_true_eq] at h
    rw [contains_of_from? hr hlo (by omega)]
    exact decide_eq_false (by omega)

theorem exists_of_contains (h : t.contains n = true) : ∃ r ∈ t, r.1 ≤ n ∧ n ≤ r.2 := by
  induction t with
  | nil => cases h
  | cons s rest ih =>
    rw [contains] at h
    split_ifs at h with hs
    · exact ⟨s, .head _, of_decide_eq_true h, hs⟩
    · obtain ⟨r, hr, hn⟩ := ih h
      exact ⟨r, .tail _ hr, hn⟩

/-- Tables whose ranges avoid each other have no code point in common. -/
theorem contains_of_all_avoids {t' : RangeTable} (h : (t'.all fun r => t.avoids r.1 r.2) = true)
    (hn : t'.contains n = true) : t.contains n = false := by
  obtain ⟨r, hr, hlo, hhi⟩ := exists_of_contains hn
  exact contains_of_avoids (List.all_eq_true.mp h r hr) hlo hhi

end RangeTable

/-! ## Capitals -/

namespace CaseRun

/-- Does the run lead from code points of the table to code points of the table only? Most runs lead
into one range as a whole, or begin outside the table; else every step is looked at. -/
def keeps (t : RangeTable) (run : CaseRun) : Bool :=
  t.covers run.2.2.2 (run.2.2.2 + (run.2.1 - run.1)) || t.avoids run.1 run.2.1 ||
    (List.range (run.2.1 - run.1 + 1)).all fun d => d % run.2.2.1 != 0 || t.contains (run.2.2.2 + d)

theorem contains_map {t : RangeTable} {runs : List CaseRun} (hruns : runs.all (keeps t) = true)
    {n : Nat} (hn : t.contains n = true) : t.contains (map runs n) = true := by
  rcases map_steps runs n with h | ⟨run, hrun, k, hk, hlast, h⟩
  · rw [h, hn]
  rw [h]
  have hkeeps := List.all_eq_true.mp hruns run hrun
  rw [keeps, Bool.or_eq_true, Bool.or_eq_true] at hkeeps
  rcases hkeeps with (hcovers | havoids) | hsteps
  · exact RangeTable.contains_of_covers hcovers (by omega) (by omega)
  · rw [RangeTable.contains_of_avoids havoids (by omega) hlast] at hn
    cases hn
  · have hstep := List.all_eq_true.mp hsteps (k * run.2.2.1) (List.mem_range.mpr (by omega))
    simpa using hstep

theorem map_of_contains {runs : List CaseRun} {n : Nat}
    (h : RangeTable.contains (runs.map fun run => (run.1, run.2.1)) n = false) :
    map runs n = n := by
  induction runs with
  | nil => rfl
  | cons run rest ih =>
    obtain ⟨first, last, stride, target⟩ := run
    rw [List.map_cons, RangeTable.contains] at h
    rw [map]
    split_ifs at h ⊢ with hfirst hlast
    · rfl
    · rfl
    · exact absurd (of_decide_eq_false h) (by omega)
    · exact absurd (of_decide_eq_false h) (by omega)
    · exact ih h

end CaseRun

theorem toNat_upperChar_map (c : Char) : (upperChar c).toNat = CaseRun.map upperRuns c.toNat :=
  toNat_case upperRuns_lettered (by decide) c

/-- The three comparisons of tables: digits with letters, digits with capitals, letters with
capitals. -/
theorem tables_compared : (digitRanges.all fun r => letterRanges.avoids r.1 r.2) = true ∧
    (digitRanges.all fun r =>
      RangeTable.avoids (upperRuns.map fun run => (run.1, run.2.1)) r.1 r.2) = true ∧
    upperRuns.all (CaseRun.keeps letterRanges) = true := by
  decide +kernel

theorem isLetter_of_isDecimalDigit {c : Char} (h : isDecimalDigit c = true) : isLetter c = false :=
  RangeTable.contains_of_all_avoids tables_compared.1 h

theorem upperChar_of_isDecimalDigit {c : Char} (h : isDecimalDigit c = true) : upperChar c = c := by
  have hoff := RangeTable.contains_of_all_avoids tables_compared.2.1 h
  rw [upperChar, CaseRun.map_of_contains hoff, Char.ofNat_toNat]

theorem isLetter_upperChar {c : Char} (h : isLetter c = true) : isLetter (upperChar c) = true := by
  rw [isLetter, toNat_upperChar_map]
  exact CaseRun.contains_map tables_compared.2.2 h

end WireSchema
