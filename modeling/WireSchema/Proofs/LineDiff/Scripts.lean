import Mathlib.Data.List.Basic
import WireSchema.LineDiff.Report
import WireSchema.Proofs.Text.Cutting

/-!
# Scripts turn one text into the other

A script has two sides: the sequence it starts from, which has what is kept and deleted, and the one
it ends with, which has what is kept and inserted. Bringing a script into its final form changes
neither side, so the script for two sequences has these two as its sides. A report is therefore empty
only if the texts are equal.
-/

namespace WireSchema.LineDiff

variable {α : Type}

/-! ## The sides of a script -/

/-- The elements of a step, unless it is of the kind `k`. -/
def Edit.without (k : EditKind) (e : Edit α) : List α := if e.kind = k then [] else e.items

/-- The elements of a script but for its steps of the kind `k`. -/
def without (k : EditKind) (s : List (Edit α)) : List α := s.flatMap (·.without k)

/-- The elements that wait, but for those of the kind `k`. -/
def Pending.without (k : EditKind) (p : Pending α) : List α :=
  if k = .insert then p.deleted else p.inserted

/-- Only what was counted waits. -/
structure Pending.Counted (p : Pending α) : Prop where
  deleted : p.deletions = 0 → p.deleted = []
  inserted : p.insertions = 0 → p.inserted = []

theorem without_append (k : EditKind) (s s' : List (Edit α)) :
    without k (s ++ s') = without k s ++ without k s' := List.flatMap_append

theorem without_cons (k : EditKind) (e : Edit α) (s : List (Edit α)) :
    without k (e :: s) = e.without k ++ without k s := List.flatMap_cons

theorem without_keep {k : EditKind} (hk : k ≠ .keep) (items : List α) :
    (Edit.mk .keep items).without k = items := if_neg hk.symm

@[simp]
theorem Edit.without_nil (k kind : EditKind) : (Edit.mk kind ([] : List α)).without k = [] :=
  ite_self []

namespace Pending

variable {k : EditKind} {p : Pending α}

theorem without_eq (hk : k ≠ .keep) (p : Pending α) : p.without k =
    (Edit.mk .delete p.deleted).without k ++ (Edit.mk .insert p.inserted).without k := by
  cases k with
  | keep => exact absurd rfl hk
  | insert => simp [Pending.without, Edit.without]
  | delete => simp [Pending.without, Edit.without]

theorem without_delete (hk : k ≠ .keep) (p : Pending α) (items : List α) :
    Pending.without k { p with deletions := p.deletions + 1, deleted := p.deleted ++ items } =
      p.without k ++ (Edit.mk .delete items).without k := by
  cases k with
  | keep => exact absurd rfl hk
  | insert => simp [Pending.without, Edit.without]
  | delete => simp [Pending.without, Edit.without]

theorem without_insert (hk : k ≠ .keep) (p : Pending α) (items : List α) :
    Pending.without k { p with insertions := p.insertions + 1, inserted := p.inserted ++ items } =
      p.without k ++ (Edit.mk .insert items).without k := by
  cases k with
  | keep => exact absurd rfl hk
  | insert => simp [Pending.without, Edit.without]
  | delete => simp [Pending.without, Edit.without]

theorem Counted.delete (h : p.Counted) (items : List α) :
    Counted { p with deletions := p.deletions + 1, deleted := p.deleted ++ items } :=
  ⟨fun hnone => absurd hnone (by simp), h.inserted⟩

theorem Counted.insert (h : p.Counted) (items : List α) :
    Counted { p with insertions := p.insertions + 1, inserted := p.inserted ++ items } :=
  ⟨h.deleted, fun hnone => absurd hnone (by simp)⟩

end Pending

/-! ## What sequences share -/

section Common

variable [BEq α]

theorem commonStart_le (as bs : List α) :
    commonStart as bs ≤ as.length ∧ commonStart as bs ≤ bs.length := by
  fun_induction commonStart as bs with
  | case1 a as b bs h ih => simpa using ih
  | case2 a as b bs h => simp
  | case3 => simp

theorem commonEnd_le (as bs : List α) :
    commonEnd as bs ≤ as.length ∧ commonEnd as bs ≤ bs.length := by
  simpa [commonEnd] using commonStart_le as.reverse bs.reverse

variable [LawfulBEq α]

theorem take_commonStart (as bs : List α) :
    as.take (commonStart as bs) = bs.take (commonStart as bs) := by
  fun_induction commonStart as bs with
  | case1 a as b bs h ih => simp [ih, eq_of_beq h]
  | case2 a as b bs h => rfl
  | case3 => rfl

theorem drop_commonEnd (as bs : List α) :
    as.drop (as.length - commonEnd as bs) = bs.drop (bs.length - commonEnd as bs) := by
  have h := take_commonStart as.reverse bs.reverse
  rw [List.take_reverse, List.take_reverse] at h
  exact List.reverse_injective h

end Common

theorem dropEnd_append (as : List α) (n : Nat) : dropEnd as n ++ as.drop (as.length - n) = as :=
  List.take_append_drop _ _

/-! ## The final form -/

section Tidy

variable {k : EditKind}

theorem without_keepAlso (hk : k ≠ .keep) (items : List α) (done : List (Edit α)) :
    without k (keepAlso items done).reverse = without k done.reverse ++ items := by
  unfold keepAlso
  split
  · simp [without, without_keep hk]
  · rename_i e rest
    split
    · rename_i h
      have hkeep : e.without k = e.items := if_neg fun h' => hk (h'.symm.trans (eq_of_beq h))
      simp [without, without_keep hk, hkeep]
    · simp [without, without_keep hk]

theorem without_unless (isLeftOut : Bool) {e : Edit α} (h : isLeftOut = true → e.items = [])
    (done : List (Edit α)) :
    without k (if isLeftOut then done else e :: done).reverse =
      without k done.reverse ++ e.without k := by
  cases isLeftOut with
  | true => simp [Edit.without, h rfl]
  | false => simp [without]

variable [BEq α] [LawfulBEq α]

theorem without_closeGroup (hk : k ≠ .keep) (done : List (Edit α)) {p : Pending α} (hp : p.Counted)
    (kept : List α) :
    without k (closeGroup done p kept).reverse =
      without k done.reverse ++ p.without k ++ kept := by
  unfold closeGroup
  extract_lets both n done₁ deleted inserted m kept' done₂ done₃
  have htake : p.inserted.take n = p.deleted.take n := by
    simp only [n]
    split
    · exact take_commonStart _ _
    · rfl
  have hdrop : inserted.drop (inserted.length - m) = deleted.drop (deleted.length - m) := by
    simp only [m]
    split
    · exact drop_commonEnd _ _
    · simp
  have hdone₁ : without k done₁.reverse = without k done.reverse ++ p.inserted.take n := by
    by_cases hn : n = 0
    · simp [done₁, hn]
    · simp [done₁, hn, without_keepAlso hk]
  have hdone₂ : without k done₂.reverse =
      without k done₁.reverse ++ (Edit.mk .delete (dropEnd deleted m)).without k :=
    without_unless _ (fun h => by simp [deleted, hp.deleted (eq_of_beq h), dropEnd]) _
  have hdone₃ : without k done₃.reverse =
      without k done₂.reverse ++ (Edit.mk .insert (dropEnd inserted m)).without k :=
    without_unless _ (fun h => by simp [inserted, hp.inserted (eq_of_beq h), dropEnd]) _
  have hdeleted : p.deleted.take n ++ (dropEnd deleted m ++ deleted.drop (deleted.length - m)) =
      p.deleted := by rw [dropEnd_append, List.take_append_drop]
  have hinserted : p.inserted.take n ++
      (dropEnd inserted m ++ inserted.drop (inserted.length - m)) = p.inserted := by
    rw [dropEnd_append, List.take_append_drop]
  rw [List.reverse_cons, without_append, hdone₃, hdone₂, hdone₁, without_cons, without_keep hk]
  cases k with
  | keep => exact absurd rfl hk
  | insert =>
    simp only [Edit.without, Pending.without, if_true, reduceCtorEq, if_false]
    conv_rhs => rw [← hdeleted, ← hdrop, ← htake]
    simp [kept', without]
  | delete =>
    simp only [Edit.without, Pending.without, if_true, reduceCtorEq, if_false]
    conv_rhs => rw [← hinserted]
    simp [kept', without]

/-- What waits goes before a run that is kept, without a change to either side. -/
theorem without_beforeKept (hk : k ≠ .keep) (done : List (Edit α)) {p : Pending α} (hp : p.Counted)
    (items : List α) :
    without k (if 1 < p.deletions + p.insertions then closeGroup done p items
      else if p.deletions == 1 then ⟨.keep, items⟩ :: ⟨.delete, p.deleted⟩ :: done
      else if p.insertions == 1 then ⟨.keep, items⟩ :: ⟨.insert, p.inserted⟩ :: done
      else keepAlso items done).reverse = without k done.reverse ++ p.without k ++ items := by
  split
  · exact without_closeGroup hk done hp items
  · rename_i hfew
    split
    · rename_i hone
      have hinserted := hp.inserted (by simp at hone; omega)
      simp [without, p.without_eq hk, without_keep hk, hinserted]
    · rename_i hnone
      split
      · rename_i hone
        have hdeleted := hp.deleted (by simp at hone; omega)
        simp [without, p.without_eq hk, without_keep hk, hdeleted]
      · rename_i hnone'
        have hdeleted := hp.deleted (by simp at hnone hnone'; omega)
        have hinserted := hp.inserted (by simp at hnone hnone'; omega)
        simp [without_keepAlso hk, p.without_eq hk, hdeleted, hinserted]

/-- Steps before a run that is kept are joined without a change to either side. -/
theorem without_joinLoop (hk : k ≠ .keep) (script : List (Edit α)) (done : List (Edit α))
    {p : Pending α} (hp : p.Counted) :
    without k (joinLoop done p (script ++ [⟨.keep, []⟩])).reverse =
      without k done.reverse ++ p.without k ++ without k script := by
  induction script generalizing done p with
  | nil =>
    simp only [List.nil_append, joinLoop]
    exact without_beforeKept hk done hp []
  | cons e script ih =>
    obtain ⟨kind, items⟩ := e
    rw [List.cons_append, joinLoop, without_cons]
    cases kind with
    | keep =>
      have hempty : Pending.Counted ({} : Pending α) := ⟨fun _ => rfl, fun _ => rfl⟩
      simp only
      rw [ih _ hempty, without_beforeKept hk done hp items, without_keep hk]
      simp [Pending.without]
    | delete =>
      simp only
      rw [ih done (hp.delete items), p.without_delete hk, List.append_assoc, List.append_assoc,
        List.append_assoc]
    | insert =>
      simp only
      rw [ih done (hp.insert items), p.without_insert hk, List.append_assoc, List.append_assoc,
        List.append_assoc]

theorem without_joined (hk : k ≠ .keep) (script : List (Edit α)) :
    without k (joined script) = without k script := by
  have hloop : without k (joinLoop [] {} (script ++ [⟨.keep, []⟩])).reverse = without k script := by
    simpa [Pending.without, without] using
      without_joinLoop hk script [] (p := {}) ⟨fun _ => rfl, fun _ => rfl⟩
  unfold joined
  split
  · rename_i e rest h
    rw [h] at hloop
    have hsplit := without_unless (k := k) e.items.isEmpty (e := e)
      (fun h => List.isEmpty_iff.mp h) rest
    rw [apply_ite List.reverse] at hsplit
    rw [hsplit, ← hloop, List.reverse_cons, without_append, without_cons]
    simp [without]
  · rename_i h
    rw [h] at hloop
    exact hloop

theorem without_shiftLoop (hk : k ≠ .keep) (fuel : Nat) (moved : Bool) (done rest : List (Edit α)) :
    without k (shiftLoop fuel moved done rest).2 = without k done.reverse ++ without k rest := by
  fun_induction shiftLoop fuel moved done rest with
  | case1 => rw [without_append]
  | case2 fuel moved before earlier e after rest hkinds hsuffix e' after' ih =>
    obtain ⟨hbefore, hafter⟩ := by simpa using hkinds
    obtain ⟨items, hitems⟩ := List.isSuffixOf_iff_suffix.mp hsuffix
    have hwithout : before.without k = before.items ∧ after.without k = after.items := by
      simp [Edit.without, hbefore, hafter, hk.symm]
    rw [ih]
    simp only [List.reverse_cons, without_append, without_cons, hwithout, without_keep hk, after']
    by_cases hkind : e.kind = k
    · simp [Edit.without, e', hkind, without]
    · simp [Edit.without, e', hkind, without, ← hitems, dropEnd]
  | case3 fuel moved before earlier e after rest hkinds _ hprefix before' e' ih =>
    obtain ⟨hbefore, hafter⟩ := by simpa using hkinds
    obtain ⟨items, hitems⟩ := List.isPrefixOf_iff_prefix.mp hprefix
    have hwithout : before.without k = before.items ∧ after.without k = after.items := by
      simp [Edit.without, hbefore, hafter, hk.symm]
    rw [ih]
    simp only [List.reverse_cons, without_append, without_cons, hwithout, without_keep hk, before']
    by_cases hkind : e.kind = k
    · simp [Edit.without, e', hkind, without]
    · simp [Edit.without, e', hkind, without, ← hitems]
  | case4 fuel moved before earlier e after rest _ _ _ ih =>
    rw [ih]
    simp [without]
  | case5 fuel moved before earlier e after rest _ ih =>
    rw [ih]
    simp [without]
  | case6 => rw [without_append]

theorem without_tidied (hk : k ≠ .keep) (fuel : Nat) (script : List (Edit α)) :
    without k (tidied fuel script) = without k script := by
  induction fuel generalizing script with
  | zero => exact without_joined hk script
  | succ fuel ih =>
    have hjoined := without_joined hk script
    rw [tidied]
    cases h : joined script with
    | nil =>
      rw [h] at hjoined
      exact hjoined
    | cons first rest =>
      have hshifted := without_shiftLoop hk (first :: rest).length false [first] rest
      have hfirst : without k [first].reverse ++ without k rest = without k script := by
        rw [← hjoined, h, ← without_append]
        rfl
      rw [hfirst] at hshifted
      dsimp only
      split
      · rw [ih]
        exact hshifted
      · exact hshifted

theorem without_tidy (hk : k ≠ .keep) (script : List (Edit α)) :
    without k (tidy script) = without k script := without_tidied hk _ script

end Tidy

/-! ## Finding scripts -/

/-- The sides of a script are the sequences `as` and `bs`. -/
structure Turns (s : List (Edit α)) (as bs : List α) : Prop where
  old : without .insert s = as
  new : without .delete s = bs

namespace Turns

variable {as bs as' bs' : List α} {s s' : List (Edit α)}

theorem nil : Turns ([] : List (Edit α)) [] [] := ⟨rfl, rfl⟩

theorem append (h : Turns s as bs) (h' : Turns s' as' bs') :
    Turns (s ++ s') (as ++ as') (bs ++ bs') :=
  ⟨by rw [without_append, h.old, h'.old], by rw [without_append, h.new, h'.new]⟩

theorem keep (items : List α) : Turns [⟨.keep, items⟩] items items := by
  constructor <;> simp [without, Edit.without]

theorem delete (items : List α) : Turns [⟨.delete, items⟩] items [] := by
  constructor <;> simp [without, Edit.without]

theorem insert (items : List α) : Turns [⟨.insert, items⟩] [] items := by
  constructor <;> simp [without, Edit.without]

theorem replace (as bs : List α) : Turns [⟨.delete, as⟩, ⟨.insert, bs⟩] as bs := by
  simpa using (delete as).append (insert bs)

theorem keepUnlessEmpty (items : List α) :
    Turns (if items.isEmpty then [] else [⟨.keep, items⟩]) items items := by
  cases items with
  | nil => exact nil
  | cons a items => exact keep (a :: items)

theorem tidy [BEq α] [LawfulBEq α] (h : Turns s as bs) : Turns (tidy s) as bs :=
  ⟨(without_tidy (by decide) s).trans h.old, (without_tidy (by decide) s).trans h.new⟩

end Turns

/-- The parts of a division make up both sequences. -/
structure Division.Divides (d : Division α) (as bs : List α) : Prop where
  first : d.before₁ ++ d.common ++ d.after₁ = as
  second : d.before₂ ++ d.common ++ d.after₂ = bs

theorem Division.Divides.flip {d : Division α} {as bs : List α} (h : d.Divides as bs) :
    d.flip.Divides bs as := ⟨h.second, h.first⟩

section Find

variable [BEq α] [LawfulBEq α]

theorem eq_of_find? {pattern as : List α} {i j : Nat} (h : find? pattern i as = some j) :
    i ≤ j ∧ as.take (j - i) ++ pattern ++ as.drop (j - i + pattern.length) = as := by
  fun_induction find? pattern i as with
  | case1 i hempty =>
    obtain rfl := Option.some.inj h
    simp [List.isEmpty_iff.mp hempty]
  | case2 => cases h
  | case3 i a rest hprefix =>
    obtain rfl := Option.some.inj h
    obtain ⟨u, hu⟩ := List.isPrefixOf_iff_prefix.mp hprefix
    rw [← hu]
    simp
  | case4 i a rest hprefix ih =>
    obtain ⟨hle, heq⟩ := ih h
    have hindex : j - i = j - (i + 1) + 1 := by omega
    refine ⟨by omega, ?_⟩
    rw [hindex, Nat.add_right_comm, List.take_succ_cons, List.drop_succ_cons, List.cons_append,
      List.cons_append, heq]

theorem divides_around {long short : List α} {i j : Nat} (hi : i ≤ long.length)
    (hj : j ≤ short.length) :
    let ahead := commonStart (long.drop i) (short.drop j)
    let behind := commonEnd (long.take i) (short.take j)
    Division.Divides
      { before₁ := long.take (i - behind), after₁ := long.drop (i + ahead)
        before₂ := short.take (j - behind), after₂ := short.drop (j + ahead)
        common := (short.drop (j - behind)).take (behind + ahead) } long short := by
  intro ahead behind
  have hahead : (long.drop i).take ahead = (short.drop j).take ahead := take_commonStart _ _
  have hbehind : (long.take i).drop (i - behind) = (short.take j).drop (j - behind) := by
    have h := drop_commonEnd (long.take i) (short.take j)
    rwa [List.length_take_of_le hi, List.length_take_of_le hj] at h
  have hle : behind ≤ i ∧ behind ≤ j := by
    have h := commonEnd_le (long.take i) (short.take j)
    rwa [List.length_take_of_le hi, List.length_take_of_le hj] at h
  have hcommon : (short.drop (j - behind)).take (behind + ahead) =
      (short.take j).drop (j - behind) ++ (short.drop j).take ahead := by
    rw [List.take_add, List.drop_drop, List.drop_take]
    congr 3 <;> omega
  constructor
  · calc long.take (i - behind) ++ (short.drop (j - behind)).take (behind + ahead) ++
          long.drop (i + ahead)
        = long.take (i - behind) ++ (long.take i).drop (i - behind) ++
            ((long.drop i).take ahead ++ (long.drop i).drop ahead) := by
          rw [hcommon, ← hahead, ← hbehind, List.drop_drop]
          simp
      _ = (long.take i).take (i - behind) ++ (long.take i).drop (i - behind) ++ long.drop i := by
          rw [List.take_append_drop, List.take_take, Nat.min_eq_left (by omega)]
      _ = long := by rw [List.take_append_drop, List.take_append_drop]
  · have hindex : j + ahead = j - behind + (behind + ahead) := by omega
    simp only
    rw [hindex, ← List.drop_drop, List.append_assoc, List.take_append_drop, List.take_append_drop]

theorem divides_of_sharedRun {long short : List α} {i : Nat} {d : Division α} (hi : i ≤ long.length)
    (h : sharedRun long short i = some d) : d.Divides long short := by
  unfold sharedRun at h
  extract_lets seed candidate places longer at h
  have hcandidate : ∀ j ∈ places, (candidate j).Divides long short := by
    intro j hj
    have hlt : j < short.length := List.mem_range.mp (List.mem_of_mem_filter hj)
    exact divides_around hi hlt.le
  have hfold : ∀ (js : List Nat) (best : Option (Division α)), (∀ j ∈ js, j ∈ places) →
      (∀ d ∈ best, d.Divides long short) →
        ∀ d ∈ js.foldl longer best, d.Divides long short := by
    intro js
    induction js with
    | nil => exact fun best _ hbest => hbest
    | cons j js ih =>
      intro best hjs hbest
      have hj := hcandidate j (hjs j List.mem_cons_self)
      refine ih _ (fun j' hj' => hjs j' (List.mem_cons_of_mem j hj')) ?_
      intro d hd
      simp only [longer] at hd
      split at hd
      · split at hd
        · cases hd
        · obtain rfl := Option.some.inj hd
          exact hj
      · split at hd
        · obtain rfl := Option.some.inj hd
          exact hj
        · exact hbest d hd
  split at h
  · cases h
  · rename_i b hb
    split at h
    · cases h
    · obtain rfl := Option.some.inj h
      exact hfold places none (fun _ hj => hj) (by simp) b hb

theorem divides_of_halfMatch {long short : List α} {d : Division α}
    (h : halfMatch long short = some d) : d.Divides long short := by
  unfold halfMatch at h
  dsimp only at h
  split at h
  · cases h
  · have hfirst : (long.length + 3) / 4 ≤ long.length := by grind
    have hsecond : (long.length + 1) / 2 ≤ long.length := by grind
    split at h
    · exact divides_of_sharedRun hsecond h
    · exact divides_of_sharedRun hfirst h
    · rename_i hb hb'
      split at h
      · exact divides_of_sharedRun hfirst (hb.trans h)
      · exact divides_of_sharedRun hsecond (hb'.trans h)

end Find

section Script

variable [BEq α] [LawfulBEq α]

/-- A script for what lies between the shared ends gives one for the whole. -/
theorem turns_script_succ {fuel : Nat}
    (ih : ∀ as bs : List α, Turns (scriptApart as bs fuel) as bs) (as bs : List α) :
    Turns (script as bs (fuel + 1)) as bs := by
  rw [script]
  split
  · rename_i heq
    rw [← eq_of_beq heq]
    exact Turns.keepUnlessEmpty as
  · extract_lets n start as' bs' m tail middle
    have has : start ++ dropEnd as' m ++ tail = as := by
      rw [List.append_assoc, dropEnd_append, List.take_append_drop]
    have hbs : start ++ dropEnd bs' m ++ tail = bs := by
      have hstart : start = bs.take n := take_commonStart as bs
      have htail : tail = bs'.drop (bs'.length - m) := drop_commonEnd as' bs'
      rw [hstart, htail, List.append_assoc, dropEnd_append, List.take_append_drop]
    have hturns := (((Turns.keepUnlessEmpty start).append (ih (dropEnd as' m) (dropEnd bs' m))).append
      (Turns.keepUnlessEmpty tail)).tidy
    rwa [has, hbs] at hturns

theorem turns_scriptApart_succ {fuel : Nat} (ih : ∀ as bs : List α, Turns (script as bs fuel) as bs)
    (as bs : List α) : Turns (scriptApart as bs (fuel + 1)) as bs := by
  rw [scriptApart]
  split
  · rename_i hempty
    rw [List.isEmpty_iff.mp hempty]
    exact Turns.insert bs
  split
  · rename_i hempty
    rw [List.isEmpty_iff.mp hempty]
    exact Turns.delete as
  extract_lets shrinks long short kind
  have hlong : (shrinks ∧ long = as ∧ short = bs ∧ kind = .delete) ∨
      (¬shrinks ∧ long = bs ∧ short = as ∧ kind = .insert) := by
    by_cases hshrinks : shrinks
    · exact .inl ⟨hshrinks, if_pos hshrinks, if_pos hshrinks, if_pos hshrinks⟩
    · exact .inr ⟨hshrinks, if_neg hshrinks, if_neg hshrinks, if_neg hshrinks⟩
  split
  · rename_i i hfind
    have hparts := (eq_of_find? hfind).2
    rw [Nat.sub_zero] at hparts
    rcases hlong with ⟨-, has, hbs, hkind⟩ | ⟨-, hbs, has, hkind⟩
    · have hturns := ((Turns.delete (long.take i)).append (Turns.keep short)).append
        (Turns.delete (long.drop (i + short.length)))
      rw [hparts] at hturns
      simpa [hkind, has, hbs] using hturns
    · have hturns := ((Turns.insert (long.take i)).append (Turns.keep short)).append
        (Turns.insert (long.drop (i + short.length)))
      rw [hparts] at hturns
      simpa [hkind, has, hbs] using hturns
  split
  · exact Turns.replace as bs
  split
  · rename_i d hd
    extract_lets d'
    have hdivides : d'.Divides as bs := by
      have h := divides_of_halfMatch hd
      rcases hlong with ⟨hshrinks, has, hbs, -⟩ | ⟨hshrinks, hbs, has, -⟩
      · rw [has, hbs] at h
        simpa [d', hshrinks] using h
      · rw [has, hbs] at h
        simpa [d', hshrinks] using h.flip
    have hturns := ((ih d'.before₁ d'.before₂).append (Turns.keep d'.common)).append
      (ih d'.after₁ d'.after₂)
    rwa [hdivides.first, hdivides.second] at hturns
  split
  · rename_i x y _
    have hturns := (ih (as.take x) (bs.take y)).append (ih (as.drop x) (bs.drop y))
    rwa [List.take_append_drop, List.take_append_drop] at hturns
  · exact Turns.replace as bs

theorem turns_script (fuel : Nat) :
    (∀ as bs : List α, Turns (script as bs fuel) as bs) ∧
      ∀ as bs : List α, Turns (scriptApart as bs fuel) as bs := by
  induction fuel with
  | zero =>
    refine ⟨fun as bs => ?_, fun as bs => ?_⟩
    · rw [script]
      exact Turns.replace as bs
    · rw [scriptApart]
      exact Turns.replace as bs
  | succ fuel ih => exact ⟨turns_script_succ ih.2, turns_scriptApart_succ ih.1⟩

theorem turns_diff (as bs : List α) : Turns (diff as bs) as bs := (turns_script _).1 as bs

end Script

/-! ## Reports -/

theorem flatten_linesLoop (line t : Text) : (linesLoop line t).flatten = line.reverse ++ t := by
  induction t generalizing line with
  | nil =>
    unfold linesLoop
    split
    · rename_i h
      simp [List.isEmpty_iff.mp h]
    · simp
  | cons b t ih =>
    unfold linesLoop
    split
    · simp [ih]
    · simp [ih]

theorem flatten_lines (t : Text) : (lines t).flatten = t := flatten_linesLoop [] t

theorem stepReport_ne_nil {e : Edit Text} (h : e.kind ≠ .keep) (isFirst isLast : Bool) :
    stepReport isFirst isLast e ≠ [] := by
  have hshown : shownLines e.items ≠ [] := by
    unfold shownLines
    rw [Text.splitOn_eq]
    exact List.splitOn_ne_nil _ _
  unfold stepReport
  split
  · rename_i hkeep
    exact absurd hkeep h
  · simpa using hshown

theorem kind_eq_keep_of_stepReports {s : List (Edit Text)} {isFirst : Bool}
    (h : stepReports isFirst s = []) : ∀ e ∈ s, e.kind = .keep := by
  induction s generalizing isFirst with
  | nil => simp
  | cons e s ih =>
    rw [stepReports, List.append_eq_nil_iff] at h
    intro e' he'
    rcases List.mem_cons.mp he' with rfl | he'
    · by_contra hkeep
      exact stepReport_ne_nil hkeep _ _ h.1
    · exact ih h.2 e' he'

theorem report_ne_nil {before after : Text} (h : before ≠ after) : report before after ≠ [] := by
  intro hempty
  have hkeep := kind_eq_keep_of_stepReports hempty
  have hsides : without .insert (diff (lines before) (lines after)) =
      without .delete (diff (lines before) (lines after)) := by
    refine List.flatMap_congr fun e he => ?_
    simp [Edit.without, hkeep e he]
  have hturns := turns_diff (lines before) (lines after)
  rw [hturns.old, hturns.new] at hsides
  apply h
  rw [← flatten_lines before, hsides, flatten_lines]

end WireSchema.LineDiff
