import Mathlib.Data.Finset.Card
import Mathlib.Data.List.Induction
import WireSchema.Dict

/-!
# Insertion order

A dictionary can be kept in three columns: the names in the order in which they first came, their
values beside them, and an index with the place of each name. The columns stay in step and stand for
the same dictionary, whose names are in the order of their first setting, with the values of their
last. A consumer is shown the entries in this order, and none after the one at which it stops.
-/

namespace WireSchema.Dict

variable {α σ : Type}

/-! ## One setting -/

theorem keys_set (d : Dict α) (name : Text) (value : α) :
    (d.set name value).keys = if name ∈ d.keys then d.keys else d.keys ++ [name] := by
  obtain ⟨entries⟩ := d
  simp only [keys, set]
  induction entries with
  | nil => simp [setEntry]
  | cons e rest ih =>
    by_cases he : e.1 = name
    · simp [setEntry, he]
    · have hne : name ≠ e.1 := Ne.symm he
      by_cases hmem : name ∈ rest.map (·.1)
      · simpa [setEntry, he, hne, hmem] using ih
      · simpa [setEntry, he, hne, hmem] using ih

theorem get?_set (d : Dict α) (name other : Text) (value : α) :
    (d.set name value).get? other = if other = name then some value else d.get? other := by
  obtain ⟨entries⟩ := d
  simp only [get?, set]
  induction entries with
  | nil =>
    by_cases h : other = name
    · simp [setEntry, h]
    · simp [setEntry, h, Ne.symm h]
  | cons e rest ih =>
    by_cases he : e.1 = name
    · by_cases h : other = name
      · simp [setEntry, he, h]
      · simp [setEntry, he, h, Ne.symm h]
    · by_cases heo : e.1 = other
      · simp [setEntry, heo, heo ▸ he]
      · simpa [setEntry, he, heo] using ih

theorem nodup_keys_set {d : Dict α} (h : d.keys.Nodup) (name : Text) (value : α) :
    (d.set name value).keys.Nodup := by
  rw [keys_set]
  split
  · exact h
  · exact h.append (List.nodup_singleton _) (by simpa)

theorem get?_eq_some_iff {d : Dict α} (h : d.keys.Nodup) {name : Text} {value : α} :
    d.get? name = some value ↔ (name, value) ∈ d.entries := by
  rw [get?, Option.map_eq_some_iff]
  constructor
  · rintro ⟨e, he, rfl⟩
    obtain rfl : e.1 = name := by simpa using List.find?_some he
    exact List.mem_of_find?_eq_some he
  · intro hmem
    cases hfind : d.entries.find? (·.1 == name) with
    | none => exact absurd (List.find?_eq_none.mp hfind _ hmem) (by simp)
    | some e =>
      have hname : e.1 = name := by simpa using List.find?_some hfind
      have he : e = (name, value) :=
        List.inj_on_of_nodup_map h (List.mem_of_find?_eq_some hfind) hmem hname
      exact ⟨e, rfl, by rw [he]⟩

/-! ## Any settings -/

/-- The dictionary after settings, one after another. -/
def setAll (d : Dict α) (sets : List (Text × α)) : Dict α :=
  sets.foldl (fun d e => d.set e.1 e.2) d

theorem setAll_concat (d : Dict α) (sets : List (Text × α)) (e : Text × α) :
    d.setAll (sets ++ [e]) = (d.setAll sets).set e.1 e.2 := by
  simp [setAll]

theorem keys_setAll (sets : List (Text × α)) :
    (setAll {} sets).keys = (sets.map (·.1)).eraseDups := by
  induction sets using List.reverseRecOn with
  | nil => rfl
  | append_singleton sets e ih =>
    rw [setAll_concat, keys_set, ih, List.map_append, List.eraseDups_append]
    by_cases hmem : e.1 ∈ sets.map (·.1)
    · rw [if_pos (List.mem_eraseDups.mpr hmem)]
      simp_all [List.removeAll]
    · rw [if_neg (fun h => hmem (List.mem_eraseDups.mp h))]
      simp_all [List.removeAll, List.eraseDups_cons]

theorem nodup_keys_setAll (sets : List (Text × α)) : (setAll {} sets).keys.Nodup := by
  induction sets using List.reverseRecOn with
  | nil => exact List.nodup_nil
  | append_singleton sets e ih =>
    rw [setAll_concat]
    exact nodup_keys_set ih _ _

/-- A name has the value of the last setting of it. -/
theorem get?_setAll (sets : List (Text × α)) (name : Text) :
    (setAll {} sets).get? name = (sets.reverse.find? (·.1 == name)).map (·.2) := by
  induction sets using List.reverseRecOn with
  | nil => rfl
  | append_singleton sets e ih =>
    rw [setAll_concat, get?_set, ih, List.reverse_append, List.reverse_singleton,
      List.singleton_append, List.find?_cons]
    by_cases h : name = e.1
    · simp [h]
    · rw [if_neg h, beq_false_of_ne (Ne.symm h)]

theorem get?_setAll_eq_some_iff {sets : List (Text × α)} {name : Text} {value : α} :
    (setAll {} sets).get? name = some value ↔
      ∃ before after, sets = before ++ (name, value) :: after ∧ name ∉ after.map (·.1) := by
  rw [get?_setAll, Option.map_eq_some_iff]
  constructor
  · rintro ⟨e, he, rfl⟩
    obtain ⟨hname, after, before, hsets, hafter⟩ := List.find?_eq_some_iff_append.mp he
    obtain rfl : e.1 = name := by simpa using hname
    refine ⟨before.reverse, after.reverse, by simpa using congrArg List.reverse hsets, ?_⟩
    simpa only [List.mem_map, List.mem_reverse, not_exists, not_and, Bool.not_eq_true',
      beq_eq_false_iff_ne] using hafter
  · rintro ⟨before, after, rfl, hafter⟩
    refine ⟨(name, value), List.find?_eq_some_iff_append.mpr
      ⟨by simp, after.reverse, before.reverse, by simp, ?_⟩, rfl⟩
    simpa only [List.mem_map, List.mem_reverse, not_exists, not_and, Bool.not_eq_true',
      beq_eq_false_iff_ne] using hafter

/-! ## Columns -/

/-- A dictionary in columns. Before the first setting there need not be an index. -/
structure Columns (α : Type) where
  names : List Text := []
  values : List α := []
  index : Option (Text → Option Nat) := none

namespace Columns

/-- Columns without entries, with an index or without. -/
def fresh (indexed : Bool) : Columns α := { index := if indexed then some fun _ => none else none }

def position? (c : Columns α) (name : Text) : Option Nat := c.index.bind (· name)

/-- Replaces the value at the place of a name, or appends to every column. -/
def set (c : Columns α) (name : Text) (value : α) : Columns α :=
  match c.position? name with
  | some i => { c with values := c.values.set i value }
  | none =>
    { names := c.names ++ [name], values := c.values ++ [value],
      index := some (Function.update (c.index.getD fun _ => none) name (some c.names.length)) }

def get? (c : Columns α) (name : Text) : Option α := (c.position? name).bind (c.values[·]?)

/-- The columns after settings, one after another. -/
def setAll (c : Columns α) (sets : List (Text × α)) : Columns α :=
  sets.foldl (fun c e => c.set e.1 e.2) c

/-- The columns are in step: the index gives exactly the place of each name. -/
structure Consistent (c : Columns α) : Prop where
  lengths : c.names.length = c.values.length
  distinct : c.names.Nodup
  placed : ∀ name i, c.position? name = some i ↔ c.names[i]? = some name

def toDict (c : Columns α) : Dict α := ⟨c.names.zip c.values⟩

variable {c : Columns α}

theorem getD_index (c : Columns α) : (c.index.getD fun _ => none) = c.position? := by
  funext name
  unfold position?
  cases c.index <;> rfl

theorem position?_fresh (indexed : Bool) (name : Text) :
    (fresh indexed : Columns α).position? name = none := by
  cases indexed <;> rfl

theorem consistent_fresh (indexed : Bool) : (fresh indexed : Columns α).Consistent where
  lengths := rfl
  distinct := List.nodup_nil
  placed name i := by
    rw [position?_fresh]
    simp [fresh]

/-- A name that the index does not give a place is new. -/
theorem Consistent.not_mem (h : c.Consistent) {name : Text} (hnone : c.position? name = none) :
    name ∉ c.names := by
  intro hmem
  obtain ⟨i, hi⟩ := List.mem_iff_getElem?.mp hmem
  simp [(h.placed name i).mpr hi] at hnone

theorem Consistent.set (h : c.Consistent) (name : Text) (value : α) :
    (c.set name value).Consistent := by
  unfold Columns.set
  cases hpos : c.position? name with
  | some i => exact ⟨by simpa using h.lengths, h.distinct, h.placed⟩
  | none =>
    have hnew := h.not_mem hpos
    refine ⟨by simpa using h.lengths,
      h.distinct.append (List.nodup_singleton _) (by simpa using hnew), fun other i => ?_⟩
    show Function.update (c.index.getD fun _ => none) name (some c.names.length) other = some i ↔ _
    rw [getD_index]
    by_cases hother : other = name
    · -- the new name stands at the end only
      subst hother
      rw [Function.update_self]
      grind
    · -- the other names keep their places
      rw [Function.update_of_ne hother, h.placed]
      grind

/-- Replacing the value at the place of a name replaces it in the entries. -/
theorem setEntry_zip {names : List Text} {values : List α} {name : Text} {i : Nat} (value : α)
    (hlengths : names.length = values.length) (hdistinct : names.Nodup)
    (hi : names[i]? = some name) :
    setEntry name value (names.zip values) = names.zip (values.set i value) := by
  induction names generalizing values i with
  | nil => simp at hi
  | cons n names ih =>
    obtain ⟨v, values, rfl⟩ := List.exists_cons_of_length_eq_add_one hlengths.symm
    cases i with
    | zero =>
      obtain rfl : n = name := by simpa using hi
      simp [setEntry]
    | succ i =>
      have hi' : names[i]? = some name := by simpa using hi
      have hne : n ≠ name := fun h =>
        (List.nodup_cons.mp hdistinct).1 (h ▸ List.mem_of_getElem? hi')
      have hrest := ih (by simpa using hlengths) (List.nodup_cons.mp hdistinct).2 hi'
      simp [setEntry, hne, hrest]

theorem Consistent.keys_toDict (h : c.Consistent) : c.toDict.keys = c.names :=
  List.map_fst_zip h.lengths.le

theorem Consistent.toDict_set (h : c.Consistent) (name : Text) (value : α) :
    (c.set name value).toDict = c.toDict.set name value := by
  unfold Columns.set
  cases hpos : c.position? name with
  | some i =>
    simp only [toDict, Dict.set, Dict.mk.injEq]
    exact (setEntry_zip value h.lengths h.distinct ((h.placed name i).mp hpos)).symm
  | none =>
    have hnew : name ∉ c.toDict.keys := h.keys_toDict ▸ h.not_mem hpos
    rw [Dict.set, setEntry_of_not_mem value hnew, toDict, toDict, List.zip_append h.lengths]
    rfl

theorem Consistent.get?_toDict (h : c.Consistent) (name : Text) :
    c.toDict.get? name = c.get? name := by
  have hkeys : c.toDict.keys.Nodup := h.keys_toDict ▸ h.distinct
  ext value
  rw [get?_eq_some_iff hkeys, toDict, List.mem_iff_getElem?]
  simp only [List.getElem?_zip_eq_some, Columns.get?, Option.bind_eq_some_iff, h.placed]

/-- Through any settings the columns stay in step, and stand for the dictionary with the same
settings. -/
theorem setAll_fresh (indexed : Bool) (sets : List (Text × α)) :
    ((fresh indexed).setAll sets).Consistent ∧
      ((fresh indexed).setAll sets).toDict = Dict.setAll {} sets := by
  induction sets using List.reverseRecOn with
  | nil => exact ⟨consistent_fresh indexed, rfl⟩
  | append_singleton sets e ih =>
    obtain ⟨hconsistent, heq⟩ := ih
    have hstep : (fresh indexed).setAll (sets ++ [e]) =
        ((fresh indexed).setAll sets).set e.1 e.2 := by simp [setAll]
    rw [hstep, setAll_concat, hconsistent.toDict_set, heq]
    exact ⟨hconsistent.set _ _, rfl⟩

end Columns

/-! ## Consumers -/

/-- The answers of a consumer to entries shown to it one after another. -/
def answers (yield : Text → α → StateM σ Bool) (entries : List (Text × α)) : StateM σ (List Bool) :=
  entries.mapM fun e => yield e.1 e.2

section

variable (yield : Text → α → StateM σ Bool) (e : Text × α) (rest : List (Text × α)) {s s' : σ}
  {more : Bool}

theorem run_answers_cons (h : (yield e.1 e.2).run s = (more, s')) :
    (answers yield (e :: rest)).run s =
      (more :: ((answers yield rest).run s').1, ((answers yield rest).run s').2) := by
  rw [answers, List.mapM_cons, StateT.run_bind, h]
  rfl

theorem run_visitEntries_cons (h : (yield e.1 e.2).run s = (more, s')) :
    (visitEntries yield (e :: rest)).run s =
      if more then (visitEntries yield rest).run s' else ((), s') := by
  rw [visitEntries, StateT.run_bind, h]
  cases more <;> rfl

end

/-- A consumer is shown the first entries, up to the one at which it asks for no more. -/
theorem visitEntries_stops (yield : Text → α → StateM σ Bool) (entries : List (Text × α)) (s : σ) :
    ∃ n ≤ entries.length, ∃ given,
      (answers yield (entries.take n)).run s = (given, ((visitEntries yield entries).run s).2) ∧
      (∀ more ∈ given.dropLast, more = true) ∧
      (n < entries.length → given.getLast? = some false) := by
  induction entries generalizing s with
  | nil => exact ⟨0, le_rfl, [], rfl, by simp, by simp⟩
  | cons e rest ih =>
    obtain ⟨more, s', hyield⟩ : ∃ more s', (yield e.1 e.2).run s = (more, s') := ⟨_, _, rfl⟩
    cases more with
    | false =>
      refine ⟨1, by simp, [false], ?_, by simp, by simp⟩
      rw [run_visitEntries_cons yield e rest hyield, List.take_succ_cons, List.take_zero,
        run_answers_cons yield e [] hyield]
      rfl
    | true =>
      obtain ⟨n, hn, given, hrun, htrue, hlast⟩ := ih s'
      refine ⟨n + 1, by simpa using hn, true :: given, ?_, ?_, ?_⟩
      · rw [run_visitEntries_cons yield e rest hyield, List.take_succ_cons,
          run_answers_cons yield e _ hyield, hrun]
        rfl
      · cases given with
        | nil => simp
        | cons => simpa using htrue
      · intro hlt
        have hgiven := hlast (by simpa using hlt)
        rw [List.getLast?_cons, hgiven]
        rfl

/-! ## The dictionary after any settings -/

theorem size_setAll (sets : List (Text × α)) :
    (setAll {} sets).size = (sets.map (·.1)).toFinset.card := by
  have hnames : (setAll {} sets).keys.toFinset = (sets.map (·.1)).toFinset := by
    ext name
    rw [keys_setAll, List.mem_toFinset, List.mem_toFinset, List.mem_eraseDups]
  rw [← hnames, List.toFinset_card_of_nodup (nodup_keys_setAll sets), keys, List.length_map, size]

theorem get?_setAll_eq_none_iff {sets : List (Text × α)} {name : Text} :
    (setAll {} sets).get? name = none ↔ name ∉ sets.map (·.1) := by
  simp only [get?_setAll, Option.map_eq_none_iff, List.find?_eq_none, List.mem_map,
    List.mem_reverse, beq_iff_eq, not_exists, not_and]

theorem entries_eq {d : Dict α} (h : d.keys.Nodup) :
    d.entries.map (fun e => (e.1, some e.2)) = d.keys.map fun name => (name, d.get? name) := by
  rw [keys, List.map_map]
  refine List.map_congr_left fun e he => ?_
  rw [Function.comp_apply, (get?_eq_some_iff h).mpr he]

/-- **Insertion order.** After any settings of a new dictionary, with an index or without, the columns
are in step and stand for the dictionary with these settings. Its names are in the order of their
first setting, each has the value of its last, and a consumer is shown the entries in order, up to
the one at which it asks for no more. -/
theorem insertion_ordered (indexed : Bool) (sets : List (Text × α)) :
    ((Columns.fresh indexed).setAll sets).Consistent ∧
    ((Columns.fresh indexed).setAll sets).toDict = setAll {} sets ∧
    (∀ name, ((Columns.fresh indexed).setAll sets).get? name = (setAll {} sets).get? name) ∧
    (setAll {} sets).keys = (sets.map (·.1)).eraseDups ∧
    (∀ name value, (setAll {} sets).get? name = some value ↔
      ∃ before after, sets = before ++ (name, value) :: after ∧ name ∉ after.map (·.1)) ∧
    (∀ name, (setAll {} sets).get? name = none ↔ name ∉ sets.map (·.1)) ∧
    (setAll {} sets).size = (sets.map (·.1)).toFinset.card ∧
    (setAll {} sets).entries.map (fun e => (e.1, some e.2)) =
      (setAll {} sets).keys.map (fun name => (name, (setAll {} sets).get? name)) ∧
    ∀ (σ : Type) (yield : Text → α → StateM σ Bool) (s : σ),
      ∃ n ≤ (setAll {} sets).size, ∃ given,
        (answers yield ((setAll {} sets).entries.take n)).run s =
          (given, ((visit (setAll {} sets) yield).run s).2) ∧
        (∀ more ∈ given.dropLast, more = true) ∧
        (n < (setAll {} sets).size → given.getLast? = some false) := by
  obtain ⟨hconsistent, heq⟩ := Columns.setAll_fresh indexed sets
  refine ⟨hconsistent, heq, fun name => ?_, keys_setAll sets,
    fun name value => get?_setAll_eq_some_iff, fun name => get?_setAll_eq_none_iff, size_setAll sets,
    entries_eq (nodup_keys_setAll sets), fun σ yield s => visitEntries_stops yield _ s⟩
  rw [← heq, hconsistent.get?_toDict]

example :
    let d : Dict Nat := setAll {} [("b", 1), ("a", 2), ("c", 3), ("a", 4)]
    let two (name : Text) (value : Nat) : StateM (List (Text × Nat)) Bool :=
      fun shown => (shown.isEmpty, shown ++ [(name, value)])
    ((visit d two).run []).2 = ([("b", 1), ("a", 4)] : List (Text × Nat)) := by
  decide

end WireSchema.Dict
