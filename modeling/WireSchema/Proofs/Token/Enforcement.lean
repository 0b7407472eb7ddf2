import Mathlib.Algebra.Order.Ring.Int
import Mathlib.Logic.Function.Iterate
import WireSchema.Proofs.Token.Emission

/-!
# Limits are enforced exactly

On a stream of complete JSON values the check of `Enforce` refuses the first token that breaks a limit
and none before it. Which tokens break a limit is said on the stream alone, without the frames of the
check: `depth` counts the brackets, and `HasKey p n key` says that the container `n` levels out from
the innermost one has had the key, by the balance of the brackets since.

The link between the two is `Matches`: there is a frame for every open container, and the frame of an
object holds exactly the keys that the object has had.
-/

namespace WireSchema

open Json (Tree)

namespace Enforce

/-! ## The stream -/

def weight (t : Token) : Int := if t.opens then 1 else if t.closes then -1 else 0

/-- The number of containers that are open after tokens. -/
def depth (ts : List Token) : Int := (ts.map weight).sum

/-- The container that is `n` levels out from the innermost one open after the tokens has had the
key: since the key `n` more containers were opened than closed, and never more closed than opened. -/
def HasKey (ts : List Token) (n : Int) (key : Text) : Prop :=
  ∃ before after, ts = before ++ .key key :: after ∧ depth after = n ∧
    ∀ part, part <+: after → 0 ≤ depth part

/-- After the tokens, one more opens a container too many. -/
def TooDeep (l : Limits) (ts : List Token) (t : Token) : Prop :=
  t.opens ∧ 0 < l.maxDepth ∧ l.maxDepth ≤ depth ts

/-- After the tokens, one more is a key that the innermost object has had. -/
def Repeats (l : Limits) (ts : List Token) (t : Token) (key : Text) : Prop :=
  l.rejectDuplicates ∧ t = .key key ∧ HasKey ts 0 key

/-- After the tokens `ts`, none of the tokens `us` breaks a limit. -/
def Clean (l : Limits) (ts us : List Token) : Prop :=
  ∀ before t after, us = before ++ t :: after →
    ¬TooDeep l (ts ++ before) t ∧ ∀ key, ¬Repeats l (ts ++ before) t key

theorem depth_append (ts us : List Token) : depth (ts ++ us) = depth ts + depth us := by
  simp [depth]

theorem depth_singleton (t : Token) : depth [t] = weight t := by simp [depth]

theorem HasKey.nonneg {ts : List Token} {n : Int} {key : Text} (h : HasKey ts n key) : 0 ≤ n := by
  obtain ⟨before, after, -, hn, hp⟩ := h
  exact hn ▸ hp after (List.prefix_refl _)

/-- One more token moves every container by its weight, and a key is one more of the innermost. -/
theorem hasKey_snoc {ts : List Token} {t : Token} {n : Int} {key : Text} :
    HasKey (ts ++ [t]) n key ↔
      (0 ≤ n ∧ HasKey ts (n - weight t) key) ∨ (t = .key key ∧ n = 0) := by
  constructor
  · intro h
    have hn := h.nonneg
    obtain ⟨before, after, hts, hd, hp⟩ := h
    rcases List.eq_nil_or_concat after with rfl | ⟨after, t', rfl⟩
    · right
      obtain ⟨-, ht⟩ := List.append_inj' hts rfl
      exact ⟨by simpa using ht, by simpa [depth] using hd.symm⟩
    · left
      have heq : ts ++ [t] = (before ++ .key key :: after) ++ [t'] := by simpa using hts
      obtain ⟨rfl, ht⟩ := List.append_inj' heq rfl
      obtain rfl : t = t' := by simpa using ht
      refine ⟨hn, before, after, rfl, ?_, fun part hpart => hp part ?_⟩
      · rw [List.concat_eq_append, depth_append, depth_singleton] at hd
        omega
      · exact hpart.trans (by simp)
  · rintro (⟨hn, before, after, rfl, hd, hp⟩ | ⟨rfl, rfl⟩)
    · refine ⟨before, after ++ [t], by simp, ?_, fun part hpart => ?_⟩
      · rw [depth_append, depth_singleton]; omega
      · rcases List.prefix_concat_iff.mp hpart with rfl | hpart
        · rw [depth_append, depth_singleton]; omega
        · exact hp part hpart
    · refine ⟨ts, [], rfl, rfl, fun part hpart => ?_⟩
      rw [List.prefix_nil.mp hpart]
      exact le_refl _

theorem clean_nil (l : Limits) (ts : List Token) : Clean l ts [] := by
  intro before t after h
  simp at h

theorem clean_append {l : Limits} {ts us vs : List Token} :
    Clean l ts (us ++ vs) ↔ Clean l ts us ∧ Clean l (ts ++ us) vs := by
  constructor
  · intro h
    refine ⟨fun before t after hu => h before t (after ++ vs) (by simp [hu]),
      fun before t after hv => ?_⟩
    have := h (us ++ before) t after (by simp [hv])
    rwa [← List.append_assoc] at this
  · rintro ⟨hu, hv⟩ before t after h
    rcases List.append_eq_append_iff.mp h with ⟨mid, rfl, hmid⟩ | ⟨mid, rfl, hmid⟩
    · rw [← List.append_assoc]
      exact hv mid t after hmid
    · cases mid with
      | nil =>
        have := hv [] t after (by simpa using hmid.symm)
        simpa using this
      | cons t' mid =>
        simp only [List.cons_append, List.cons.injEq] at hmid
        obtain ⟨rfl, rfl⟩ := hmid
        exact hu before t mid rfl

theorem clean_singleton {l : Limits} {ts : List Token} {t : Token} :
    Clean l ts [t] ↔ ¬TooDeep l ts t ∧ ∀ key, ¬Repeats l ts t key := by
  constructor
  · intro h
    simpa using h [] t [] rfl
  · intro h before t' after he
    rcases List.singleton_eq_append_iff.mp he with ⟨rfl, h'⟩ | ⟨-, h'⟩
    · obtain ⟨rfl, -⟩ := List.cons.inj h'
      simpa using h
    · simp at h'

/-! ## Frames against the stream -/

/-- The keys that a frame has had; an array has none. -/
def seenKeys : Frame → Option (List Text)
  | .array _ _ => none
  | .object _ seen _ => some seen

@[simp]
theorem map_seenKeys_valueDone (frames : List Frame) :
    (valueDone frames).map seenKeys = frames.map seenKeys := by
  rcases frames with _ | ⟨⟨⟩ | ⟨⟩, outer⟩ <;> rfl

@[simp]
theorem map_seenKeys_valueBegun (frames : List Frame) :
    (valueBegun frames).map seenKeys = frames.map seenKeys := by
  rcases frames with _ | ⟨⟨⟩ | ⟨⟩, outer⟩ <;> rfl

/-- There is a frame for every container that is open after the tokens, innermost first, and the frame
of an object holds the keys that the object has had. -/
structure Matches (ts : List Token) (keys : List (Option (List Text))) : Prop where
  length_eq : (keys.length : Int) = depth ts
  mem_iff : ∀ (n : Nat) (seen : List Text), keys[n]? = some (some seen) →
    ∀ key, key ∈ seen ↔ HasKey ts n key

theorem Matches.nil : Matches [] [] := by
  refine ⟨rfl, fun n seen h => ?_⟩
  simp at h

theorem Matches.scalar {ts : List Token} {keys : List (Option (List Text))} {t : Token}
    (h : Matches ts keys) (hw : weight t = 0) (hk : ∀ key, t ≠ .key key) :
    Matches (ts ++ [t]) keys := by
  refine ⟨by rw [depth_append, depth_singleton, hw, h.length_eq]; simp, fun n seen hn key => ?_⟩
  rw [h.mem_iff n seen hn, hasKey_snoc, hw]
  simp [hk]

theorem Matches.opened {ts : List Token} {keys : List (Option (List Text))} {t : Token}
    (h : Matches ts keys) (hw : weight t = 1) (hk : ∀ key, t ≠ .key key)
    {fresh : Option (List Text)} (hf : ∀ seen, fresh = some seen → seen = []) :
    Matches (ts ++ [t]) (fresh :: keys) := by
  refine ⟨?_, fun n seen hn key => ?_⟩
  · rw [depth_append, depth_singleton, hw, ← h.length_eq]
    simp
  · rw [hasKey_snoc, hw]
    cases n with
    | zero =>
      simp only [List.getElem?_cons_zero, Option.some.injEq] at hn
      have hnot : ¬HasKey ts (-1) key := fun h => by have := h.nonneg; omega
      simp [hf seen hn, hk, hnot]
    | succ n =>
      rw [List.getElem?_cons_succ] at hn
      rw [h.mem_iff n seen hn]
      simp [hk]
      omega

theorem Matches.closed {ts : List Token} {keys : List (Option (List Text))} {t : Token}
    {last : Option (List Text)} (h : Matches ts (last :: keys)) (hw : weight t = -1)
    (hk : ∀ key, t ≠ .key key) : Matches (ts ++ [t]) keys := by
  refine ⟨?_, fun n seen hn key => ?_⟩
  · have := h.length_eq
    rw [depth_append, depth_singleton, hw, ← this]
    simp
  · rw [h.mem_iff (n + 1) seen (by simpa using hn), hasKey_snoc, hw]
    simp [hk]

theorem Matches.keyed {ts : List Token} {keys : List (Option (List Text))} {seen : List Text}
    (h : Matches ts (some seen :: keys)) (name : Text) :
    Matches (ts ++ [.key name]) (some (name :: seen) :: keys) := by
  have hw : weight (.key name) = 0 := rfl
  refine ⟨by rw [depth_append, depth_singleton, hw, ← h.length_eq]; simp, fun n seen' hn key => ?_⟩
  rw [hasKey_snoc, hw]
  cases n with
  | zero =>
    obtain rfl : name :: seen = seen' := by simpa using hn
    have := h.mem_iff 0 seen rfl key
    simp only [Nat.cast_zero] at this
    simp [this, or_comm, eq_comm]
  | succ n =>
    have hle : (0 : Int) ≤ (n + 1 : Nat) := by omega
    have hne : ((n + 1 : Nat) : Int) ≠ 0 := by omega
    rw [h.mem_iff (n + 1) seen' (by simpa using hn), Int.sub_zero]
    simp only [hle, hne, true_and, and_false, or_false]

/-! ## Running the check -/

/-- Checks tokens one after another: how many are let through, and the frames after them or why the
next one is refused. -/
def run (l : Limits) : List Frame → List Token → Nat × Except Failure (List Frame)
  | frames, [] => (0, .ok frames)
  | frames, t :: ts =>
    match step l frames t with
    | (_, some f) => (0, .error f)
    | (frames, none) => ((run l frames ts).1 + 1, (run l frames ts).2)

theorem run_append_of_ok {l : Limits} {frames frames' : List Frame} {ts us : List Token} {n : Nat}
    (h : run l frames ts = (n, .ok frames')) :
    run l frames (ts ++ us) = (n + (run l frames' us).1, (run l frames' us).2) := by
  induction ts generalizing frames n with
  | nil =>
    simp only [run, Prod.mk.injEq, Except.ok.injEq] at h
    simp [← h.1, h.2]
  | cons t ts ih =>
    rw [List.cons_append, run]
    rw [run] at h
    split at h
    · simp at h
    · simp only [Prod.mk.injEq] at h
      obtain ⟨rfl, hr⟩ := h
      rw [ih (Prod.ext rfl hr : run l _ ts = (_, .ok frames'))]
      exact Prod.ext (Nat.add_right_comm _ _ _) rfl

theorem run_append_of_error {l : Limits} {frames : List Frame} {ts us : List Token} {n : Nat}
    {f : Failure} (h : run l frames ts = (n, .error f)) :
    run l frames (ts ++ us) = (n, .error f) := by
  induction ts generalizing frames n with
  | nil => simp [run] at h
  | cons t ts ih =>
    rw [List.cons_append, run]
    rw [run] at h
    split at h
    · exact h
    · simp only [Prod.mk.injEq] at h
      rw [ih (Prod.ext rfl h.2 : run l _ ts = (_, .error f)), ← h.1]

/-- Why a token is refused. -/
inductive Refused (l : Limits) (ts : List Token) (t : Token) : Failure → Prop
  | tooDeep (path : Option Text) : TooDeep l ts t → Refused l ts t (.maxDepth path)
  | repeats {key : Text} (path : Text) : Repeats l ts t key → Refused l ts t (.duplicateKey key path)

/-- What checking the tokens `us` after `ts` comes to: all of them are let through and the frames
`frames` are left, or the first one that breaks a limit is refused for it. -/
def Verdict (l : Limits) (ts us : List Token) (frames : List Frame)
    (r : Nat × Except Failure (List Frame)) : Prop :=
  (Clean l ts us ∧ Matches (ts ++ us) (frames.map seenKeys) ∧ r = (us.length, .ok frames)) ∨
  ∃ before t after f, us = before ++ t :: after ∧ Clean l ts before ∧
    Refused l (ts ++ before) t f ∧ r = (before.length, .error f)

theorem Verdict.append {l : Limits} {ts us vs : List Token} {frames frames₁ frames₂ : List Frame}
    (h₁ : Verdict l ts us frames₁ (run l frames us))
    (h₂ : Matches (ts ++ us) (frames₁.map seenKeys) →
      Verdict l (ts ++ us) vs frames₂ (run l frames₁ vs)) :
    Verdict l ts (us ++ vs) frames₂ (run l frames (us ++ vs)) := by
  rcases h₁ with ⟨hc, hm, hr⟩ | ⟨before, t, after, f, rfl, hc, hf, hr⟩
  · rw [run_append_of_ok hr]
    rcases h₂ hm with ⟨hc', hm', hr'⟩ | ⟨before, t, after, f, rfl, hc', hf, hr'⟩
    · exact .inl ⟨clean_append.mpr ⟨hc, hc'⟩, by simpa using hm', by simp [hr']⟩
    · refine .inr ⟨us ++ before, t, after, f, by simp, clean_append.mpr ⟨hc, hc'⟩, ?_, by simp [hr']⟩
      rwa [← List.append_assoc]
  · rw [run_append_of_error hr]
    exact .inr ⟨before, t, after ++ vs, f, by simp, hc, hf, rfl⟩

/-! ## One token -/

theorem verdict_pass {l : Limits} {ts : List Token} {t : Token} {frames frames' : List Frame}
    (hs : step l frames t = (frames', none)) (hc : Clean l ts [t])
    (hm : Matches (ts ++ [t]) (frames'.map seenKeys)) :
    Verdict l ts [t] frames' (run l frames [t]) :=
  .inl ⟨hc, hm, by simp [run, hs]⟩

theorem verdict_refuse {l : Limits} {ts : List Token} {t : Token} {f : Failure}
    {frames after : List Frame} (hs : (step l frames t).2 = some f) (hf : Refused l ts t f) :
    Verdict l ts [t] after (run l frames [t]) := by
  refine .inr ⟨[], t, [], f, rfl, clean_nil l ts, by simpa using hf, ?_⟩
  rw [run, show step l frames t = ((step l frames t).1, some f) from Prod.ext rfl hs]
  rfl

theorem clean_of_plain {l : Limits} {ts : List Token} {t : Token} (ho : t.opens = false)
    (hk : ∀ key, t ≠ .key key) : Clean l ts [t] :=
  clean_singleton.mpr ⟨fun h => by simp [TooDeep, ho] at h, fun key h => hk key h.2.1⟩

theorem verdict_open {l : Limits} {ts : List Token} {t : Token} {frames : List Frame}
    (make : Pointer → Frame) (hm : Matches ts (frames.map seenKeys)) (ho : t.opens = true)
    (hs : step l frames t = openFrame l frames make)
    (hf : ∀ place seen, seenKeys (make place) = some seen → seen = []) :
    Verdict l ts [t] (make (valuePlace frames) :: valueBegun frames) (run l frames [t]) := by
  have hk : ∀ key, t ≠ .key key := by rintro key rfl; simp [Token.opens] at ho
  have hw : weight t = 1 := by simp [weight, ho]
  have hlen : ((valueBegun frames).length : Int) = depth ts := by
    have := congrArg List.length (map_seenKeys_valueBegun frames)
    rw [List.length_map, List.length_map] at this
    rw [this, ← hm.length_eq, List.length_map]
  by_cases hd : 0 < l.maxDepth ∧ l.maxDepth ≤ depth ts
  · have hf : Refused l ts t (.maxDepth (some (valuePlace frames).text)) := .tooDeep _ ⟨ho, hd⟩
    refine verdict_refuse ?_ hf
    rw [hs, openFrame]
    simp only [List.length_cons]
    rw [if_pos]
    simp only [Bool.and_eq_true, decide_eq_true_eq]
    omega
  · refine verdict_pass ?_ (clean_singleton.mpr ⟨fun h => hd h.2, fun key h => hk key h.2.1⟩) ?_
    · rw [hs, openFrame]
      simp only [List.length_cons]
      rw [if_neg]
      simp only [Bool.and_eq_true, decide_eq_true_eq]
      omega
    · rw [List.map_cons, map_seenKeys_valueBegun]
      exact hm.opened hw hk (hf _)

theorem verdict_close {l : Limits} {ts : List Token} {t : Token} {frame : Frame}
    {frames : List Frame} (hm : Matches ts ((frame :: frames).map seenKeys))
    (hc : t.closes = true) : Verdict l ts [t] (valueDone frames) (run l (frame :: frames) [t]) := by
  have ho : t.opens = false := by cases t <;> simp_all [Token.closes, Token.opens]
  have hk : ∀ key, t ≠ .key key := by rintro key rfl; simp [Token.closes] at hc
  refine verdict_pass ?_ (clean_of_plain ho hk) ?_
  · cases t <;> simp_all [Token.closes, step]
  · rw [map_seenKeys_valueDone]
    exact hm.closed (by simp [weight, ho, hc]) hk

theorem verdict_key {l : Limits} {ts : List Token} {place : Pointer} {seen : List Text}
    {outer : List Frame} (hm : Matches ts (some seen :: outer.map seenKeys)) (name : Text) :
    Verdict l ts [.key name] (.object place (name :: seen) (some name) :: outer)
      (run l (.object place seen none :: outer) [.key name]) := by
  have hseen := hm.mem_iff 0 seen rfl name
  by_cases hr : l.rejectDuplicates ∧ name ∈ seen
  · have hf : Refused l ts (.key name) (.duplicateKey name (Pointer.text (name :: place))) :=
      .repeats _ ⟨hr.1, rfl, hseen.mp hr.2⟩
    refine verdict_refuse ?_ hf
    simp [step, hr.1, hr.2]
  · refine verdict_pass ?_ (clean_singleton.mpr ⟨fun h => by simp [TooDeep, Token.opens] at h, ?_⟩) ?_
    · simp only [step]
      rw [if_neg]
      simpa using hr
    · rintro key ⟨hd, hkey, hh⟩
      obtain rfl : name = key := by simpa using hkey
      exact hr ⟨hd, hseen.mpr hh⟩
    · exact hm.keyed name

/-! ## Whole values -/

def afterValue (frames : List Frame) : List Frame := valueDone (valueBegun frames)

theorem iterate_afterValue_array (place : Pointer) (next n : Nat) (outer : List Frame) :
    afterValue^[n] (.array place next :: outer) = .array place (next + n) :: outer := by
  induction n generalizing next with
  | zero => rfl
  | succ n ih =>
    rw [Function.iterate_succ_apply]
    exact (ih (next + 1)).trans (by rw [Nat.add_assoc, Nat.add_comm 1])

theorem verdict_scalar {l : Limits} {ts : List Token} {t : Token} {frames : List Frame}
    (hm : Matches ts (frames.map seenKeys)) (hs : step l frames t = (afterValue frames, none))
    (ho : t.opens = false) (hw : weight t = 0) (hk : ∀ key, t ≠ .key key) :
    Verdict l ts [t] (afterValue frames) (run l frames [t]) := by
  refine verdict_pass hs (clean_of_plain ho hk) ?_
  rw [afterValue, map_seenKeys_valueDone, map_seenKeys_valueBegun]
  exact hm.scalar hw hk

mutual

/-- A value is let through as a whole, or up to the first token in it that breaks a limit. -/
theorem verdict_tree (l : Limits) : ∀ (t : Tree) (ts : List Token) (frames : List Frame),
    Matches ts (frames.map seenKeys) →
    Verdict l ts t.tokens (afterValue frames) (run l frames t.tokens)
  | .array items, ts, frames, hm => by
    have ho : Verdict l ts [.beginArray] _ _ := verdict_open (.array · 0) hm rfl rfl
      (fun place seen h => by simp [seenKeys] at h)
    refine ho.append fun hm₁ => ?_
    have hi := verdict_items l items _ _ hm₁
    rw [iterate_afterValue_array] at hi
    exact hi.append fun hm₂ => verdict_close hm₂ rfl
  | .object members, ts, frames, hm => by
    have ho : Verdict l ts [.beginObject] _ _ := verdict_open (.object · [] none) hm rfl rfl
      (fun place seen h => by simpa [seenKeys] using h.symm)
    refine ho.append fun hm₁ => ?_
    exact (verdict_members l members _ _ _ _ hm₁).append fun hm₂ => verdict_close hm₂ rfl
  | .null, ts, frames, hm | .bool _, ts, frames, hm | .number _, ts, frames, hm
  | .string _, ts, frames, hm => by
    exact verdict_scalar hm rfl rfl rfl (by simp [Tree.head])

theorem verdict_items (l : Limits) : ∀ (items : List Tree) (ts : List Token) (frames : List Frame),
    Matches ts (frames.map seenKeys) →
    Verdict l ts (Tree.itemTokens items) (afterValue^[items.length] frames)
      (run l frames (Tree.itemTokens items))
  | [], ts, frames, hm => .inl ⟨clean_nil l ts, by simpa [Tree.itemTokens] using hm, rfl⟩
  | t :: items, ts, frames, hm =>
    (verdict_tree l t ts frames hm).append fun hm₁ => verdict_items l items _ _ hm₁

theorem verdict_members (l : Limits) : ∀ (members : List (Text × Tree)) (ts : List Token)
    (place : Pointer) (seen : List Text) (outer : List Frame),
    Matches ts (some seen :: outer.map seenKeys) →
    Verdict l ts (Tree.memberTokens members)
      (.object place ((members.map (·.1)).reverse ++ seen) none :: outer)
      (run l (.object place seen none :: outer) (Tree.memberTokens members))
  | [], ts, place, seen, outer, hm =>
    .inl ⟨clean_nil l ts, by simpa [Tree.memberTokens, seenKeys] using hm, rfl⟩
  | (key, t) :: members, ts, place, seen, outer, hm => by
    refine (verdict_key hm key).append fun hm₁ => ?_
    refine (verdict_tree l t _ _ hm₁).append fun hm₂ => ?_
    rw [List.map_cons, List.reverse_cons, List.append_assoc (members.map (·.1)).reverse]
    exact verdict_members l members _ place (key :: seen) outer hm₂

end

/-! ## Draining a source under limits -/

theorem drainLoop_seen (fuel : Nat) (seen : List Located) (s : Source) :
    Source.drainLoop fuel seen s =
      (seen.reverse ++ (Source.drainLoop fuel [] s).1, (Source.drainLoop fuel [] s).2) := by
  induction fuel generalizing seen s with
  | zero => simp [Source.drainLoop]
  | succ fuel ih =>
    simp only [Source.drainLoop]
    split
    · simp
    · rename_i t s' _
      rw [ih (t :: seen), ih [t]]
      simp

theorem drainLoop_ok {fuel : Nat} {s s' : Source} {t : Located} (h : s.next = (.ok t, s')) :
    Source.drainLoop (fuel + 1) [] s =
      (t :: (Source.drainLoop fuel [] s').1, (Source.drainLoop fuel [] s').2) := by
  rw [Source.drainLoop, h]
  exact drainLoop_seen fuel [t] s'

theorem drainLoop_error {fuel : Nat} {s s' : Source} {f : Failure} (h : s.next = (.error f, s')) :
    Source.drainLoop (fuel + 1) [] s = ([], f, s') := by
  rw [Source.drainLoop, h]
  rfl

/-- A source under limits hands on what the check lets through, and ends as the source does unless a
token is refused. -/
theorem drainLoop_limited (l : Limits) (frames : List Frame) {fuel : Nat} {s s₁ : Source}
    {ts : List Located} {ending : Failure} (h : Source.drainLoop fuel [] s = (ts, ending, s₁)) :
    ∃ s', Source.drainLoop fuel [] (.limited l frames s) =
      (ts.take (run l frames (ts.map (·.token))).1,
        match (run l frames (ts.map (·.token))).2 with
        | .ok _ => ending
        | .error f => f, s') := by
  induction fuel generalizing frames s ts with
  | zero =>
    obtain ⟨rfl, rfl, rfl⟩ : [] = ts ∧ .exhausted .clean = ending ∧ s = s₁ := by
      simpa [Source.drainLoop] using h
    exact ⟨_, rfl⟩
  | succ fuel ih =>
    rcases hn : s.next with ⟨f | t, s₂⟩
    · have hl : (Source.limited l frames s).next = (.error f, .limited l frames s₂) := by
        simp [Source.next, hn]
      obtain ⟨rfl, rfl, rfl⟩ : [] = ts ∧ f = ending ∧ s₂ = s₁ := by
        simpa [drainLoop_error hn] using h
      exact ⟨_, drainLoop_error hl⟩
    · rw [drainLoop_ok hn] at h
      obtain ⟨rest, rfl, hrest⟩ : ∃ rest, ts = t :: rest ∧
          Source.drainLoop fuel [] s₂ = (rest, ending, s₁) := by
        simp only [Prod.mk.injEq] at h
        exact ⟨_, h.1.symm, Prod.ext rfl h.2⟩
      simp only [List.map_cons, run]
      rcases hs : step l frames t.token with ⟨frames', _ | f⟩
      · have hl : (Source.limited l frames s).next = (.ok t, .limited l frames' s₂) := by
          simp [Source.next, hn, hs]
        obtain ⟨s', h'⟩ := ih frames' hrest
        exact ⟨s', by rw [drainLoop_ok hl, h']; rfl⟩
      · have hl : (Source.limited l frames s).next = (.error f, .limited l frames' s₂) := by
          simp [Source.next, hn, hs]
        exact ⟨_, drainLoop_error hl⟩

theorem clean_of_disabled {l : Limits} (h : l.enabled = false) (ts us : List Token) :
    Clean l ts us := by
  simp only [Limits.enabled, Bool.or_eq_false_iff, decide_eq_false_iff_not] at h
  refine fun before t after _ => ⟨fun hd => h.1 hd.2.1, fun key hr => ?_⟩
  rw [Repeats, h.2] at hr
  exact absurd hr.1 (by simp)

/-- Draining a source of complete values under limits gives all its tokens and its own end, or the
tokens before the first one that breaks a limit and the refusal of that one. -/
theorem drain_withLimits (l : Limits) (trees : List Tree) {s s₁ : Source} {ts : List Located}
    {ending : Failure} (h : s.drain = (ts, ending, s₁))
    (hts : ts.map (·.token) = Tree.itemTokens trees) :
    (Clean l [] (ts.map (·.token)) ∧ ∃ s', (s.withLimits l).drain = (ts, ending, s')) ∨
    ∃ before t after f s', ts = before ++ t :: after ∧ Clean l [] (before.map (·.token)) ∧
      Refused l (before.map (·.token)) t.token f ∧ (s.withLimits l).drain = (before, f, s') := by
  by_cases he : l.enabled = true
  · rw [Source.withLimits, if_pos he]
    obtain ⟨s', hd⟩ := drainLoop_limited l [] h
    change (Source.limited l [] s).drain = _ at hd
    have hv := verdict_items l trees [] [] Matches.nil
    rw [← hts] at hv
    rcases hv with ⟨hc, -, hr⟩ | ⟨before, t, after, f, hu, hc, hf, hr⟩
    · rw [hr] at hd
      exact .inl ⟨hc, s', by simpa using hd⟩
    · rw [hr] at hd
      obtain ⟨before, rest, rfl, rfl, hrest⟩ := List.map_eq_append_iff.mp hu
      obtain ⟨t, after, rfl, rfl, -⟩ := List.map_eq_cons_iff.mp hrest
      exact .inr ⟨before, t, after, f, s', rfl, hc, by simpa using hf, by simpa using hd⟩
  · rw [Source.withLimits, if_neg he]
    exact .inl ⟨clean_of_disabled (by simpa using he) _ _, s₁, h⟩

theorem Refused.not_clean {l : Limits} {ts : List Token} {t : Token} {f : Failure}
    (h : Refused l ts t f) (after : List Token) : ¬Clean l [] (ts ++ t :: after) := by
  intro hc
  obtain ⟨hd, hk⟩ := hc ts t after rfl
  cases h with
  | tooDeep _ h => exact hd h
  | repeats _ h => exact hk _ h

theorem first_refused_unique {l : Limits} {before before' after after' : List Located}
    {t t' : Located} {f f' : Failure} (he : before ++ t :: after = before' ++ t' :: after')
    (hc : Clean l [] (before.map (·.token))) (hc' : Clean l [] (before'.map (·.token)))
    (hf : Refused l (before.map (·.token)) t.token f)
    (hf' : Refused l (before'.map (·.token)) t'.token f') : before = before' ∧ t = t' := by
  rcases List.append_eq_append_iff.mp he with ⟨mid, rfl, hmid⟩ | ⟨mid, rfl, hmid⟩
  · cases mid with
    | nil => exact ⟨by simp, (List.cons.inj hmid).1⟩
    | cons u mid =>
      obtain ⟨rfl, -⟩ := List.cons.inj hmid
      rw [List.map_append, List.map_cons] at hc'
      exact absurd hc' (hf.not_clean _)
  · cases mid with
    | nil => exact ⟨by simp, (List.cons.inj hmid).1.symm⟩
    | cons u mid =>
      obtain ⟨rfl, -⟩ := List.cons.inj hmid
      rw [List.map_append, List.map_cons] at hc
      exact absurd hc (hf'.not_clean _)

theorem TooDeep.not_repeats {l : Limits} {ts : List Token} {t : Token} {key : Text}
    (hd : TooDeep l ts t) : ¬Repeats l ts t key := by
  rintro ⟨-, rfl, -⟩
  simp [TooDeep, Token.opens] at hd

theorem drain_first_refused {l : Limits} {trees : List Tree} {s s₁ : Source}
    {before after : List Located} {t : Located} {ending f : Failure}
    (h : s.drain = (before ++ t :: after, ending, s₁))
    (hts : (before ++ t :: after).map (·.token) = Tree.itemTokens trees)
    (hc : Clean l [] (before.map (·.token))) (hf : Refused l (before.map (·.token)) t.token f) :
    ∃ f' s', Refused l (before.map (·.token)) t.token f' ∧
      (s.withLimits l).drain = (before, f', s') := by
  rcases drain_withLimits l trees h hts with ⟨hall, -⟩ | ⟨before', t', after', f', s', he, hc', hf', hd⟩
  · rw [List.map_append, List.map_cons] at hall
    exact absurd hall (hf.not_clean _)
  · obtain ⟨rfl, rfl⟩ := first_refused_unique he hc hc' hf hf'
    exact ⟨f', s', hf', hd⟩

/-- **Limits are enforced exactly.** If the tokens of a source spell complete JSON values, the source
under limits hands on the same tokens up to the first one that breaks a limit: a bracket that opens a
container when as many as allowed are open is refused as too deep, and a key that its own object has
had is refused as that key repeated. If no token breaks a limit, all are handed on and the end is the
end of the source. -/
theorem drain_withLimits_exact (l : Limits) (trees : List Tree) {s s₁ : Source} {ts : List Located}
    {ending : Failure} (h : s.drain = (ts, ending, s₁))
    (hts : ts.map (·.token) = Tree.itemTokens trees) :
    (Clean l [] (ts.map (·.token)) → ∃ s', (s.withLimits l).drain = (ts, ending, s')) ∧
    ∀ before t after, ts = before ++ t :: after → Clean l [] (before.map (·.token)) →
      (TooDeep l (before.map (·.token)) t.token →
        ∃ path s', (s.withLimits l).drain = (before, .maxDepth path, s')) ∧
      ∀ key, Repeats l (before.map (·.token)) t.token key →
        ∃ path s', (s.withLimits l).drain = (before, .duplicateKey key path, s') := by
  refine ⟨fun hc => ?_, ?_⟩
  · rcases drain_withLimits l trees h hts with ⟨-, hall⟩ | ⟨before, t, after, f, s', rfl, -, hf, -⟩
    · exact hall
    · rw [List.map_append, List.map_cons] at hc
      exact absurd hc (hf.not_clean _)
  · rintro before t after rfl hc
    refine ⟨fun hd => ?_, fun name hr => ?_⟩
    · obtain ⟨f, s', hf, hdrain⟩ := drain_first_refused h hts hc (.tooDeep none hd)
      cases hf with
      | tooDeep path _ => exact ⟨path, s', hdrain⟩
      | repeats _ hr => exact absurd hr hd.not_repeats
    · obtain ⟨f, s', hf, hdrain⟩ := drain_first_refused h hts hc (.repeats [] hr)
      cases hf with
      | tooDeep _ hd => exact absurd hr hd.not_repeats
      | repeats path hr' =>
        obtain rfl : name = _ := by simpa using hr.2.1.symm.trans hr'.2.1
        exact ⟨path, s', hdrain⟩

/-- In an object with an object inside, both with the key `k`, the second `k` of the outer one is
refused; the inner `k` is not. -/
theorem repeated_key_after_nested_refused :
    ∃ path s', ((Source.replay [⟨.beginObject, 0⟩, ⟨.key "k", 1⟩, ⟨.beginObject, 2⟩, ⟨.key "k", 3⟩,
        ⟨.null, 4⟩, ⟨.endObject, 5⟩, ⟨.key "k", 6⟩, ⟨.null, 7⟩, ⟨.endObject, 8⟩] 0).withLimits
          ⟨2, true⟩).drain =
      ([⟨.beginObject, 0⟩, ⟨.key "k", 1⟩, ⟨.beginObject, 2⟩, ⟨.key "k", 3⟩, ⟨.null, 4⟩,
        ⟨.endObject, 5⟩], .duplicateKey "k" path, s') := by
  -- nothing depends on which key it is
  generalize ("k" : Text) = k
  have h₁ : HasKey ([Token.beginObject] ++ [Token.key k]) 0 k := hasKey_snoc.mpr (.inr ⟨rfl, rfl⟩)
  have h₂ : HasKey ([Token.beginObject, Token.key k] ++ [Token.beginObject]) 1 k :=
    hasKey_snoc.mpr (.inl ⟨by decide, h₁⟩)
  have h₃ : HasKey ([Token.beginObject, Token.key k, Token.beginObject] ++ [Token.key k]) 1 k :=
    hasKey_snoc.mpr (.inl ⟨by decide, h₂⟩)
  have h₄ : HasKey ([Token.beginObject, Token.key k, Token.beginObject, Token.key k] ++ [Token.null])
      1 k := hasKey_snoc.mpr (.inl ⟨by decide, h₃⟩)
  have h₅ : HasKey ([Token.beginObject, Token.key k, Token.beginObject, Token.key k, Token.null] ++
      [Token.endObject]) 0 k := hasKey_snoc.mpr (.inl ⟨by decide, h₄⟩)
  have hopen : ∀ ts : List Token, ¬HasKey (ts ++ [Token.beginObject]) 0 k := by
    intro ts h
    rcases hasKey_snoc.mp h with ⟨-, h⟩ | ⟨h, -⟩
    · exact absurd h.nonneg (by decide)
    · simp at h
  have hc : Clean ⟨2, true⟩ []
      ([Token.beginObject] ++ [Token.key k] ++ [Token.beginObject] ++ [Token.key k] ++ [Token.null] ++
        [Token.endObject]) := by
    simp only [clean_append, clean_singleton, Repeats]
    simp [TooDeep, depth, weight, Token.opens, Token.closes]
    exact ⟨hopen [], hopen [.beginObject, .key k]⟩
  exact ((drain_withLimits_exact ⟨2, true⟩
    [.object [(k, .object [(k, .null)]), (k, .null)]] rfl rfl).2
    [⟨.beginObject, 0⟩, ⟨.key k, 1⟩, ⟨.beginObject, 2⟩, ⟨.key k, 3⟩, ⟨.null, 4⟩,
      ⟨.endObject, 5⟩] ⟨.key k, 6⟩ _ rfl hc).2 k ⟨rfl, rfl, h₅⟩

end Enforce

end WireSchema
