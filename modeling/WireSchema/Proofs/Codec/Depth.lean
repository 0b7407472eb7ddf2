import Mathlib.Data.Int.Order.Basic
import Mathlib.Data.Nat.Basic
import Mathlib.Order.Basic
import Mathlib.Order.Lattice
import WireSchema.Codec.Encode
import WireSchema.Proofs.Token.Emission

/-!
# How deep a decoded value can be

A limit on depth is checked against the brackets of the text, which are not matched by kind, while the
decoder closes an object only at `}` and an array only at `]` and passes over any other closing
bracket. What the decoder passes over the limit counts as closed. So a decoded value can be deeper than
the limit, but by no more than the closing brackets that come when nothing is open, and one such
bracket is enough. In a text without them the limit holds.
-/

namespace WireSchema

/-! ## Brackets -/

/-- The open containers and the surplus after a token: a closing bracket that finds nothing open is
surplus. Kinds are not told apart. -/
def bracketStep (state : Nat × Nat) (t : Token) : Nat × Nat :=
  if t.opens then (state.1 + 1, state.2)
  else if t.closes then (state.1 - 1, if state.1 = 0 then state.2 + 1 else state.2)
  else state

/-- How many containers are open after tokens, and how many closing brackets found nothing open. -/
def brackets (ts : List Token) : Nat × Nat := ts.foldl bracketStep (0, 0)

/-- How many closing brackets found nothing open. -/
def surplus (ts : List Token) : Nat := (brackets ts).2

theorem brackets_snoc (ts : List Token) (t : Token) :
    brackets (ts ++ [t]) = bracketStep (brackets ts) t := by
  simp [brackets]

namespace Enforce

theorem length_valueDone (frames : List Frame) : (valueDone frames).length = frames.length := by
  cases frames <;> rfl

theorem length_valueBegun (frames : List Frame) : (valueBegun frames).length = frames.length := by
  cases frames <;> rfl

theorem length_openFrame (l : Limits) (frames : List Frame) (make : Pointer → Frame) :
    (openFrame l frames make).1.length = frames.length + 1 := by
  simp only [openFrame]
  split <;> simp [length_valueBegun]

theorem length_of_openFrame {l : Limits} {frames frames' : List Frame} {make : Pointer → Frame}
    (hl : 0 < l.maxDepth) (h : openFrame l frames make = (frames', none)) :
    (frames'.length : Int) ≤ l.maxDepth := by
  unfold openFrame at h
  simp only [hl, decide_true, Bool.true_and, decide_eq_true_eq] at h
  split at h
  · simp at h
  · obtain ⟨rfl, -⟩ := Prod.mk.inj h
    omega

/-- The open containers are counted as the brackets are. -/
theorem length_step (l : Limits) (frames : List Frame) (k : Nat) (t : Token) :
    (step l frames t).1.length = (bracketStep (frames.length, k) t).1 := by
  cases t with
  | beginObject | beginArray =>
    simp only [step, bracketStep, Token.opens, length_openFrame, if_true]
  | endObject | endArray => simp [step, bracketStep, Token.opens, Token.closes, length_valueDone]
  | key name =>
    simp only [step, bracketStep, Token.opens, Token.closes]
    split
    · split <;> rfl
    · rfl
  | _ => simp [step, bracketStep, Token.opens, Token.closes, length_valueDone, length_valueBegun]

theorem length_of_step {l : Limits} {frames frames' : List Frame} {t : Token} (hl : 0 < l.maxDepth)
    (hf : (frames.length : Int) ≤ l.maxDepth) (h : step l frames t = (frames', none)) :
    (frames'.length : Int) ≤ l.maxDepth := by
  have hlen := length_step l frames 0 t
  rw [h] at hlen
  by_cases ho : t.opens
  · cases t with
    | beginObject | beginArray =>
      simp only [step] at h
      exact length_of_openFrame hl h
    | _ => simp [Token.opens] at ho
  · simp only [bracketStep, ho, Bool.false_eq_true, if_false] at hlen
    split at hlen <;> omega

end Enforce

/-! ## Where a decoder stands -/

/-- A source under limits, as a decoder sees it that took its tokens since the source `s₀`, has `depth`
containers open and has passed over `ignored` closing brackets. -/
def Standing (l : Limits) (s₀ : Source) (depth ignored : Nat) (s : Source) : Prop :=
  ∃ taken frames inner, s = .limited l frames inner ∧ s₀.Emits taken inner ∧
    frames.length = (brackets taken).1 ∧ (frames.length : Int) ≤ l.maxDepth ∧
    depth + surplus taken = frames.length + ignored

namespace Standing

variable {l : Limits} {s₀ s s' : Source} {depth ignored : Nat}

theorem start (hl : 0 < l.maxDepth) : Standing l s₀ 0 0 (.limited l [] s₀) :=
  ⟨[], [], s₀, rfl, .nil _, rfl, by simpa using hl.le, rfl⟩

theorem depth_le (h : Standing l s₀ depth ignored s) : (depth : Int) ≤ l.maxDepth + ignored := by
  obtain ⟨taken, frames, inner, -, -, -, hmax, hbal⟩ := h
  omega

theorem next {t : Located} (hl : 0 < l.maxDepth) (h : Standing l s₀ depth ignored s)
    (hn : s.next = (.ok t, s')) :
    ∃ taken frames inner, s' = .limited l frames inner ∧ s₀.Emits taken inner ∧
      frames.length = (brackets taken).1 ∧ (frames.length : Int) ≤ l.maxDepth ∧
      ∃ before, taken = before ++ [t.token] ∧
        depth + surplus before = (brackets before).1 + ignored := by
  obtain ⟨taken, frames, inner, rfl, he, hlen, hmax, hbal⟩ := h
  simp only [Source.next] at hn
  split at hn
  · simp at hn
  · rename_i t' inner' hin
    split at hn
    · simp at hn
    · rename_i frames' hstep
      obtain ⟨ht, rfl⟩ := Prod.mk.inj hn
      obtain rfl := Except.ok.inj ht
      have hlen' := Enforce.length_step l frames (surplus taken) t'.token
      rw [hstep] at hlen'
      refine ⟨taken ++ [t'.token], frames', inner', rfl, he.append (.cons hin (.nil _)), ?_,
        Enforce.length_of_step hl hmax hstep, taken, rfl, hlen ▸ hbal⟩
      rw [hlen', hlen, brackets_snoc]
      rfl

theorem opened {t : Located} (hl : 0 < l.maxDepth) (h : Standing l s₀ depth ignored s)
    (hn : s.next = (.ok t, s')) (ho : t.token.opens = true) :
    Standing l s₀ (depth + 1) ignored s' := by
  obtain ⟨taken, frames, inner, hs, he, hlen, hmax, before, rfl, hbal⟩ := h.next hl hn
  refine ⟨_, frames, inner, hs, he, hlen, hmax, ?_⟩
  simp only [surplus, brackets_snoc, bracketStep, ho, if_true] at hlen hbal ⊢
  omega

theorem closed {t : Located} (hl : 0 < l.maxDepth) (h : Standing l s₀ (depth + 1) ignored s)
    (hn : s.next = (.ok t, s')) (ho : t.token.opens = false) (hc : t.token.closes = true) :
    Standing l s₀ depth ignored s' := by
  obtain ⟨taken, frames, inner, hs, he, hlen, hmax, before, rfl, hbal⟩ := h.next hl hn
  refine ⟨_, frames, inner, hs, he, hlen, hmax, ?_⟩
  simp only [surplus, brackets_snoc, bracketStep, ho, hc, Bool.false_eq_true, if_false,
    if_true] at hlen hbal ⊢
  split <;> omega

theorem passed {t : Located} (hl : 0 < l.maxDepth) (h : Standing l s₀ depth ignored s)
    (hn : s.next = (.ok t, s')) (ho : t.token.opens = false) :
    ∃ j ≥ ignored, Standing l s₀ depth j s' := by
  obtain ⟨taken, frames, inner, hs, he, hlen, hmax, before, rfl, hbal⟩ := h.next hl hn
  by_cases hc : t.token.closes = true
  · refine ⟨ignored + 1, by omega, _, frames, inner, hs, he, hlen, hmax, ?_⟩
    simp only [surplus, brackets_snoc, bracketStep, ho, hc, Bool.false_eq_true, if_false,
      if_true] at hlen hbal ⊢
    split <;> omega
  · refine ⟨ignored, le_rfl, _, frames, inner, hs, he, hlen, hmax, ?_⟩
    simp only [surplus, brackets_snoc, bracketStep, ho, hc, Bool.false_eq_true, if_false]
      at hlen hbal ⊢
    omega

end Standing

/-- Skipping closes what it opens and the containers that were to be closed, whatever the kinds of the
brackets. -/
theorem Standing.skipLoop {l : Limits} {s₀ : Source} {depth ignored : Nat} (hl : 0 < l.maxDepth) :
    ∀ (fuel inner : Nat) {s s' : Source}, Standing l s₀ (depth + inner) ignored s →
      Source.skipLoop fuel inner s = (none, s') →
      ∃ j ≥ ignored, Standing l s₀ depth j s' := by
  intro fuel
  induction fuel generalizing ignored with
  | zero =>
    intro inner s s' h hs
    cases inner with
    | zero =>
      simp only [Source.skipLoop, Prod.mk.injEq, true_and] at hs
      exact ⟨ignored, le_rfl, hs ▸ h⟩
    | succ inner => simp [Source.skipLoop] at hs
  | succ fuel ih =>
    intro inner s s' h hs
    cases inner with
    | zero =>
      simp only [Source.skipLoop, Prod.mk.injEq, true_and] at hs
      exact ⟨ignored, le_rfl, hs ▸ h⟩
    | succ inner =>
      rw [Source.skipLoop] at hs
      split at hs
      · simp at hs
      · simp at hs
      · rename_i t s₁ hn
        split_ifs at hs with ho hc
        · exact ih (inner + 2) (h.opened hl hn ho) hs
        · exact ih inner (h.closed hl hn (by simpa using ho) hc) hs
        · obtain ⟨j, hj, h⟩ := h.passed hl hn (by simpa using ho)
          obtain ⟨k, hk, h⟩ := ih (inner + 1) h hs
          exact ⟨k, hj.trans hk, h⟩

/-! ## Readers -/

namespace Reader

theorem source_of_next {r r' : Reader} {t : Token} (h : r.next = (.ok t, r')) :
    ∃ offset, r.source.next = (.ok ⟨t, offset⟩, r'.source) ∧ r'.current = some t := by
  unfold next at h
  split at h
  · rename_i t' source hn
    obtain ⟨ht, rfl⟩ := Prod.mk.inj h
    obtain rfl := Except.ok.inj ht
    exact ⟨t'.offset, hn, rfl⟩
  · simp at h

end Reader

/-- The decoder has taken the first token of a value that is to stand in `depth` containers. -/
def Began (l : Limits) (s₀ : Source) (depth ignored : Nat) (t : Token) (s : Source) : Prop :=
  Standing l s₀ (if t.opens then depth + 1 else depth) ignored s

section Skip

variable {l : Limits} {s₀ : Source} {depth ignored : Nat} {r r' : Reader} {t : Token}

theorem Standing.began (hl : 0 < l.maxDepth) (h : Standing l s₀ depth ignored r.source)
    (hn : r.next = (.ok t, r')) :
    r'.current = some t ∧ ∃ j ≥ ignored, Began l s₀ depth j t r'.source := by
  obtain ⟨offset, hn, hc⟩ := Reader.source_of_next hn
  refine ⟨hc, ?_⟩
  by_cases ho : t.opens = true
  · exact ⟨ignored, le_rfl, by simpa only [Began, ho, if_true] using h.opened hl hn ho⟩
  · simpa only [Began, if_neg ho] using h.passed hl hn (by simpa using ho)

theorem Began.skipContainer {last : Token} (hl : 0 < l.maxDepth)
    (h : Began l s₀ depth ignored t r.source) (ho : t.opens = true)
    (hs : r.skipContainer t last = (none, r')) :
    ∃ j ≥ ignored, Standing l s₀ depth j r'.source := by
  simp only [Reader.skipContainer, Source.skipValue, ho, if_true] at hs
  simp only [Began, ho, if_true] at h
  split at hs
  · simp at hs
  · rename_i source hskip
    obtain ⟨-, rfl⟩ := Prod.mk.inj hs
    exact Standing.skipLoop hl _ 1 h hskip

/-- Skipping the rest of a value leaves the containers around it open. -/
theorem Began.skipValue (hl : 0 < l.maxDepth) (hc : r.current = some t)
    (h : Began l s₀ depth ignored t r.source) (hs : r.skipValue = (none, r')) :
    ∃ j ≥ ignored, Standing l s₀ depth j r'.source := by
  cases t with
  | beginObject | beginArray =>
    simp only [Reader.skipValue, hc] at hs
    exact h.skipContainer hl rfl hs
  | _ =>
    simp only [Reader.skipValue, hc, Prod.mk.injEq, true_and] at hs
    exact ⟨ignored, le_rfl, hs ▸ h⟩

/-- Skipping a member leaves the object around it open, also where its value is a closing bracket,
which is passed over. -/
theorem Standing.skip_key {name : Text} (hl : 0 < l.maxDepth) (hc : r.current = some (.key name))
    (h : Standing l s₀ depth ignored r.source) (hs : r.skip = (none, r')) :
    ∃ j ≥ ignored, Standing l s₀ depth j r'.source := by
  simp only [Reader.skip, hc] at hs
  split at hs
  · simp at hs
  · rename_i t r₁ hn
    obtain ⟨hc, j, hj, h⟩ := h.began hl hn
    obtain ⟨k, hk, h⟩ := h.skipValue hl hc hs
    exact ⟨k, hj.trans hk, h⟩

theorem Began.skip (hl : 0 < l.maxDepth) (hc : r.current = some t)
    (h : Began l s₀ depth ignored t r.source) (hs : r.skip = (none, r')) :
    ∃ j ≥ ignored, Standing l s₀ depth j r'.source := by
  cases t with
  | key name => exact Standing.skip_key hl hc h hs
  | _ =>
    refine h.skipValue hl hc ?_
    rw [← hs, Reader.skip, hc]

end Skip

/-! ## Values -/

namespace Value

mutual

/-- How many containers stand in one another in a value. -/
def nesting : Value → Nat
  | .array items => itemNesting items + 1
  | .object fields extra => max (entryNesting fields) (entryNesting extra) + 1
  | _ => 0

/-- The same of a value that may be absent. -/
def optionNesting : Option Value → Nat
  | none => 0
  | some v => nesting v

def itemNesting : List (Option Value) → Nat
  | [] => 0
  | v :: rest => max (optionNesting v) (itemNesting rest)

def entryNesting : List (Text × Option Value) → Nat
  | [] => 0
  | (_, v) :: rest => max (optionNesting v) (entryNesting rest)

end

theorem itemNesting_le {items : List (Option Value)} {b : Nat} :
    itemNesting items ≤ b ↔ ∀ v, some v ∈ items → nesting v ≤ b := by
  induction items with
  | nil => simp [itemNesting]
  | cons x items ih => cases x <;> simp [itemNesting, optionNesting, ih]

theorem entryNesting_le {entries : List (Text × Option Value)} {b : Nat} :
    entryNesting entries ≤ b ↔ ∀ key v, (key, some v) ∈ entries → nesting v ≤ b := by
  induction entries with
  | nil => simp [entryNesting]
  | cons e entries ih =>
    obtain ⟨key, _ | x⟩ := e
    · simp [entryNesting, optionNesting, ih]
    · simp only [entryNesting, optionNesting, Nat.max_le, ih, List.mem_cons]
      constructor
      · rintro ⟨hx, hrest⟩ name v (he | hv)
        · obtain rfl : v = x := by simpa using (Prod.mk.inj he).2
          exact hx
        · exact hrest name v hv
      · exact fun h => ⟨h key x (.inl rfl), fun name v hv => h name v (.inr hv)⟩

end Value

namespace Codec

namespace Target

/-- No value of the object has more than `b` containers in one another. -/
def Within (t : Target) (b : Int) : Prop :=
  ∀ key v, (key, some v) ∈ t.fields ∨ (key, some v) ∈ t.extra.entries → (v.nesting : Int) ≤ b

theorem within_empty (o : Object) (b : Int) : (empty o).Within b := by
  rintro key v (h | h)
  · simp [empty] at h
  · simp [empty] at h

theorem Within.mono {t : Target} {b c : Int} (h : t.Within b) (hbc : b ≤ c) : t.Within c :=
  fun key v hv => (h key v hv).trans hbc

theorem Within.set {t : Target} {b : Int} (h : t.Within b) (key : Text) {x : Option Value}
    (hx : ∀ v, x = some v → (v.nesting : Int) ≤ b) : (t.set key x).Within b := by
  rintro name v (hv | hv)
  · simp only [Target.set, List.mem_map] at hv
    obtain ⟨f, hf, he⟩ := hv
    split at he
    · exact hx v (Prod.mk.inj he).2
    · exact h name v (.inl (he ▸ hf))
  · exact h name v (.inr hv)

theorem mem_setEntry {α : Type} {name : Text} {x : α} {entries : List (Text × α)} {e : Text × α}
    (h : e ∈ Dict.setEntry name x entries) : e = (name, x) ∨ e ∈ entries := by
  induction entries with
  | nil => simpa [Dict.setEntry] using h
  | cons e' entries ih =>
    simp only [Dict.setEntry] at h
    split at h <;> grind

theorem Within.insert {t : Target} {b : Int} (h : t.Within b) (key : Text) {x : Value}
    (hx : (x.nesting : Int) ≤ b) : (t.insert key x).Within b := by
  rintro name v (hv | hv)
  · exact h name v (.inl hv)
  · rcases mem_setEntry hv with he | he
    · obtain rfl : v = x := by simpa using (Prod.mk.inj he).2
      exact hx
    · exact h name v (.inr he)

theorem Within.value {t : Target} {b : Int} (h : t.Within b) (hb : 0 ≤ b) :
    (t.value.nesting : Int) ≤ b + 1 := by
  have hf : Value.entryNesting t.fields ≤ b.toNat :=
    Value.entryNesting_le.mpr fun key v hv => by have := h key v (.inl hv); omega
  have he : Value.entryNesting t.extra.entries ≤ b.toNat :=
    Value.entryNesting_le.mpr fun key v hv => by have := h key v (.inr hv); omega
  simp only [Target.value, Value.nesting]
  omega

end Target

/-! ## The decoder -/

section Decoder

variable (m : Model) (l : Limits) (s₀ : Source) (fuel : Nat)

/-- A value that was read is no deeper than the limit and the ignored brackets allow. -/
def BoundsValue : Prop :=
  ∀ {label : Text} {type : ElemType} {t : Token} {depth i : Nat} {r r' : Reader} {v : Value},
    Began l s₀ depth i t r.source → decodeValue m label type t fuel r = (.value v, r') →
    ∃ j ≥ i, Standing l s₀ depth j r'.source ∧ depth + (v.nesting : Int) ≤ l.maxDepth + j

/-- The same of the elements of an array. -/
def BoundsItems : Prop :=
  ∀ {label : Text} {type : ElemType} {seen items : List (Option Value)} {depth i : Nat}
    {r r' : Reader}, Standing l s₀ (depth + 1) i r.source →
    (∀ v, some v ∈ seen → depth + 1 + (v.nesting : Int) ≤ l.maxDepth + i) →
    decodeItems m label type seen fuel r = (none, items, r') →
    ∃ j ≥ i, Standing l s₀ depth j r'.source ∧
      ∀ v, some v ∈ items → depth + 1 + (v.nesting : Int) ≤ l.maxDepth + j

/-- The same of an object after one more member. -/
def BoundsMember : Prop :=
  ∀ {o : Object} {name : Text} {depth i : Nat} {r r' : Reader} {target : Target}
    {result : Option Target}, Standing l s₀ depth i r.source → r.current = some (.key name) →
    target.Within (l.maxDepth + i - depth) →
    decodeMember m o name fuel (some target) r = ⟨none, result, r'⟩ →
    ∃ target' j, result = some target' ∧ i ≤ j ∧ Standing l s₀ depth j r'.source ∧
      target'.Within (l.maxDepth + j - depth)

/-- The same of an object after all its members. -/
def BoundsMembers : Prop :=
  ∀ {o : Object} {depth i : Nat} {r r' : Reader} {target : Target} {result : Option Target},
    Standing l s₀ (depth + 1) i r.source → target.Within (l.maxDepth + i - (depth + 1 : Nat)) →
    decodeMembers m o fuel (some target) r = ⟨none, result, r'⟩ →
    ∃ target' j, result = some target' ∧ i ≤ j ∧ Standing l s₀ depth j r'.source ∧
      target'.Within (l.maxDepth + j - (depth + 1 : Nat))

end Decoder

theorem numeral_value {α : Type} {label : Text} {wrap : α → Value} {e : Except Failure α} {v : Value}
    (h : numeral label wrap e = .value v) : ∃ x, v = wrap x := by
  cases e with
  | ok x => exact ⟨x, (Got.value.inj h).symm⟩
  | error f => simp [numeral] at h

theorem readScalar_value {label : Text} {sc : Scalar} {t : Token} {v : Value}
    (h : readScalar label sc t = .value v) : t.opens = false ∧ v.nesting = 0 := by
  unfold readScalar at h
  split at h
  case h_8 => simp at h
  case h_1 | h_2 => exact ⟨rfl, by rw [← Got.value.inj h]; rfl⟩
  all_goals
    obtain ⟨x, rfl⟩ := numeral_value h
    exact ⟨rfl, rfl⟩

/-- A value of the wrong kind is left where it begins. -/
theorem decodeValue_refused {m : Model} {label : Text} {type : ElemType} {t : Token} {fuel : Nat}
    {r r' : Reader} (h : decodeValue m label type t fuel r = (.refused, r')) : r' = r := by
  cases fuel with
  | zero => simp [decodeValue] at h
  | succ fuel =>
    cases type with
    | scalar sc => exact (Prod.mk.inj h).2.symm
    | object id =>
      simp only [decodeValue] at h
      split at h
      · split at h
        · simp at h
        · split at h <;> simp at h
      · exact (Prod.mk.inj h).2.symm

section Steps

variable {m : Model} {l : Limits} {s₀ : Source} {fuel : Nat}

theorem boundsValue_succ (hm : BoundsMembers m l s₀ fuel) : BoundsValue m l s₀ (fuel + 1) := by
  intro label type t depth i r r' v hb h
  cases type with
  | scalar sc =>
    obtain ⟨hv, rfl⟩ := Prod.mk.inj h
    obtain ⟨ho, hz⟩ := readScalar_value hv
    simp only [Began, ho, Bool.false_eq_true, if_false] at hb
    exact ⟨i, le_rfl, hb, by simpa [hz] using hb.depth_le⟩
  | object id =>
    simp only [decodeValue] at h
    split at h
    · rename_i o ho
      have hb : Standing l s₀ (depth + 1) i r.source := hb
      have hd := hb.depth_le
      split at h
      · simp at h
      · rename_i result r₁ hmembers
        obtain ⟨target, j, rfl, hj, hs, hw⟩ := hm hb (Target.within_empty o _) hmembers
        obtain ⟨hv, rfl⟩ := Prod.mk.inj h
        obtain rfl := Got.value.inj hv
        have := hw.value (by push_cast at hd ⊢; omega)
        refine ⟨j, hj, hs, ?_⟩
        push_cast at this ⊢
        omega
    · simp at h

theorem boundsItems_succ (hl : 0 < l.maxDepth) (hv : BoundsValue m l s₀ fuel)
    (hi : BoundsItems m l s₀ fuel) : BoundsItems m l s₀ (fuel + 1) := by
  intro label type seen items depth i r r' hs hseen h
  simp only [decodeItems] at h
  split at h
  · simp at h
  · rename_i r₁ hn
    obtain ⟨offset, hn, -⟩ := Reader.source_of_next hn
    simp only [Prod.mk.injEq, true_and] at h
    obtain ⟨rfl, rfl⟩ := h
    exact ⟨i, le_rfl, hs.closed hl hn rfl rfl, by simpa using hseen⟩
  · rename_i r₁ hn
    obtain ⟨-, j, hj, hb⟩ := hs.began hl hn
    split at h
    · obtain ⟨k, hk, hs, hw⟩ := hi hb (fun v hv => by
        have := hseen v (by simpa using hv)
        omega) h
      exact ⟨k, hj.trans hk, hs, hw⟩
    · simp at h
  · rename_i t r₁ hend hnull hn
    obtain ⟨hc, j, hj, hb⟩ := hs.began hl hn
    split at h
    · rename_i v r₂ hval
      obtain ⟨k, hk, hs, hw⟩ := hv hb hval
      obtain ⟨n, hn, hs, hitems⟩ := hi hs (fun x hx => by
        rcases List.mem_cons.mp hx with hx | hx
        · obtain rfl := Option.some.inj hx
          simpa using hw
        · have := hseen x hx
          omega) h
      exact ⟨n, (hj.trans hk).trans hn, hs, hitems⟩
    · simp at h
    · rename_i r₂ href
      obtain rfl := decodeValue_refused href
      split at h
      · simp at h
      · rename_i r₂ hskip
        obtain ⟨k, hk, hs⟩ := hb.skip hl hc hskip
        obtain ⟨n, hn, hs, hitems⟩ := hi hs (fun x hx => by
          have := hseen x hx
          omega) h
        exact ⟨n, (hj.trans hk).trans hn, hs, hitems⟩

theorem BoundsValue.put {label : Text} {type : ElemType} {t : Token} {depth i : Nat} {r r' : Reader}
    {target : Target} {result : Option Target} (put : Target → Value → Target)
    (hput : ∀ {b : Int} {v : Value}, target.Within b → (v.nesting : Int) ≤ b → (put target v).Within b)
    (hv : BoundsValue m l s₀ fuel) (hb : Began l s₀ depth i t r.source)
    (hw : target.Within (l.maxDepth + i - depth))
    (h : (match decodeValue m label type t fuel r with
      | (.value v, r) => store (some target) r (put · v)
      | (.refused, r) => ⟨some (.unexpectedToken label t.kind), some target, r⟩
      | (.failed e, r) => ⟨some e, some target, r⟩) = (⟨none, result, r'⟩ : Outcome)) :
    ∃ target' j, result = some target' ∧ i ≤ j ∧ Standing l s₀ depth j r'.source ∧
      target'.Within (l.maxDepth + j - depth) := by
  split at h
  · rename_i v r₁ hval
    obtain ⟨j, hj, hs, hn⟩ := hv hb hval
    simp only [store, Outcome.mk.injEq, true_and] at h
    obtain ⟨rfl, rfl⟩ := h
    exact ⟨_, j, rfl, hj, hs, hput (hw.mono (by omega)) (by omega)⟩
  · simp at h
  · simp at h

theorem BoundsItems.put {label key : Text} {elem : ElemType} {depth i : Nat} {r r' : Reader}
    {target : Target} {result : Option Target} (hi : BoundsItems m l s₀ fuel)
    (hb : Standing l s₀ (depth + 1) i r.source) (hw : target.Within (l.maxDepth + i - depth))
    (h : (match decodeItems m label elem [] fuel r with
      | (none, items, r) => store (some target) r (·.set key (some (.array items)))
      | (some e, items, r) => ⟨some e, (some target).map (overwrite · key items), r⟩) =
      (⟨none, result, r'⟩ : Outcome)) :
    ∃ target' j, result = some target' ∧ i ≤ j ∧ Standing l s₀ depth j r'.source ∧
      target'.Within (l.maxDepth + j - depth) := by
  have hd := hb.depth_le
  split at h
  · rename_i items r₁ hitems
    obtain ⟨j, hj, hs, hb⟩ := hi hb (by simp) hitems
    simp only [store, Outcome.mk.injEq, true_and] at h
    obtain ⟨rfl, rfl⟩ := h
    have hn : Value.itemNesting items ≤ (l.maxDepth + j - depth - 1).toNat :=
      Value.itemNesting_le.mpr fun v hv => by have := hb v hv; omega
    refine ⟨_, j, rfl, hj, hs, (hw.mono (by omega)).set key fun v hv => ?_⟩
    obtain rfl := Option.some.inj hv
    simp only [Value.nesting]
    omega
  · simp at h

theorem boundsMember_succ (hl : 0 < l.maxDepth) (hv : BoundsValue m l s₀ fuel)
    (hi : BoundsItems m l s₀ fuel) : BoundsMember m l s₀ (fuel + 1) := by
  intro o name depth i r r' target result hs hc hw h
  simp only [decodeMember] at h
  split at h
  · rename_i f hf
    split at h
    · simp at h
    · rename_i r₁ hn
      obtain ⟨-, j, hj, hb⟩ := hs.began hl hn
      simp only [store, Outcome.mk.injEq, true_and] at h
      obtain ⟨rfl, rfl⟩ := h
      exact ⟨_, j, rfl, hj, hb, (hw.mono (by omega)).set f.key nofun⟩
    · rename_i t r₁ hnull hn
      obtain ⟨-, j, hj, hb⟩ := hs.began hl hn
      have hw := hw.mono (show l.maxDepth + i - depth ≤ l.maxDepth + j - depth by omega)
      split at h
      · obtain ⟨target', k, hr, hk, hs, hw⟩ := hv.put (fun target v => target.set f.key (some v))
          (fun hw hv => hw.set f.key (by simpa using hv)) hb hw h
        exact ⟨target', k, hr, hj.trans hk, hs, hw⟩
      · rename_i elem codec hft
        split at h
        · simp at h
        · rename_i hbegin
          obtain rfl : t = .beginArray := by simpa using hbegin
          simp only [Option.isNone_some, Bool.false_eq_true, if_false] at h
          obtain ⟨target', k, hr, hk, hs, hw⟩ := hi.put hb hw h
          exact ⟨target', k, hr, hj.trans hk, hs, hw⟩
  · split at h
    · rcases hskip : r.skip with ⟨e, r₁⟩
      simp only [hskip, Outcome.mk.injEq] at h
      obtain ⟨rfl, rfl, rfl⟩ := h
      obtain ⟨j, hj, hs⟩ := hs.skip_key hl hc hskip
      exact ⟨target, j, rfl, hj, hs, hw.mono (by omega)⟩
    · rename_i w hwild
      split at h
      · simp at h
      · rename_i r₁ hn
        obtain ⟨-, j, hj, hb⟩ := hs.began hl hn
        simp only [Outcome.mk.injEq, true_and] at h
        obtain ⟨rfl, rfl⟩ := h
        exact ⟨_, j, rfl, hj, hb, hw.mono (by omega)⟩
      · rename_i t r₁ hnull hn
        obtain ⟨-, j, hj, hb⟩ := hs.began hl hn
        have hw := hw.mono (show l.maxDepth + i - depth ≤ l.maxDepth + j - depth by omega)
        obtain ⟨target', k, hr, hk, hs, hw⟩ := hv.put (fun target v => target.insert name v)
          (fun hw hv => hw.insert name hv) hb hw h
        exact ⟨target', k, hr, hj.trans hk, hs, hw⟩

theorem boundsMembers_succ (hl : 0 < l.maxDepth) (ht : BoundsMember m l s₀ fuel)
    (hm : BoundsMembers m l s₀ fuel) : BoundsMembers m l s₀ (fuel + 1) := by
  intro o depth i r r' target result hs hw h
  simp only [decodeMembers] at h
  split at h
  · simp at h
  · rename_i r₁ hn
    obtain ⟨offset, hn, -⟩ := Reader.source_of_next hn
    simp only [Outcome.mk.injEq, true_and] at h
    obtain ⟨rfl, rfl⟩ := h
    exact ⟨target, i, rfl, le_rfl, hs.closed hl hn rfl rfl, hw⟩
  · rename_i name r₁ hn
    obtain ⟨hc, j, hj, hb⟩ := hs.began hl hn
    have hb : Standing l s₀ (depth + 1) j r₁.source := hb
    split at h
    · rename_i result₁ r₂ hmember
      obtain ⟨target₁, k, rfl, hk, hs, hw⟩ := ht hb hc (hw.mono (by omega)) hmember
      obtain ⟨target', n, hr, hn, hs, hw⟩ := hm hs hw h
      exact ⟨target', n, hr, (hj.trans hk).trans hn, hs, hw⟩
    · rename_i stopped hstop
      exact absurd h (hstop _ _)
  · rename_i t r₁ hend hkey hn
    obtain ⟨hc, j, hj, hb⟩ := hs.began hl hn
    split at h
    · simp at h
    · rename_i r₂ hskip
      obtain ⟨k, hk, hs⟩ := hb.skip hl hc hskip
      obtain ⟨target', n, hr, hn, hs, hw⟩ := hm hs (hw.mono (by omega)) h
      exact ⟨target', n, hr, (hj.trans hk).trans hn, hs, hw⟩

/-- Whatever a decoder reads, it builds no deeper than the limit and the ignored brackets allow. -/
theorem bounds (hl : 0 < l.maxDepth) : ∀ fuel, BoundsMembers m l s₀ fuel ∧ BoundsMember m l s₀ fuel ∧
    BoundsValue m l s₀ fuel ∧ BoundsItems m l s₀ fuel := by
  intro fuel
  induction fuel with
  | zero =>
    refine ⟨?_, ?_, ?_, ?_⟩
    · intro o depth i r r' target result hs hw h
      simp [decodeMembers] at h
    · intro o name depth i r r' target result hs hc hw h
      simp [decodeMember] at h
    · intro label type t depth i r r' v hb h
      simp [decodeValue] at h
    · intro label type seen items depth i r r' hs hseen h
      simp [decodeItems] at h
  | succ fuel ih =>
    obtain ⟨hm, ht, hv, hi⟩ := ih
    exact ⟨boundsMembers_succ hl ht hm, boundsMember_succ hl hv hi, boundsValue_succ hm,
      boundsItems_succ hl hv hi⟩

end Steps

theorem enforce_of_maxDepth {l : Limits} (hl : 0 < l.maxDepth) (t : Text) :
    Reader.enforce l { source := .lenient { rest := t } } =
      { source := .limited l [] (.lenient { rest := t }) } := by
  have he : l.enabled = true := by simp [Limits.enabled, hl]
  simp [Reader.enforce, he, Source.withLimits, Reader.kind]

/-- **The limit on depth, exactly.** A value decoded from a text under a limit on depth is no deeper
than the limit and the surplus of closing brackets among the tokens taken; so it keeps the limit if
every closing bracket that was taken had an open container to close. -/
theorem nesting_le_of_unmarshal {m : Model} {o : Object} {l : Limits} {t : Text} {target : Target}
    {r : Reader} (hl : 0 < l.maxDepth)
    (h : unmarshal m o l t (some (Target.empty o)) = ⟨none, some target, r⟩) :
    ∃ taken frames s, r.source = .limited l frames s ∧
      (Source.lenient { rest := t }).Emits taken s ∧
      (target.value.nesting : Int) ≤ l.maxDepth + surplus taken := by
  rw [unmarshal, enforce_of_maxDepth hl] at h
  have hstart : Standing l (.lenient { rest := t }) 0 0 (.limited l [] (.lenient { rest := t })) :=
    .start hl
  suffices hb : ∃ j, Standing l (.lenient { rest := t }) 0 j r.source ∧
      (target.value.nesting : Int) ≤ l.maxDepth + j by
    obtain ⟨j, ⟨taken, frames, s, hs, he, -, -, hbal⟩, hn⟩ := hb
    exact ⟨taken, frames, s, hs, he, by omega⟩
  simp only [decode] at h
  split at h
  · simp at h
  · rename_i r₁ hn
    obtain ⟨-, j, -, hb⟩ := hstart.began hl hn
    simp only [Outcome.mk.injEq, Option.some.injEq, true_and] at h
    obtain ⟨rfl, rfl⟩ := h
    have := (Target.within_empty o 0).value le_rfl
    exact ⟨j, hb, by omega⟩
  · rename_i r₁ hn
    obtain ⟨-, j, -, hb⟩ := hstart.began hl hn
    have hb : Standing l (.lenient { rest := t }) 1 j r₁.source := hb
    have hd := hb.depth_le
    obtain ⟨target', k, hr, hk, hs, hw⟩ := (bounds hl _).1 hb (Target.within_empty o _) h
    obtain rfl := Option.some.inj hr
    have := hw.value (by push_cast at hd ⊢; omega)
    exact ⟨k, hs, by push_cast at this ⊢; omega⟩
  · simp at h

/-- An object type whose only field is of the same type. -/
def chain : Model :=
  { package := "p", serializer := "S", access := .anyone, arrays := [], aggregates := []
    objects := [{ id := 0, name := "Leaf", isInterface := false,
                  fields := [⟨"next", "next", .single (.object 0), 0⟩] }] }

def link : Object := chain.objects.head (by decide)

/-- What `deepText` is decoded to: three objects in one another. -/
def threeLinks : Target :=
  ⟨[("next", some (.object [("next", some (.object [("next", none)] []))] []))], {}⟩

/-- In the second object stands a `]`, and after it the third object. -/
def deepText : Text := "\x7b\"next\":\x7b]\"next\":\x7b\x7d\x7d\x7d"

theorem unmarshal_deepText :
    unmarshal chain link ⟨2, false⟩ deepText (some (Target.empty link)) =
      ⟨none, some threeLinks, ⟨.limited ⟨2, false⟩ [] (.lenient ⟨[], false, []⟩),
        some .endObject, false⟩⟩ := by
  decide +kernel

/-- Under a limit of two, a `]` in the second object lets a third one into it. -/
theorem unmarshal_exceeds_maxDepth :
    ∃ target r, unmarshal chain link ⟨2, false⟩ deepText (some (Target.empty link)) =
      ⟨none, some target, r⟩ ∧ ¬target.value.nesting ≤ 2 :=
  ⟨threeLinks, _, unmarshal_deepText, by decide⟩

/-- The same text has one closing bracket too many, which is what the limit is exceeded by. -/
theorem nesting_deepText :
    ∃ taken frames s, Source.limited ⟨2, false⟩ [] (.lenient ⟨[], false, []⟩) =
        .limited ⟨2, false⟩ frames s ∧
      (Source.lenient { rest := deepText }).Emits taken s ∧
      (threeLinks.value.nesting : Int) ≤ 2 + surplus taken :=
  nesting_le_of_unmarshal (by decide) unmarshal_deepText

end Codec

end WireSchema
