import Mathlib.Tactic.IntervalCases
import WireSchema.Proofs.Lists
import WireSchema.Proofs.Token.Answers
import WireSchema.Proofs.Token.Pointers

/-!
# Where refused tokens stand

A token that breaks a limit is refused with a path. `Reaches` says on the value alone which steps, to
an element of an array or to a member of an object, lead to a value inside it, and the path names these
steps: the frames of the check carry the pointer along. A source can be asked again after a refusal,
and then one kind of step is lost: the key of a repeated member is refused and not kept, so that inside
such a member the paths are those of the object around it.
-/

namespace WireSchema

open Json (Tree)

namespace Enforce

/-! ## Places in a value -/

inductive Step where
  /-- To the element of an array that has the index. -/
  | index (i : Nat)
  /-- To a member of an object that has the name; an earlier member may have it too. -/
  | member (name : Text) (again : Bool)
  deriving DecidableEq, Repr

namespace Step

def name : Step → Text
  | .index i => Text.ofNat i
  | .member name _ => name

def isRefused (l : Limits) : Step → Bool
  | .index _ => false
  | .member _ again => l.rejectDuplicates && again

end Step

/-- No step of the way goes to a member whose key is refused. -/
def Passable (l : Limits) (way : List Step) : Prop := ∀ step ∈ way, step.isRefused l = false

/-- The way leads from a value to one inside it, which comes after the tokens. -/
inductive Reaches : Tree → List Step → List Token → Tree → Prop
  | here (t : Tree) : Reaches t [] [] t
  | item {t v : Tree} {way : List Step} {ts : List Token} (before after : List Tree) :
      Reaches t way ts v →
      Reaches (.array (before ++ t :: after)) (.index before.length :: way)
        (.beginArray :: (Tree.itemTokens before ++ ts)) v
  | member {t v : Tree} {way : List Step} {ts : List Token} (before after : List (Text × Tree))
      (name : Text) : Reaches t way ts v →
      Reaches (.object (before ++ (name, t) :: after))
        (.member name (decide (name ∈ before.map (·.1))) :: way)
        (.beginObject :: (Tree.memberTokens before ++ .key name :: ts)) v

/-- Why a token of the value is refused, and where the token stands: after the tokens, it opens the
container to which the way leads, or it is a repeated key in the object to which the way leads. The
place is that of the container or of the member, as the names and indices that lead to it. -/
inductive RefusedAt (t : Tree) : List Step → List Text → List Token → Failure → Text → Prop
  | tooDeep {way : List Step} {ts : List Token} {v : Tree} (path : Text) : Reaches t way ts v →
      v.head.opens = true →
      RefusedAt t way (way.map Step.name) ts (.maxDepth (some path)) path
  | repeated {way : List Step} {ts : List Token} {before after : List (Text × Tree)} {name : Text}
      {v : Tree} (path : Text) : Reaches t way ts (.object (before ++ (name, v) :: after)) →
      name ∈ before.map (·.1) →
      RefusedAt t way (way.map Step.name ++ [name])
        (ts ++ .beginObject :: Tree.memberTokens before) (.duplicateKey name path) path

theorem itemTokens_append (before after : List Tree) :
    Tree.itemTokens (before ++ after) = Tree.itemTokens before ++ Tree.itemTokens after := by
  induction before with
  | nil => rfl
  | cons t before ih => simp [Tree.itemTokens, ih]

theorem memberTokens_append (before after : List (Text × Tree)) :
    Tree.memberTokens (before ++ after) = Tree.memberTokens before ++ Tree.memberTokens after := by
  induction before with
  | nil => rfl
  | cons m before ih => simp [Tree.memberTokens, ih]

theorem itemTokens_middle (before after : List Tree) (t : Tree) :
    Tree.itemTokens (before ++ t :: after) =
      Tree.itemTokens before ++ (t.tokens ++ Tree.itemTokens after) :=
  itemTokens_append before (t :: after)

theorem memberTokens_middle (before after : List (Text × Tree)) (name : Text) (t : Tree) :
    Tree.memberTokens (before ++ (name, t) :: after) =
      Tree.memberTokens before ++ .key name :: (t.tokens ++ Tree.memberTokens after) :=
  memberTokens_append before ((name, t) :: after)

theorem Reaches.tokens_eq {t v : Tree} {way : List Step} {ts : List Token} (h : Reaches t way ts v) :
    ∃ more, t.tokens = ts ++ (v.tokens ++ more) := by
  induction h with
  | here t => exact ⟨[], by simp⟩
  | item before after _ ih =>
    obtain ⟨more, hmore⟩ := ih
    refine ⟨more ++ (Tree.itemTokens after ++ [.endArray]), ?_⟩
    rw [Tree.tokens, Tree.head, Tree.tail, itemTokens_middle, hmore]
    simp
  | member before after name _ ih =>
    obtain ⟨more, hmore⟩ := ih
    refine ⟨more ++ (Tree.memberTokens after ++ [.endObject]), ?_⟩
    rw [Tree.tokens, Tree.head, Tree.tail, memberTokens_middle, hmore]
    simp

/-! ## The frames of the check -/

def framesAfter (l : Limits) (frames : List Frame) (ts : List Token) : List Frame :=
  ts.foldl (fun frames t => (step l frames t).1) frames

@[simp]
theorem framesAfter_nil (l : Limits) (frames : List Frame) : framesAfter l frames [] = frames := rfl

@[simp]
theorem framesAfter_cons (l : Limits) (frames : List Frame) (t : Token) (ts : List Token) :
    framesAfter l frames (t :: ts) = framesAfter l (step l frames t).1 ts := rfl

@[simp]
theorem framesAfter_append (l : Limits) (frames : List Frame) (ts us : List Token) :
    framesAfter l frames (ts ++ us) = framesAfter l (framesAfter l frames ts) us :=
  List.foldl_append

theorem openFrame_fst (l : Limits) (frames : List Frame) (make : Pointer → Frame) :
    (openFrame l frames make).1 = make (valuePlace frames) :: valueBegun frames := by
  unfold openFrame
  dsimp only
  split <;> rfl

theorem step_beginArray (l : Limits) (frames : List Frame) :
    (step l frames .beginArray).1 = .array (valuePlace frames) 0 :: valueBegun frames :=
  openFrame_fst l frames _

theorem step_beginObject (l : Limits) (frames : List Frame) :
    (step l frames .beginObject).1 = .object (valuePlace frames) [] none :: valueBegun frames :=
  openFrame_fst l frames _

/-- A key is kept as the one whose value comes next, unless it is refused. -/
theorem step_key (l : Limits) (place : Pointer) (seen : List Text) (outer : List Frame)
    (name : Text) : ∃ seen', (step l (.object place seen none :: outer) (.key name)).1 =
      .object place seen' (if l.rejectDuplicates && seen.contains name then none else some name) ::
        outer ∧
      ∀ key, key ∈ seen' ↔ key ∈ seen ∨ key = name := by
  rw [step]
  split
  · rename_i hr
    simp only [Bool.and_eq_true, List.contains_iff_mem] at hr
    refine ⟨seen, rfl, fun key => ⟨.inl, ?_⟩⟩
    rintro (hkey | rfl)
    · exact hkey
    · exact hr.2
  · exact ⟨name :: seen, rfl, fun key => by rw [List.mem_cons, or_comm]⟩

mutual

theorem framesAfter_tree (l : Limits) : ∀ (t : Tree) (frames : List Frame),
    framesAfter l frames t.tokens = afterValue frames
  | .array items, frames => by
    rw [Tree.tokens, Tree.head, Tree.tail, framesAfter_cons, framesAfter_append,
      step_beginArray, framesAfter_items l items, iterate_afterValue_array]
    rfl
  | .object members, frames => by
    obtain ⟨seen, hmembers, -⟩ :=
      framesAfter_members l members (valuePlace frames) [] (valueBegun frames)
    rw [Tree.tokens, Tree.head, Tree.tail, framesAfter_cons, framesAfter_append,
      step_beginObject, hmembers]
    rfl
  | .null, _ | .bool _, _ | .number _, _ | .string _, _ => rfl

theorem framesAfter_items (l : Limits) : ∀ (items : List Tree) (frames : List Frame),
    framesAfter l frames (Tree.itemTokens items) = afterValue^[items.length] frames
  | [], _ => rfl
  | t :: items, frames => by
    have htree := framesAfter_tree l t frames
    rw [Tree.tokens] at htree
    rw [Tree.itemTokens, framesAfter_append, htree, framesAfter_items l items]
    rfl

theorem framesAfter_members (l : Limits) : ∀ (members : List (Text × Tree)) (place : Pointer)
    (seen : List Text) (outer : List Frame), ∃ seen',
      framesAfter l (.object place seen none :: outer) (Tree.memberTokens members) =
        .object place seen' none :: outer ∧
      ∀ key, key ∈ seen' ↔ key ∈ seen ∨ key ∈ members.map (·.1)
  | [], place, seen, outer => ⟨seen, rfl, fun key => by simp⟩
  | (name, t) :: members, place, seen, outer => by
    obtain ⟨seen₁, hkey, hseen₁⟩ := step_key l place seen outer name
    obtain ⟨seen₂, hmembers, hseen₂⟩ := framesAfter_members l members place seen₁ outer
    have htree := framesAfter_tree l t
    simp only [Tree.tokens] at htree
    refine ⟨seen₂, ?_, fun key => ?_⟩
    · rw [Tree.memberTokens, framesAfter_append, framesAfter_cons, hkey, htree]
      exact hmembers
    · rw [hseen₂, hseen₁, List.map_cons, List.mem_cons, or_assoc]

end

theorem framesAfter_beginObject (l : Limits) (members : List (Text × Tree)) (frames : List Frame) :
    ∃ seen, framesAfter l frames (.beginObject :: Tree.memberTokens members) =
        .object (valuePlace frames) seen none :: valueBegun frames ∧
      ∀ key, key ∈ seen ↔ key ∈ members.map (·.1) := by
  obtain ⟨seen, hmembers, hseen⟩ :=
    framesAfter_members l members (valuePlace frames) [] (valueBegun frames)
  refine ⟨seen, ?_, fun key => by simp [hseen]⟩
  rw [framesAfter_cons, step_beginObject, hmembers]

/-! ## The pointer along a way -/

/-- The pointer that the check has at the end of a way: the key of a member is not kept if it is
refused. -/
def pointerOf (l : Limits) (way : List Step) : Pointer :=
  ((way.filter fun step => !step.isRefused l).map Step.name).reverse

theorem pointerOf_cons (l : Limits) (step : Step) (way : List Step) : pointerOf l (step :: way) =
    pointerOf l way ++ if step.isRefused l then [] else [step.name] := by
  unfold pointerOf
  cases h : step.isRefused l <;> simp [h]

theorem Passable.pointerOf_eq {l : Limits} {way : List Step} (h : Passable l way) :
    pointerOf l way = (way.map Step.name).reverse := by
  unfold pointerOf
  rw [List.filter_eq_self.mpr fun step hstep => by rw [h step hstep]; rfl]

theorem Reaches.valuePlace_eq {t v : Tree} {way : List Step} {ts : List Token}
    (h : Reaches t way ts v) (l : Limits) (frames : List Frame) :
    valuePlace (framesAfter l frames ts) = pointerOf l way ++ valuePlace frames := by
  induction h generalizing frames with
  | here t => rfl
  | @item t v way ts before after _ ih =>
    rw [framesAfter_cons, framesAfter_append, step_beginArray, framesAfter_items,
      iterate_afterValue_array, ih, pointerOf_cons]
    simp [Step.isRefused, Step.name, valuePlace, Frame.valuePlace]
  | @member t v way ts before after name _ ih =>
    obtain ⟨seen, hbefore, hseen⟩ := framesAfter_beginObject l before frames
    obtain ⟨seen', hkey, -⟩ := step_key l (valuePlace frames) seen (valueBegun frames) name
    rw [← List.cons_append, framesAfter_append, hbefore, framesAfter_cons, hkey, ih, pointerOf_cons]
    have hrefused : (l.rejectDuplicates && seen.contains name) =
        (Step.member name (decide (name ∈ before.map (·.1)))).isRefused l := by
      rw [Step.isRefused, ← List.elem_eq_contains, List.elem_eq_mem]
      simp only [hseen]
    rw [hrefused]
    split <;> simp [Step.name, valuePlace, Frame.valuePlace]

def AllPass (l : Limits) (frames : List Frame) (ts : List Token) : Prop :=
  ∀ before t after, ts = before ++ t :: after → (step l (framesAfter l frames before) t).2 = none

theorem AllPass.of_append {l : Limits} {frames : List Frame} {ts us : List Token}
    (h : AllPass l frames (ts ++ us)) : AllPass l (framesAfter l frames ts) us := by
  intro before t after hus
  rw [← framesAfter_append]
  exact h (ts ++ before) t after (by rw [hus, List.append_assoc])

theorem AllPass.of_append_left {l : Limits} {frames : List Frame} {ts us : List Token}
    (h : AllPass l frames (ts ++ us)) : AllPass l frames ts := by
  intro before t after hts
  exact h before t (after ++ us) (by rw [hts, List.append_assoc, List.cons_append])

theorem AllPass.not_isRefused {l : Limits} {frames : List Frame} {ts : List Token}
    {before : List (Text × Tree)} {name : Text}
    (h : AllPass l (framesAfter l frames (.beginObject :: Tree.memberTokens before))
      (.key name :: ts)) :
    (Step.member name (decide (name ∈ before.map (·.1)))).isRefused l = false := by
  obtain ⟨seen, hbefore, hseen⟩ := framesAfter_beginObject l before frames
  have hkey := h [] (.key name) ts rfl
  rw [framesAfter_nil, hbefore, step, apply_ite Prod.snd] at hkey
  have hnot : ¬(l.rejectDuplicates && seen.contains name) = true := by
    intro hr
    rw [if_pos hr] at hkey
    cases hkey
  simpa [Step.isRefused, hseen] using hnot

/-- Where nothing is refused before the end of a way, the way is passable. -/
theorem Reaches.passable {t v : Tree} {way : List Step} {ts : List Token} (h : Reaches t way ts v)
    {l : Limits} {frames : List Frame} (hpass : AllPass l frames ts) : Passable l way := by
  induction h generalizing frames with
  | here t => exact fun step hstep => absurd hstep List.not_mem_nil
  | @item t v way ts before after _ ih =>
    have hitem : AllPass l frames ((.beginArray :: Tree.itemTokens before) ++ ts) := hpass
    exact List.forall_mem_cons.mpr ⟨rfl, ih hitem.of_append⟩
  | @member t v way ts before after name _ ih =>
    have hmember : AllPass l frames
        ((.beginObject :: Tree.memberTokens before) ++ .key name :: ts) := hpass
    have hkey := hmember.of_append
    have hvalue : AllPass l _ ([.key name] ++ ts) := hkey
    exact List.forall_mem_cons.mpr ⟨hkey.not_isRefused, ih hvalue.of_append⟩

/-! ## Refusals -/

theorem step_opens {l : Limits} {frames : List Frame} {t : Token} {f : Failure}
    (ho : t.opens = true) (h : (step l frames t).2 = some f) :
    f = .maxDepth (some (valuePlace frames).text) ∧ frames ≠ [] := by
  have hopen : ∀ make, (openFrame l frames make).2 = some f →
      f = .maxDepth (some (valuePlace frames).text) ∧ frames ≠ [] := by
    intro make hmake
    unfold openFrame at hmake
    dsimp only at hmake
    split at hmake
    · rename_i hdeep
      refine ⟨(Option.some.inj hmake).symm, ?_⟩
      rintro rfl
      simp [valueBegun] at hdeep
      omega
    · cases hmake
  cases t with
  | beginObject => exact hopen _ h
  | beginArray => exact hopen _ h
  | _ => cases ho

theorem step_key_refused {l : Limits} {place : Pointer} {seen : List Text} {outer : List Frame}
    {name : Text} {f : Failure} (h : (step l (.object place seen none :: outer) (.key name)).2 = some f) :
    f = .duplicateKey name (Pointer.text (name :: place)) ∧ name ∈ seen := by
  rw [step] at h
  split at h
  · rename_i hr
    simp only [Bool.and_eq_true, List.contains_iff_mem] at hr
    exact ⟨(Option.some.inj h).symm, hr.2⟩
  · cases h

/-- Only the beginning of a container and a key can be refused. -/
theorem step_plain {t : Token} (ho : t.opens = false) (hk : ∀ key, t ≠ .key key) (l : Limits)
    (frames : List Frame) : (step l frames t).2 = none := by
  cases t with
  | beginObject => cases ho
  | beginArray => cases ho
  | key name => exact absurd rfl (hk name)
  | _ => rfl

theorem step_not_enabled {l : Limits} (hl : l.enabled = false) (frames : List Frame) (t : Token) :
    (step l frames t).2 = none := by
  have hboth : ¬0 < l.maxDepth ∧ l.rejectDuplicates = false := by simpa [Limits.enabled] using hl
  have hopen : ∀ make, (openFrame l frames make).2 = none := fun make => by
    simp [openFrame, hboth.1]
  cases t with
  | beginObject => exact hopen _
  | beginArray => exact hopen _
  | key name =>
    simp only [step]
    split
    · simp [hboth.2]
    · rfl
  | _ => rfl

/-- The token after the tokens of a refusal is the one that is refused, and on a passable way the path
names its place. -/
theorem RefusedAt.names_eq {t : Tree} {way : List Step} {place : List Text} {ts : List Token}
    {f : Failure} {path : Text} (h : RefusedAt t way place ts f path) {l : Limits}
    (hway : Passable l way) : ∃ tok after, t.tokens = ts ++ tok :: after ∧
      ((step l (framesAfter l [] ts) tok).2 = some f → Pointer.names path = place) := by
  cases h with
  | @tooDeep ts v path hreach ho =>
    obtain ⟨more, hmore⟩ := hreach.tokens_eq
    refine ⟨v.head, v.tail ++ more, hmore, fun hf => ?_⟩
    obtain ⟨hpath, hopen⟩ := step_opens ho hf
    have hne : (way.map Step.name).reverse ≠ [] := by
      -- the container to which no step leads is the outermost one, and it is never too deep
      intro hnil
      obtain rfl : way = [] := by simpa using hnil
      cases hreach
      exact hopen rfl
    rw [hreach.valuePlace_eq, hway.pointerOf_eq, valuePlace, List.append_nil] at hpath
    obtain rfl : path = Pointer.text (way.map Step.name).reverse := by simpa using hpath
    rw [Pointer.names_text hne, List.reverse_reverse]
  | @repeated ts before after name v path hreach hname =>
    obtain ⟨more, hmore⟩ := hreach.tokens_eq
    obtain ⟨seen, hbefore, -⟩ := framesAfter_beginObject l before (framesAfter l [] ts)
    refine ⟨.key name, v.tokens ++ Tree.memberTokens after ++ [.endObject] ++ more, ?_, fun hf => ?_⟩
    · rw [hmore, Tree.tokens, Tree.head, Tree.tail, memberTokens_middle]
      simp
    · rw [framesAfter_append, hbefore] at hf
      obtain ⟨hpath, -⟩ := step_key_refused hf
      rw [hreach.valuePlace_eq, hway.pointerOf_eq, valuePlace, List.append_nil] at hpath
      obtain rfl : path = Pointer.text (name :: (way.map Step.name).reverse) := by simpa using hpath
      rw [Pointer.names_text (List.cons_ne_nil _ _), List.reverse_cons, List.reverse_reverse]

theorem RefusedAt.passable {t : Tree} {way : List Step} {place : List Text} {ts : List Token}
    {f : Failure} {path : Text} (h : RefusedAt t way place ts f path) {l : Limits}
    (hpass : AllPass l [] ts) : Passable l way := by
  cases h with
  | tooDeep _ hreach _ => exact hreach.passable hpass
  | repeated _ hreach _ => exact hreach.passable hpass.of_append_left

/-! ## Every token has its place -/

/-- What a token of a value is: the first one of a value inside it, the key of a member of an object
inside it, or the end of a container. -/
inductive Stands (t : Tree) : List Token → Token → Prop
  | value {way : List Step} {ts : List Token} {v : Tree} : Reaches t way ts v → Stands t ts v.head
  | key {way : List Step} {ts : List Token} {before after : List (Text × Tree)} {name : Text}
      {v : Tree} : Reaches t way ts (.object (before ++ (name, v) :: after)) →
      Stands t (ts ++ .beginObject :: Tree.memberTokens before) (.key name)
  | closing (ts : List Token) {tok : Token} : tok.closes = true → Stands t ts tok

theorem Stands.item {t : Tree} {ts : List Token} {tok : Token} (h : Stands t ts tok)
    (before after : List Tree) :
    Stands (.array (before ++ t :: after)) (.beginArray :: (Tree.itemTokens before ++ ts)) tok := by
  cases h with
  | value hreach => exact .value (hreach.item before after)
  | key hreach =>
    rw [← List.append_assoc, ← List.cons_append]
    exact .key (hreach.item before after)
  | closing _ hc => exact .closing _ hc

theorem Stands.member {t : Tree} {ts : List Token} {tok : Token} (h : Stands t ts tok)
    (before after : List (Text × Tree)) (name : Text) :
    Stands (.object (before ++ (name, t) :: after))
      (.beginObject :: (Tree.memberTokens before ++ .key name :: ts)) tok := by
  cases h with
  | value hreach => exact .value (hreach.member before after name)
  | key hreach => simpa using Stands.key (hreach.member before after name)
  | closing _ hc => exact .closing _ hc

theorem itemTokens_eq_append {items : List Tree} {ts us : List Token} {tok : Token}
    (h : Tree.itemTokens items = ts ++ tok :: us) :
    ∃ before t after vs ws, items = before ++ t :: after ∧ ts = Tree.itemTokens before ++ vs ∧
      t.tokens = vs ++ tok :: ws := by
  induction items generalizing ts with
  | nil => simp [Tree.itemTokens] at h
  | cons t items ih =>
    have hsplit : t.tokens ++ Tree.itemTokens items = ts ++ tok :: us := h
    rcases split_cons hsplit with ⟨ws, hws, -⟩ | ⟨vs, rfl, hvs⟩
    · exact ⟨[], t, items, ts, ws, rfl, rfl, hws⟩
    · obtain ⟨before, v, after, vs, ws, rfl, rfl, hv⟩ := ih hvs
      exact ⟨t :: before, v, after, vs, ws, rfl, by simp [Tree.itemTokens, Tree.tokens], hv⟩

theorem memberTokens_eq_append {members : List (Text × Tree)} {ts us : List Token} {tok : Token}
    (h : Tree.memberTokens members = ts ++ tok :: us) :
    ∃ before name t after, members = before ++ (name, t) :: after ∧
      (ts = Tree.memberTokens before ∧ tok = .key name ∨
        ∃ vs ws, ts = Tree.memberTokens before ++ .key name :: vs ∧ t.tokens = vs ++ tok :: ws) := by
  induction members generalizing ts with
  | nil => simp [Tree.memberTokens] at h
  | cons m members ih =>
    obtain ⟨name, t⟩ := m
    have hsplit : .key name :: t.tokens ++ Tree.memberTokens members = ts ++ tok :: us := h
    rcases split_cons hsplit with ⟨ws, hws, -⟩ | ⟨vs, rfl, hvs⟩
    · refine ⟨[], name, t, members, rfl, ?_⟩
      cases ts with
      | nil =>
        obtain ⟨rfl, -⟩ := List.cons.inj hws
        exact .inl ⟨rfl, rfl⟩
      | cons tok' ts =>
        obtain ⟨rfl, hvalue⟩ := List.cons.inj hws
        exact .inr ⟨ts, ws, rfl, hvalue⟩
    · obtain ⟨before, name', v, after, rfl, hv⟩ := ih hvs
      refine ⟨(name, t) :: before, name', v, after, rfl, ?_⟩
      rcases hv with ⟨rfl, rfl⟩ | ⟨vs, ws, rfl, hv⟩
      · exact .inl ⟨by simp [Tree.memberTokens, Tree.tokens], rfl⟩
      · exact .inr ⟨vs, ws, by simp [Tree.memberTokens, Tree.tokens], hv⟩

/-- The tokens before a token are fewer inside the value that holds it, so the induction is on their
number. -/
theorem stands_of_tokens {t : Tree} {ts us : List Token} {tok : Token}
    (h : t.tokens = ts ++ tok :: us) : Stands t ts tok := by
  induction hn : ts.length using Nat.strong_induction_on generalizing t ts us with
  | _ n ih =>
    cases ts with
    | nil =>
      obtain ⟨rfl, -⟩ := List.cons.inj h
      exact .value (.here t)
    | cons tok' ts =>
      obtain ⟨rfl, htail⟩ := List.cons.inj h
      rw [List.length_cons] at hn
      cases t with
      | array items =>
        rcases split_cons htail with ⟨ws, hitems, -⟩ | ⟨vs, -, hlast⟩
        · obtain ⟨before, v, after, vs, ws, rfl, rfl, hv⟩ := itemTokens_eq_append hitems
          rw [List.length_append] at hn
          exact (ih vs.length (by omega) hv rfl).item before after
        · rw [eq_of_singleton_eq_append hlast]
          exact .closing _ rfl
      | object members =>
        rcases split_cons htail with ⟨ws, hmembers, -⟩ | ⟨vs, -, hlast⟩
        · obtain ⟨before, name, v, after, rfl, ⟨rfl, rfl⟩ | ⟨vs, ws, rfl, hv⟩⟩ :=
            memberTokens_eq_append hmembers
          · exact .key (.here _)
          · rw [List.length_append, List.length_cons] at hn
            exact (ih vs.length (by omega) hv rfl).member before after name
        · rw [eq_of_singleton_eq_append hlast]
          exact .closing _ rfl
      | _ => simp [Tree.tail] at htail

theorem Stands.refusedAt {t : Tree} {ts : List Token} {tok : Token} (h : Stands t ts tok)
    {l : Limits} {f : Failure} (hf : (step l (framesAfter l [] ts) tok).2 = some f) :
    ∃ way place path, RefusedAt t way place ts f path := by
  cases h with
  | @value way ts v hreach =>
    cases ho : v.head.opens with
    | true =>
      obtain ⟨rfl, -⟩ := step_opens ho hf
      exact ⟨way, _, _, .tooDeep _ hreach ho⟩
    | false =>
      have hk : ∀ key, v.head ≠ .key key := by cases v <;> simp [Tree.head]
      rw [step_plain ho hk] at hf
      cases hf
  | @key way ts before after name v hreach =>
    obtain ⟨seen, hbefore, hseen⟩ := framesAfter_beginObject l before (framesAfter l [] ts)
    rw [framesAfter_append, hbefore] at hf
    obtain ⟨rfl, hname⟩ := step_key_refused hf
    exact ⟨way, _, _, .repeated _ hreach ((hseen name).mp hname)⟩
  | closing _ hc =>
    have ho : tok.opens = false := by cases tok <;> simp_all [Token.closes, Token.opens]
    have hk : ∀ key, tok ≠ .key key := by rintro key rfl; cases hc
    rw [step_plain ho hk] at hf
    cases hf

end Enforce

/-! ## Sources under limits -/

namespace Source

open Enforce

/-- Under limits a source that is asked again and again, also after refusals, refuses what the check
refuses. -/
theorem answer_limited {s s₁ : Source} {ts us : List Token} {t : Token}
    (h : s.Emits (ts ++ t :: us) s₁) (l : Limits) (frames : List Frame) :
    (Source.limited l frames s).answer ts.length =
      match (step l (framesAfter l frames ts) t).2 with
      | some f => .error f
      | none => .ok t := by
  induction ts generalizing s frames with
  | nil =>
    obtain ⟨offset, s₂, hn, -⟩ := Emits.cons_iff.mp h
    simp only [List.length_nil, answer, next, hn, framesAfter_nil]
    rcases step l frames t with ⟨frames', _ | f⟩ <;> rfl
  | cons u ts ih =>
    obtain ⟨offset, s₂, hn, hs⟩ := Emits.cons_iff.mp h
    rw [List.length_cons, framesAfter_cons, ← ih hs]
    simp only [answer, next, hn]
    rcases step l frames u with ⟨frames', _ | f⟩ <;> rfl

theorem answer_of_emits {s s₁ : Source} {ts us : List Token} {t : Token}
    (h : s.Emits (ts ++ t :: us) s₁) : s.answer ts.length = .ok t := by
  induction ts generalizing s with
  | nil =>
    obtain ⟨offset, s₂, hn, -⟩ := Emits.cons_iff.mp h
    exact answer_zero_of_ok hn
  | cons u ts ih =>
    obtain ⟨offset, s₂, hn, hs⟩ := Emits.cons_iff.mp h
    rw [List.length_cons, answer_succ_of_next hn, ih hs]

/-- After other values the check of a value begins afresh. -/
theorem answer_withLimits {above below : List Tree} {t : Tree} {s s₁ : Source} {ts us : List Token}
    {tok : Token} (h : s.Emits (Tree.itemTokens (above ++ t :: below)) s₁)
    (ht : t.tokens = ts ++ tok :: us) (l : Limits) :
    (s.withLimits l).answer ((Tree.itemTokens above).length + ts.length) =
      match (step l (framesAfter l [] ts) tok).2 with
      | some f => .error f
      | none => .ok tok := by
  have htokens : Tree.itemTokens (above ++ t :: below) =
      (Tree.itemTokens above ++ ts) ++ tok :: (us ++ Tree.itemTokens below) := by
    rw [itemTokens_middle, ht]
    simp
  have habove : framesAfter l [] (Tree.itemTokens above ++ ts) = framesAfter l [] ts := by
    rw [framesAfter_append, framesAfter_items]
    exact congrArg (framesAfter l · ts) (Function.iterate_fixed rfl above.length)
  rw [htokens] at h
  rw [← List.length_append, ← habove]
  cases hl : l.enabled with
  | true =>
    rw [withLimits, if_pos hl]
    exact answer_limited h l []
  | false =>
    rw [withLimits, hl, step_not_enabled hl]
    exact answer_of_emits h

theorem refused_of_answer {above below : List Tree} {t : Tree} {s s₁ : Source} {ts us : List Token}
    {tok : Token} {l : Limits} {f : Failure}
    (h : s.Emits (Tree.itemTokens (above ++ t :: below)) s₁) (ht : t.tokens = ts ++ tok :: us)
    (hf : (s.withLimits l).answer ((Tree.itemTokens above).length + ts.length) = .error f) :
    (step l (framesAfter l [] ts) tok).2 = some f := by
  rw [answer_withLimits h ht l] at hf
  split at hf
  · rename_i f' hf'
    rw [hf', Except.error.inj hf]
  · cases hf

theorem allPass_of_answers {above below : List Tree} {t : Tree} {s s₁ : Source} {ts us : List Token}
    {l : Limits} (h : s.Emits (Tree.itemTokens (above ++ t :: below)) s₁) (ht : t.tokens = ts ++ us)
    (hok : ∀ m < ts.length,
      ∃ tok, (s.withLimits l).answer ((Tree.itemTokens above).length + m) = .ok tok) :
    AllPass l [] ts := by
  intro before tok after hts
  obtain ⟨tok', hanswer⟩ := hok before.length (by simp [hts])
  rw [answer_withLimits h (by rw [ht, hts, List.append_assoc, List.cons_append]) l] at hanswer
  split at hanswer
  · cases hanswer
  · assumption

/-- After `n` tokens of other values, the source refuses a token of the value and names a path. -/
def Refuses (s : Source) (n : Nat) (t : Tree) (way : List Step) (place : List Text) (path : Text) :
    Prop :=
  ∃ ts f, s.answer (n + ts.length) = .error f ∧ RefusedAt t way place ts f path

theorem Refuses.names_eq {above below : List Tree} {t : Tree} {s s₁ : Source} {l : Limits}
    {way : List Step} {place : List Text} {path : Text}
    (h : (s.withLimits l).Refuses (Tree.itemTokens above).length t way place path)
    (hs : s.Emits (Tree.itemTokens (above ++ t :: below)) s₁) (hway : Passable l way) :
    Pointer.names path = place := by
  obtain ⟨ts, f, hf, hrefused⟩ := h
  obtain ⟨tok, us, ht, hnames⟩ := hrefused.names_eq hway
  exact hnames (refused_of_answer hs ht hf)

/-- Where a source under limits refuses a token of well-formed values, the token opens a container at a
place of one of the values or is the key of a repeated member there, and the path that is named, split
at the slashes and with the escapes undone, is that place: the member names and array indices that lead
to it. It need not be if the source was asked on after a repeated key and the token stands in that
member; up to the first refusal no token does. Different places in a value have different paths. -/
theorem refusal_names_place {trees : List Tree} {s s₁ : Source}
    (h : s.Emits (Tree.itemTokens trees) s₁) (l : Limits) :
    (∀ n f, n < (Tree.itemTokens trees).length → (s.withLimits l).answer n = .error f →
      ∃ above t below way place ts path, trees = above ++ t :: below ∧
        n = (Tree.itemTokens above).length + ts.length ∧ RefusedAt t way place ts f path ∧
        ((∀ m < n, ∃ tok, (s.withLimits l).answer m = .ok tok) → Passable l way) ∧
        (Passable l way → Pointer.names path = place)) ∧
    ∀ above t below, trees = above ++ t :: below → ∀ way way' place place' path,
      (s.withLimits l).Refuses (Tree.itemTokens above).length t way place path →
      (s.withLimits l).Refuses (Tree.itemTokens above).length t way' place' path →
      Passable l way → Passable l way' → place = place' := by
  refine ⟨fun n f hn hf => ?_, fun above t below htrees way way' place place' path hr hr' hw hw' => ?_⟩
  · have htokens : Tree.itemTokens trees = (Tree.itemTokens trees).take n ++
        (Tree.itemTokens trees)[n] :: (Tree.itemTokens trees).drop (n + 1) := by
      rw [← List.drop_eq_getElem_cons hn, List.take_append_drop]
    obtain ⟨above, t, below, ts, us, rfl, hbefore, ht⟩ := itemTokens_eq_append htokens
    obtain rfl : n = (Tree.itemTokens above).length + ts.length := by
      rw [← List.length_append, ← hbefore, List.length_take_of_le hn.le]
    have hstep := refused_of_answer h ht hf
    obtain ⟨way, place, path, hrefused⟩ := (stands_of_tokens ht).refusedAt hstep
    refine ⟨above, t, below, way, place, ts, path, rfl, rfl, hrefused, fun hfirst => ?_, fun hway => ?_⟩
    · exact hrefused.passable (allPass_of_answers h ht fun m hm => hfirst _ (by omega))
    · exact Refuses.names_eq ⟨ts, f, hf, hrefused⟩ h hway
  · subst htrees
    rw [← hr.names_eq h hw, ← hr'.names_eq h hw']

/-- An array in an array in an object, under a key with a tilde and a slash. -/
def nested : Tree := .object [("~0/", .array [.null, .array []])]

def nestedSource : Source := .replay (nested.tokens.map (⟨·, 0⟩)) 0

theorem refusal_names_place_nested :
    (nestedSource.withLimits ⟨2, true⟩).answer 4 = .error (.maxDepth (some "/~00~1/1")) ∧
    ∃ above t below way place ts path, [nested] = above ++ t :: below ∧
      4 = (Tree.itemTokens above).length + ts.length ∧
      RefusedAt t way place ts (.maxDepth (some "/~00~1/1")) path ∧ Pointer.names path = place := by
  have hemits : nestedSource.Emits (Tree.itemTokens [nested]) (.replay [] 8) :=
    Emits.replay (nested.tokens.map (⟨·, 0⟩)) [] 0
  have hrefused : (nestedSource.withLimits ⟨2, true⟩).answer 4 =
      .error (.maxDepth (some "/~00~1/1")) := by decide +kernel
  have hfirst : ∀ m < 4, ∃ tok, (nestedSource.withLimits ⟨2, true⟩).answer m = .ok tok := by
    intro m hm
    interval_cases m <;> exact ⟨_, rfl⟩
  obtain ⟨above, t, below, way, place, ts, path, htrees, hn, hat, hway, hnames⟩ :=
    (refusal_names_place hemits ⟨2, true⟩).1 4 _ (by decide) hrefused
  exact ⟨hrefused, above, t, below, way, place, ts, path, htrees, hn, hat, hnames (hway hfirst)⟩

/-- The second member repeats the key of the first one, and holds a container. -/
def repeatedMember : Tree := .object [("k", .null), ("k", .object [])]

/-- Read on after the repeated key is refused, the container in its member is refused under the path
of the whole document. -/
theorem refusal_in_repeated_member :
    ((Source.replay (repeatedMember.tokens.map (⟨·, 0⟩)) 0).withLimits ⟨1, true⟩).answer 3 =
      .error (.duplicateKey "k" "/k") ∧
    ((Source.replay (repeatedMember.tokens.map (⟨·, 0⟩)) 0).withLimits ⟨1, true⟩).answer 4 =
      .error (.maxDepth (some "/")) ∧
    RefusedAt repeatedMember [.member "k" true] ["k"] [.beginObject, .key "k", .null, .key "k"]
      (.maxDepth (some "/")) "/" ∧
    Pointer.names "/" ≠ ["k"] := by
  have hreach : Reaches repeatedMember [.member "k" true]
      [.beginObject, .key "k", .null, .key "k"] (.object []) :=
    .member [("k", .null)] [] "k" (.here (.object []))
  exact ⟨by decide +kernel, by decide +kernel, .tooDeep "/" hreach rfl, by decide⟩

end Source

end WireSchema
