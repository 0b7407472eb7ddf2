import WireSchema.Proofs.Json.Acceptance
import WireSchema.Proofs.Token.Stopping

/-!
# When a written container is JSON

A container that the writer has taken from its first event to its last is one JSON text exactly if its
events write a value, that is, if every value in an object has a name. For the one direction the text
spells the value. For the other the strict reader follows the writer: after every event it stands in
the same containers and expects what the writer may write there (`readerAt`), but at a value without a
name it stops, and a document is read to its end.
-/

namespace WireSchema

open Json (Tree Blank Nesting Container Expectation)

namespace Write

/-! ## Brackets -/

/-- What an event does to the number of open containers. -/
def weight : Write → Int
  | .startObject | .startArray => 1
  | .endObject | .endArray => -1
  | _ => 0

/-- The number of containers that are open after events. -/
def depth (es : List Write) : Int := (es.map weight).sum

/-- The first event opens a container, and the last one closes it. -/
structure Encloses (es : List Write) : Prop where
  opens : ∃ rest, es = .startObject :: rest ∨ es = .startArray :: rest
  depth_eq : depth es = 0
  depth_pos : ∀ part, part <+: es → part ≠ [] → part ≠ es → 0 < depth part

/-- The last of the events closes the outermost one of `n` open containers. -/
def Closes (n : Int) (es : List Write) : Prop :=
  n + depth es = 0 ∧ ∀ part, part <+: es → part ≠ es → 0 < n + depth part

theorem depth_cons (e : Write) (es : List Write) : depth (e :: es) = weight e + depth es := by
  simp [depth]

theorem Closes.cons {n : Int} {e : Write} {es : List Write} (h : Closes n (e :: es)) :
    Closes (n + weight e) es := by
  refine ⟨?_, fun part hpart hne => ?_⟩
  · have hall := h.1
    rw [depth_cons] at hall
    omega
  · have hpos := h.2 (e :: part) (List.cons_prefix_cons.mpr ⟨rfl, hpart⟩) (by simpa using hne)
    rw [depth_cons] at hpos
    omega

theorem Closes.eq_nil {es : List Write} (h : Closes 0 es) : es = [] := by
  by_contra hne
  have hpos := h.2 [] List.nil_prefix (Ne.symm hne)
  simp [depth] at hpos

theorem Encloses.closes {e : Write} {es : List Write} (h : Encloses (e :: es)) :
    Closes (weight e) es := by
  refine ⟨?_, fun part hpart hne => ?_⟩
  · rw [← depth_cons]
    exact h.depth_eq
  · rw [← depth_cons]
    exact h.depth_pos (e :: part) (List.cons_prefix_cons.mpr ⟨rfl, hpart⟩) (List.cons_ne_nil _ _)
      (by simpa using hne)

end Write

theorem Source.Stops.eq_of_ended {s s₁ : Source} {ts us : List Token} {f g : Failure}
    (h : s.Stops ts f) (hs : s.Emits us s₁) (hended : s₁.Ended g) : f = g := by
  obtain ⟨s₂, hnext⟩ := hended.next
  induction ts generalizing s us with
  | nil =>
    obtain ⟨s', hf⟩ := Source.Stops.nil_iff.mp h
    cases us with
    | nil =>
      obtain rfl := Source.Emits.nil_iff.mp hs
      rw [hnext] at hf
      exact (Except.error.inj (Prod.mk.inj hf).1).symm
    | cons u us =>
      obtain ⟨offset, s', hn, -⟩ := Source.Emits.cons_iff.mp hs
      rw [hn] at hf
      cases hf
  | cons t ts ih =>
    obtain ⟨offset, s', hn, hstops⟩ := Source.Stops.cons_iff.mp h
    cases us with
    | nil =>
      obtain rfl := Source.Emits.nil_iff.mp hs
      rw [hnext] at hn
      cases hn
    | cons u us =>
      obtain ⟨offset', s'', hn', hs⟩ := Source.Emits.cons_iff.mp hs
      rw [hn] at hn'
      obtain rfl : s' = s'' := (Prod.mk.inj hn').2
      exact ih hstops hs

namespace Json

namespace Strict

/-! ## Where the reader stops -/

/-- At the place the reader emits some tokens and then stops at malformed text. -/
def Place.Fails (q : Place) : Prop :=
  ∃ ts b place, ∀ s, q.Holds s → s.Stops ts (invalidCharacter b place)

theorem Place.Leads.fails {q r : Place} {ts : List Token} (h : q.Leads ts r) (hr : r.Fails) :
    q.Fails := by
  obtain ⟨us, b, place, hus⟩ := hr
  refine ⟨ts ++ us, b, place, fun s hs => ?_⟩
  obtain ⟨s₁, hemits, hs₁⟩ := h s hs
  exact Source.Stops.append_iff.mpr ⟨s₁, hemits, hus s₁ hs₁⟩

theorem stops_nil {s s' : Strict} {f : Failure} (h : s.next = (.error f, s')) :
    (Source.strict s).Stops [] f := by
  refine Source.Stops.nil_iff.mpr ⟨.strict s', ?_⟩
  rw [Source.next, h]

theorem tokenAt_malformed {s : Strict} {b : UInt8}
    (he : s.expect = .firstKey ∨ s.expect = .key ∨ s.expect = .colon)
    (hquote : b = 0x22 → s.expect = .colon) (hbrace : b = 0x7D → s.expect ≠ .firstKey) (x : Text) :
    s.tokenAt b x = s.refuse b := by
  have hvalue : s.expect.allowsValue = false := by rcases he with h | h | h <;> rw [h] <;> rfl
  have harray : (s.expect == .firstElement || s.expect == .elementEnd) = false := by
    rcases he with h | h | h <;> rw [h] <;> rfl
  have hkey : (b == 0x22 && (s.expect == .firstKey || s.expect == .key)) = false := by
    by_cases hb : b = 0x22
    · rw [hquote hb]
      exact Bool.and_false _
    · simp [hb]
  have hobject : b = 0x7D → (s.expect == .firstKey || s.expect == .memberEnd) = false := by
    intro hb
    have hfirst := hbrace hb
    rcases he with h | h | h
    · exact absurd h hfirst
    all_goals rw [h]; rfl
  unfold tokenAt
  by_cases hb : b = 0x7D
  · simp [hb, hobject hb]
  · simp [hvalue, harray, hkey, hb]

theorem string_of_scanScalar {x rest : Text} {t : Token} (h : scanScalar 0x22 x = .done t rest) :
    ∃ s, t = .string s := by
  rw [scanScalar, if_pos (by rfl)] at h
  split at h
  · rename_i s _ _
    exact ⟨s, (Scan.done.inj h).1.symm⟩
  · cases h
  · cases h

theorem scans_of_tail_eq {t : Tree} (h : t.tail = []) : Scans t := by
  cases t with
  | null => exact scans_null
  | bool b => exact scans_bool b
  | number literal => exact scans_number literal
  | string s => exact scans_string s
  | array items => simp [Tree.tail] at h
  | object members => simp [Tree.tail] at h

variable {gap x : Text} {b : UInt8} {e e' : Expectation} {outer : List Expectation} {n : Nesting}

/-- Where a key must come, a value without one is malformed. -/
theorem fails_at_key (hgap : Gap e gap e') (he : e' = .firstKey ∨ e' = .key) (hb : Begins b)
    (hquote : b ≠ 0x22) (hbrace : b ≠ 0x7D) : Place.Fails ⟨gap ++ b :: x, e, outer, n⟩ := by
  refine ⟨[], b, e'.place, ?_⟩
  rintro _ ⟨offset, last, rfl⟩
  obtain ⟨offset', hnext⟩ := next_eq
    (s := { rest := gap ++ b :: x, offset, expect := e, outer, nesting := n, last }) rfl hgap hb
  rw [tokenAt_malformed (by tauto) (fun h => absurd h hquote) (fun h => absurd h hbrace)] at hnext
  exact stops_nil hnext

/-- Where a colon must come, a comma and a closing bracket are malformed. -/
theorem fails_at_colon (hb : b = 0x2C ∨ b = 0x7D ∨ b = 0x5D) :
    Place.Fails ⟨b :: x, .colon, outer, n⟩ := by
  refine ⟨[], b, Expectation.colon.place, ?_⟩
  rintro _ ⟨offset, last, rfl⟩
  by_cases hcomma : b = 0x2C
  · subst hcomma
    exact stops_nil rfl
  · have hbracket : b = 0x7D ∨ b = 0x5D := hb.resolve_left hcomma
    have hbegins : Begins b := by rcases hbracket with rfl | rfl <;> exact ⟨rfl, by decide, by decide⟩
    obtain ⟨offset', hnext⟩ := next_eq
      (s := { rest := b :: x, offset, expect := .colon, outer, nesting := n, last })
      (List.nil_append _).symm (.blank .colon Value.blank_nil) hbegins
    rw [tokenAt_malformed (.inr (.inr rfl)) (fun _ => rfl) (fun _ h => by cases h)] at hnext
    exact stops_nil hnext

end Strict

namespace Writer

open Lenient (AwaitsValue)
open Write (Fits Runs Stage IsValue)

/-! ## The reader behind the writer -/

/-- What the reader expects once a value is complete within the containers. -/
def afterValue : List OpenContainer → Expectation
  | [] => .value
  | top :: _ => if top.isObject then .memberEnd else .elementEnd

def expectation : Place → Expectation
  | (_, true) => .colon
  | ([], false) => .value
  | (top :: outer, false) =>
    if 0 < top.count then afterValue (top :: outer)
    else if top.isObject then .firstKey else .firstElement

def afterClosing : List OpenContainer → List Expectation
  | [] => []
  | _ :: outer => afterValue outer :: afterClosing outer

def aroundValue (c : OpenContainer) : Container := if c.isObject then .object false else .array

/-- The open containers as the reader sees them. -/
def nesting : Place → Nesting
  | ([], _) => []
  | (top :: outer, named) =>
    (if top.isObject then .object (!named) else .array) :: outer.map aroundValue

/-- The containers around the innermost one have entries, and so has an object that waits for the
value of a name. -/
structure Sound (p : Place) : Prop where
  counted : ∀ c ∈ p.1.tail, 0 < c.count
  named : p.2 = true → ∃ top outer, p.1 = top :: outer ∧ top.isObject = true ∧ 0 < top.count

/-- The reader when the writer is at the place: it has read what is written, but for the colon after a
name, and the text is still to come. -/
def readerAt (p : Place) (rest : Text) (outer : List Expectation) : Strict.Place :=
  ⟨(if p.2 then [0x3A] else []) ++ rest, expectation p, outer, nesting p⟩

/-- What the reader remembers of the containers around is what it expects after each of them. -/
def Remembers (outer : List Expectation) (stack : List OpenContainer) : Prop :=
  outer.map Expectation.afterValue = afterClosing stack

/-- What the reader passes over before an entry. -/
def gapAt (p : Place) : Text := (if p.2 then [0x3A] else []) ++ lead [] p

theorem readerAt_lead (p : Place) (y : Text) (outer : List Expectation) :
    readerAt p (lead [] p ++ y) outer = ⟨gapAt p ++ y, expectation p, outer, nesting p⟩ := by
  rw [readerAt, gapAt, List.append_assoc]

theorem afterValue_entered (p : Place) : afterValue (entered p).1 = afterValue p.1 := by
  obtain ⟨_ | ⟨top, outer⟩, _ | _⟩ := p <;> rfl

theorem afterClosing_entered (p : Place) : afterClosing (entered p).1 = afterClosing p.1 := by
  obtain ⟨_ | ⟨top, outer⟩, _ | _⟩ := p <;> rfl

section Values

variable {p : Place} {stack : List OpenContainer}

/-- Once an entry has begun, every open container has one. -/
theorem pos_of_mem_entered (h : Sound p) : ∀ c ∈ (entered p).1, 0 < c.count := by
  obtain ⟨_ | ⟨top, outer⟩, _ | _⟩ := p
  · exact List.forall_mem_nil _
  · exact List.forall_mem_nil _
  · exact List.forall_mem_cons.mpr ⟨Nat.succ_pos _, h.counted⟩
  · obtain ⟨top', outer', heq, -, hpos⟩ := h.named rfl
    obtain ⟨rfl, rfl⟩ := List.cons.inj heq
    exact List.forall_mem_cons.mpr ⟨hpos, h.counted⟩

/-- Where a value may come it begins in every open container. -/
theorem nesting_eq_map (hn : AwaitsValue (nesting p)) : nesting p = (entered p).1.map aroundValue := by
  obtain ⟨_ | ⟨top, outer⟩, named⟩ := p
  · cases named <;> rfl
  · cases hobject : top.isObject <;> cases named <;>
      simp_all [nesting, entered, aroundValue, AwaitsValue]

theorem awaitsValue_map (stack : List OpenContainer) : AwaitsValue (stack.map aroundValue) := by
  cases stack with
  | nil => simp [AwaitsValue]
  | cons top outer => cases h : top.isObject <;> simp [AwaitsValue, aroundValue, h]

theorem valueDone_map (stack : List OpenContainer) :
    Nesting.valueDone (stack.map aroundValue) = nesting (stack, false) := by
  cases stack with
  | nil => rfl
  | cons top outer => cases h : top.isObject <;> simp [Nesting.valueDone, nesting, aroundValue, h]

theorem readerAt_entry (hpos : ∀ c ∈ stack, 0 < c.count) (rest : Text) (outer : List Expectation) :
    readerAt (stack, false) rest outer =
      ⟨rest, afterValue stack, outer, Nesting.valueDone (stack.map aroundValue)⟩ := by
  have hexpect : expectation (stack, false) = afterValue stack := by
    cases stack with
    | nil => rfl
    | cons top outer => exact if_pos (hpos top List.mem_cons_self)
  rw [readerAt, hexpect, valueDone_map]
  rfl

/-- A value that may come is one that the reader expects. -/
theorem gap_value (hp : Sound p) (hn : AwaitsValue (nesting p)) :
    ∃ e, Strict.Gap (expectation p) (gapAt p) e ∧ e.allowsValue = true ∧
      e.afterValue = afterValue p.1 := by
  obtain ⟨_ | ⟨top, outer⟩, _ | _⟩ := p
  · exact ⟨.value, .blank _ Value.blank_nil, rfl, rfl⟩
  · obtain ⟨top, outer, heq, -⟩ := hp.named rfl
    cases heq
  · obtain ⟨isObject, k⟩ := top
    obtain rfl : isObject = false := by
      cases isObject with
      | false => rfl
      | true => exact absurd rfl hn
    cases k with
    | zero => exact ⟨.firstElement, .blank _ Value.blank_nil, rfl, rfl⟩
    | succ k => exact ⟨.element, .separator Value.blank_nil Value.blank_nil rfl, rfl, rfl⟩
  · obtain ⟨⟨isObject, k⟩, outer', heq, hobject, -⟩ := hp.named rfl
    obtain ⟨rfl, rfl⟩ := List.cons.inj heq
    obtain rfl : isObject = true := hobject
    exact ⟨.member, .separator Value.blank_nil Value.blank_nil rfl, rfl, rfl⟩

/-- Where a name may come the reader expects a key. -/
theorem gap_key (k : Nat) (outer : List OpenContainer) :
    ∃ e, Strict.Gap (expectation (⟨true, k⟩ :: outer, false)) (gapAt (⟨true, k⟩ :: outer, false)) e ∧
      (e = .firstKey ∨ e = .key) := by
  cases k with
  | zero => exact ⟨.firstKey, .blank _ Value.blank_nil, .inl rfl⟩
  | succ k => exact ⟨.key, .separator Value.blank_nil Value.blank_nil rfl, .inr rfl⟩

end Values

/-! ## One event -/

/-- The text goes on as it does after an entry: with a comma or a closing bracket. -/
def GoesOn (rest : Text) : Prop := ∃ b x, rest = b :: x ∧ (b = 0x2C ∨ b = 0x7D ∨ b = 0x5D)

theorem GoesOn.ends {rest : Text} (h : GoesOn rest) : Lenient.Ends rest := by
  obtain ⟨b, x, rfl, hb⟩ := h
  intro c hc
  obtain rfl : b = c := by simpa using hc
  rcases hb with rfl | rfl | rfl <;> rfl

def stage : Place → Stage
  | ([], _) => .complete
  | p => .inside (nesting p)

theorem after_map (stack : List OpenContainer) :
    Stage.after (stack.map aroundValue) = stage (stack, false) := by
  cases stack with
  | nil => rfl
  | cons top outer => exact congrArg Stage.inside (valueDone_map (top :: outer))

/-- The event fits at the place of the writer, and the reader at its own place goes along. -/
def Follows (p : Place) (e : Write) (p' : Place) (rest : Text) (q : Strict.Place) : Prop :=
  Fits (nesting p) e (stage p') ∧
    ∃ ts outer, q.Leads ts (readerAt p' rest outer) ∧ Remembers outer p'.1

section Event

variable {p p' : Place} {e : Write} {t : Tree} {x rest : Text} {outer : List Expectation} {k : Nat}
  {containers : List OpenContainer}

theorem follows_scalar (hchunk : Chunk e t x) (hp : Sound p) (hn : AwaitsValue (nesting p))
    (hrest : Lenient.Ends rest) (ho : Remembers outer p.1) :
    Follows p e (entered p) rest (readerAt p (lead [] p ++ (x ++ rest)) outer) := by
  obtain ⟨e', hgap, he, hafter⟩ := gap_value hp hn
  have hmap := nesting_eq_map hn
  rw [entered_eq]
  refine ⟨?_, t.tokens, outer, ?_, ho.trans (afterClosing_entered p).symm⟩
  · rw [← after_map, ← hmap]
    exact .scalar hchunk.isScalar hn
  · rw [readerAt_lead, readerAt_entry (pos_of_mem_entered hp), ← hmap, afterValue_entered, ← hafter]
    exact Strict.readsTree t hgap he hchunk.spells hn hrest

theorem follows_opening (isObject : Bool) (hp : Sound p) (hn : AwaitsValue (nesting p))
    (ho : Remembers outer p.1) :
    Follows p (opener isObject) (⟨isObject, 0⟩ :: (entered p).1, false) rest
      (readerAt p (lead [] p ++ leftBracket isObject :: rest) outer) := by
  obtain ⟨e', hgap, he, hafter⟩ := gap_value hp hn
  have hmap := nesting_eq_map hn
  have hremembers : Remembers (e' :: outer) (⟨isObject, 0⟩ :: (entered p).1) := by
    rw [Remembers, List.map_cons, hafter, afterClosing, afterValue_entered, afterClosing_entered, ho]
  rw [readerAt_lead]
  rw [hmap] at hn ⊢
  cases isObject with
  | false => exact ⟨hmap ▸ .startArray hn, _, _, Strict.leads_beginArray hgap he, hremembers⟩
  | true => exact ⟨hmap ▸ .startObject hn, _, _, Strict.leads_beginObject hgap he, hremembers⟩

theorem follows_closing {top : OpenContainer} (hp : Sound (top :: containers, false))
    (ho : Remembers outer (top :: containers)) :
    Follows (top :: containers, false) (closer top.isObject) (containers, false) rest
      (readerAt (top :: containers, false) (rightBracket top.isObject :: rest) outer) := by
  obtain ⟨around, outer, rfl, haround, houter⟩ := List.map_eq_cons_iff.mp ho
  have hawaits := awaitsValue_map containers
  have hcounted : ∀ c ∈ containers, 0 < c.count := hp.counted
  rw [Follows, ← after_map]
  obtain ⟨isObject, k⟩ := top
  cases isObject with
  | false =>
    have he : expectation (⟨false, k⟩ :: containers, false) = .firstElement ∨
        expectation (⟨false, k⟩ :: containers, false) = .elementEnd := by
      cases k
      exacts [.inl rfl, .inr rfl]
    refine ⟨.endArray hawaits, [.endArray], outer, ?_, houter⟩
    rw [readerAt_entry hcounted, ← haround]
    exact Strict.leads_endArray Value.blank_nil he
  | true =>
    have he : expectation (⟨true, k⟩ :: containers, false) = .firstKey ∨
        expectation (⟨true, k⟩ :: containers, false) = .memberEnd := by
      cases k
      exacts [.inl rfl, .inr rfl]
    refine ⟨.endObject hawaits, [.endObject], outer, ?_, houter⟩
    rw [readerAt_entry hcounted, ← haround]
    exact Strict.leads_endObject Value.blank_nil he

theorem follows_name (name : Text) (ho : Remembers outer (⟨true, k⟩ :: containers)) :
    Follows (⟨true, k⟩ :: containers, false) (.fieldName name) (⟨true, k + 1⟩ :: containers, true) rest
      (readerAt (⟨true, k⟩ :: containers, false)
        (lead [] (⟨true, k⟩ :: containers, false) ++ (stringText name ++ 0x3A :: rest)) outer) := by
  obtain ⟨e', hgap, he⟩ := gap_key k containers
  rw [readerAt_lead]
  exact ⟨.fieldName name, _, _, Strict.leads_key hgap he (spells_mended name), ho⟩

/-! ## Values without a name -/

theorem place_of_not_awaitsValue (hn : ¬AwaitsValue (nesting p)) :
    ∃ k containers, p = (⟨true, k⟩ :: containers, false) := by
  obtain ⟨_ | ⟨⟨isObject, k⟩, outer⟩, named⟩ := p
  · simp [nesting, AwaitsValue] at hn
  · cases isObject <;> cases named <;> simp [nesting, AwaitsValue] at hn
    exact ⟨k, outer, rfl⟩

/-- Where a key must come, a string is one, but no colon follows it; any other scalar is malformed. -/
theorem fails_scalar (hchunk : Chunk e t x) (hrest : GoesOn rest) :
    (readerAt (⟨true, k⟩ :: containers, false)
      (lead [] (⟨true, k⟩ :: containers, false) ++ (x ++ rest)) outer).Fails := by
  obtain ⟨e', hgap, he⟩ := gap_key k containers
  rw [readerAt_lead]
  by_cases hstring : ∃ s, t = .string s
  · obtain ⟨s, rfl⟩ := hstring
    obtain ⟨b, y, rfl, hb⟩ := hrest
    exact (Strict.leads_key hgap he hchunk.spells).fails (Strict.fails_at_colon hb)
  · obtain ⟨b, y, rfl, hscan⟩ := Strict.scans_of_tail_eq hchunk.tail_eq hchunk.spells hrest.ends
    refine Strict.fails_at_key hgap he (Strict.begins_of_scanScalar hscan) ?_
      (Strict.ne_of_scanScalar hscan (by simp))
    rintro rfl
    obtain ⟨s, hs⟩ := Strict.string_of_scanScalar hscan
    cases t <;> cases hs
    exact hstring ⟨_, rfl⟩

theorem fails_opening (isObject : Bool) :
    (readerAt (⟨true, k⟩ :: containers, false)
      (lead [] (⟨true, k⟩ :: containers, false) ++ leftBracket isObject :: rest) outer).Fails := by
  obtain ⟨e', hgap, he⟩ := gap_key k containers
  rw [readerAt_lead]
  cases isObject with
  | false => exact Strict.fails_at_key hgap he ⟨rfl, by decide, by decide⟩ (by decide) (by decide)
  | true => exact Strict.fails_at_key hgap he ⟨rfl, by decide, by decide⟩ (by decide) (by decide)

/-- The reader follows every event that the writer takes, or it stops at a value without a name. -/
theorem Accepts.follows_or_fails (h : Accepts p e p' x) (hp : Sound p)
    (hrest : e.isScalar = true → GoesOn rest) (ho : Remembers outer p.1) :
    Follows p e p' rest (readerAt p (x ++ rest) outer) ∨ (readerAt p (x ++ rest) outer).Fails := by
  cases h with
  | scalar _ hchunk =>
    have hgoes := hrest hchunk.isScalar
    rw [List.append_assoc]
    by_cases hn : AwaitsValue (nesting p)
    · exact .inl (follows_scalar hchunk hp hn hgoes.ends ho)
    · obtain ⟨k, containers, rfl⟩ := place_of_not_awaitsValue hn
      exact .inr (fails_scalar hchunk hgoes)
  | opening _ isObject =>
    rw [List.append_assoc]
    by_cases hn : AwaitsValue (nesting p)
    · exact .inl (follows_opening isObject hp hn ho)
    · obtain ⟨k, containers, rfl⟩ := place_of_not_awaitsValue hn
      exact .inr (fails_opening isObject)
  | closing top containers => exact .inl (follows_closing hp ho)
  | name k containers name =>
    rw [List.append_assoc, List.append_assoc]
    exact .inl (follows_name name ho)

theorem Accepts.sound (h : Accepts p e p' x) (hp : Sound p) : Sound p' := by
  cases h with
  | scalar _ _ =>
    rw [entered_eq]
    exact ⟨fun c hc => pos_of_mem_entered hp c (List.mem_of_mem_tail hc), fun h => by cases h⟩
  | opening _ isObject => exact ⟨pos_of_mem_entered hp, fun h => by cases h⟩
  | closing top outer => exact ⟨fun c hc => hp.counted c (List.mem_of_mem_tail hc), fun h => by cases h⟩
  | name k outer name => exact ⟨hp.counted, fun _ => ⟨_, _, rfl, rfl, Nat.succ_pos k⟩⟩

/-- After an entry the writer goes on with a comma or a closing bracket. -/
theorem Accepts.goesOn {top : OpenContainer} (h : Accepts (top :: containers, false) e p' x)
    (hpos : 0 < top.count) (y : Text) : GoesOn (x ++ y) := by
  have hlead : lead [] (top :: containers, false) = [0x2C] := by simp [lead, hpos, lineStart]
  cases h with
  | scalar _ _ => exact ⟨0x2C, _, by rw [hlead]; rfl, .inl rfl⟩
  | opening _ _ => exact ⟨0x2C, _, by rw [hlead]; rfl, .inl rfl⟩
  | closing _ _ =>
    refine ⟨rightBracket top.isObject, y, rfl, ?_⟩
    cases top.isObject
    · exact .inr (.inr rfl)
    · exact .inr (.inl rfl)
  | name _ _ _ => exact ⟨0x2C, _, by rw [hlead]; rfl, .inl rfl⟩

theorem Accepts.length_eq (h : Accepts p e p' x) :
    (p'.1.length : Int) = p.1.length + e.weight := by
  have hentered : (entered p).1.length = p.1.length := by
    obtain ⟨_ | ⟨top, outer⟩, _ | _⟩ := p <;> rfl
  cases h with
  | scalar _ hchunk =>
    have hweight : e.weight = 0 := by
      have hs := hchunk.isScalar
      cases e with
      | startObject | startArray | endObject | endArray => cases hs
      | _ => rfl
    rw [hentered, hweight, Int.add_zero]
  | opening _ isObject =>
    have hweight : (opener isObject).weight = 1 := by cases isObject <;> rfl
    rw [List.length_cons, hentered, hweight, Nat.cast_succ]
  | closing top outer =>
    have hweight : (closer top.isObject).weight = -1 := by cases top.isObject <;> rfl
    rw [List.length_cons, hweight, Nat.cast_succ, Int.add_neg_cancel_right]
  | name k outer name => exact (Int.add_zero _).symm

theorem Accepts.eq_of_isScalar (h : Accepts p e p' x) (hs : e.isScalar = true) :
    p' = ((entered p).1, false) := by
  cases h with
  | scalar _ _ => exact entered_eq p
  | opening _ isObject => cases isObject <;> cases hs
  | closing top outer => cases htop : top.isObject <;> simp [htop, closer, Write.isScalar] at hs
  | name _ _ _ => cases hs

end Event

/-! ## A whole container -/

theorem AcceptsAll.goesOn {stack : List OpenContainer} {p' : Place} {es : List Write} {x : Text}
    (h : AcceptsAll (stack, false) es p' x) (hpos : ∀ c ∈ stack, 0 < c.count) (hstack : stack ≠ [])
    (hes : es ≠ []) : GoesOn x := by
  obtain ⟨top, outer, rfl⟩ := List.exists_cons_of_ne_nil hstack
  cases h with
  | nil => exact absurd rfl hes
  | cons he _ => exact he.goesOn (hpos top List.mem_cons_self) _

/-- The reader follows the writer to the end of the outermost container, or it stops at a value without
a name. -/
theorem AcceptsAll.runs_or_fails {p p' : Place} {es : List Write} {x : Text}
    {outer : List Expectation} (h : AcceptsAll p es p' x) (hp : Sound p) (hopen : p.1 ≠ [])
    (hclose : Write.Closes p.1.length es) (ho : Remembers outer p.1) :
    Runs (.inside (nesting p)) es .complete ∨ (readerAt p x outer).Fails := by
  induction h generalizing outer with
  | nil p =>
    have hlength : (p.1.length : Int) + 0 = 0 := hclose.1
    exact absurd (List.eq_nil_of_length_eq_zero (by omega)) hopen
  | @cons p p₁ p₂ e es x y he hes ih =>
    have hclose₁ : Write.Closes p₁.1.length es := by
      rw [he.length_eq]
      exact hclose.cons
    have hrest : e.isScalar = true → GoesOn y := by
      intro hs
      obtain rfl := he.eq_of_isScalar hs
      have hopen₁ : (entered p).1 ≠ [] := by
        obtain ⟨_ | ⟨top, outer⟩, _ | _⟩ := p <;> simp_all [entered]
      refine hes.goesOn (pos_of_mem_entered hp) hopen₁ ?_
      rintro rfl
      have hlength : ((entered p).1.length : Int) + 0 = 0 := hclose₁.1
      exact absurd (List.eq_nil_of_length_eq_zero (by omega)) hopen₁
    rcases he.follows_or_fails hp hrest ho with ⟨hfits, ts, outer', hleads, ho'⟩ | hfails
    · obtain ⟨_ | ⟨top, outer⟩, named⟩ := p₁
      · -- nothing is open any more, so this was the last event
        obtain rfl := hclose₁.eq_nil
        exact .inl (.single hfits)
      · rcases ih (he.sound hp) (List.cons_ne_nil _ _) hclose₁ ho' with hruns | hfails
        · exact .inl (.cons hfits hruns)
        · exact .inr (hleads.fails hfails)
    · exact .inr hfails

theorem sound_nil : Sound ([], false) := ⟨List.forall_mem_nil _, fun h => by cases h⟩

theorem AcceptsAll.isValue_or_fails {p' : Place} {es : List Write} {x : Text}
    (h : AcceptsAll ([], false) es p' x) (hes : Write.Encloses es) :
    IsValue es ∨ Strict.Place.Fails ⟨x, .value, [], []⟩ := by
  rw [← Write.runs_complete_iff]
  cases h with
  | nil =>
    obtain ⟨rest, hnil | hnil⟩ := hes.opens <;> cases hnil
  | @cons _ p₁ _ e es x y he hrest =>
    have hweight : e.weight = 1 ∧ e.isScalar = false := by
      obtain ⟨rest, hcons | hcons⟩ := hes.opens <;> cases hcons <;> exact ⟨rfl, rfl⟩
    have hlength := he.length_eq
    rw [hweight.1] at hlength
    have hopen : p₁.1 ≠ [] := by
      intro hnil
      rw [hnil] at hlength
      simp at hlength
    have hscalar : e.isScalar = true → GoesOn y := by
      rw [hweight.2]
      exact fun h => by cases h
    have hclose : Write.Closes p₁.1.length es := by
      rw [hlength]
      simpa [hweight.1] using hes.closes
    have ho : Remembers [] [] := rfl
    rcases he.follows_or_fails sound_nil hscalar ho with ⟨hfits, ts, outer', hleads, ho'⟩ | hfails
    · obtain ⟨_ | ⟨top, outer⟩, named⟩ := p₁
      · exact absurd rfl hopen
      · rcases hrest.runs_or_fails (he.sound sound_nil) hopen hclose ho' with hruns | hfails
        · exact .inl (.cons hfits hruns)
        · exact .inr (hleads.fails hfails)
    · exact .inr hfails

end Writer

/-- The text is one JSON text: it is UTF-8, and it spells a value, perhaps between blanks. -/
def IsDocument (x : Text) : Prop := x.isUtf8 = true ∧ ∃ t : Tree, t.Documents x

theorem not_isDocument_of_fails {x : Text} (h : Strict.Place.Fails ⟨x, .value, [], []⟩) :
    ¬IsDocument x := by
  rintro ⟨-, t, hdocument⟩
  obtain ⟨ts, b, place, hstops⟩ := h
  obtain ⟨s, hemits, hended⟩ := Strict.emits_document hdocument
  have hfailure := (hstops _ ⟨0, _, rfl⟩).eq_of_ended hemits hended
  cases hfailure

/-- **A written container is JSON if every value in an object has a name.** Take events of which the
first opens a container and the last closes it, and let a writer that does not indent take them all.
What it has written is one JSON text exactly if the events write a value. The writer checks the
brackets and where a name may come, but it also takes a value without a name in an object. -/
theorem container_isDocument_iff {es : List Write} {w : Writer} (hes : Write.Encloses es)
    (hf : ∀ e ∈ es, e.HasFormat) (hw : Writer.writeAll {} es = (none, w)) :
    IsDocument w.sink.text ↔ Write.IsValue es := by
  obtain ⟨x, hall, htext⟩ := Writer.acceptsAll_of_writeAll ⟨rfl, rfl⟩ hf hw
  have hsink : w.sink.text = x := by simpa [Sink.text] using htext
  constructor
  · intro hdocument
    rcases hall.isValue_or_fails hes with hvalue | hfails
    · exact hvalue
    · rw [hsink] at hdocument
      exact absurd hdocument (not_isDocument_of_fails hfails)
  · intro hvalue
    refine ⟨?_, Writer.documents_of_isValue hvalue hf hw⟩
    rw [hsink]
    exact hall.isUtf8

/-- An object that has a name twice, once with a stray byte after it. -/
def twiceNamed : List Write :=
  [.startObject, .fieldName [0x6B, 0xFF], .startArray, .string "\"", .integer (-3), .endArray,
    .fieldName [0x6B], .float .double (.finite true 7205759403792794 (-56)), .endObject]

theorem container_isDocument_twiceNamed :
    Write.Encloses twiceNamed ∧ (∀ e ∈ twiceNamed, e.HasFormat) ∧
    (Writer.writeAll {} twiceNamed).1 = none ∧
    IsDocument (Writer.writeAll {} twiceNamed).2.sink.text := by
  have hencloses : Write.Encloses twiceNamed := by
    refine ⟨⟨_, .inl rfl⟩, rfl, ?_⟩
    simp only [← List.mem_inits]
    decide
  have hformat : ∀ e ∈ twiceNamed, e.HasFormat := by
    simp only [twiceNamed, List.forall_mem_cons, Write.HasFormat]
    exact ⟨trivial, trivial, trivial, trivial, trivial, trivial, trivial,
      ⟨.inr trivial, by decide, by decide, by decide, by decide⟩, trivial, List.forall_mem_nil _⟩
  have hwritten : (Writer.writeAll {} twiceNamed).1 = none := by decide +kernel
  have harray : Write.IsValue [.startArray, .string "\"", .integer (-3), .endArray] := by
    have hitems : ∀ es ∈ [[Write.string "\""], [Write.integer (-3)]], Write.IsValue es :=
      List.forall_mem_cons.mpr ⟨.scalar rfl, List.forall_mem_singleton.mpr (.scalar rfl)⟩
    exact .array hitems
  have hvalue : Write.IsValue twiceNamed := by
    have hmembers : ∀ m ∈ [(([0x6B, 0xFF] : Text),
          [Write.startArray, .string "\"", .integer (-3), .endArray]),
        ([0x6B], [.float .double (.finite true 7205759403792794 (-56))])], Write.IsValue m.2 :=
      List.forall_mem_cons.mpr ⟨harray, List.forall_mem_singleton.mpr (.scalar rfl)⟩
    exact .object hmembers
  exact ⟨hencloses, hformat, hwritten,
    (container_isDocument_iff hencloses hformat (Prod.ext hwritten rfl)).mpr hvalue⟩

/-- The writer takes a value without a name in an object, and what it has written is no JSON text. -/
theorem nameless_not_isDocument :
    Write.Encloses [.startObject, .null, .endObject] ∧
    (Writer.writeAll {} [.startObject, .null, .endObject]).1 = none ∧
    (Writer.writeAll {} [.startObject, .null, .endObject]).2.sink.text = "\x7bnull\x7d" ∧
    ¬IsDocument "\x7bnull\x7d" := by
  have hencloses : Write.Encloses [.startObject, .null, .endObject] := by
    refine ⟨⟨_, .inl rfl⟩, rfl, ?_⟩
    simp only [← List.mem_inits]
    decide
  have hstart : Strict.Gap .value [] .value := .blank .value Value.blank_nil
  have hfirst : Strict.Gap .firstKey [] .firstKey := .blank .firstKey Value.blank_nil
  have hnull : Strict.Place.Fails
      ⟨[] ++ 0x6E :: [0x75, 0x6C, 0x6C, 0x7D], .firstKey, [.value], [.object true]⟩ :=
    Strict.fails_at_key hfirst (.inl rfl) ⟨rfl, by decide, by decide⟩ (by decide) (by decide)
  have hopen : Strict.Place.Fails
      ⟨[] ++ 0x7B :: [0x6E, 0x75, 0x6C, 0x6C, 0x7D], .value, [], []⟩ :=
    (Strict.leads_beginObject hstart rfl).fails hnull
  exact ⟨hencloses, by decide +kernel, by decide +kernel, not_isDocument_of_fails hopen⟩

end Json

end WireSchema
