import WireSchema.Proofs.Codec.Dialects
import WireSchema.Proofs.Write.Grammar

/-!
# Which events the writer takes

The writer checks little: a container is closed by the right bracket and not between a name and its
value, and a name comes in an object. `Accepts` says which events it takes at a place, where each leads
and what is written for it. The events of a value are written as a document.
-/

namespace WireSchema

open Json (Tree Blank)

/-- A finite float is a number of its format, in single or double precision. -/
def Write.HasFormat : Write → Prop
  | .float f (.finite _ significand exponent) =>
    (f = .single ∨ f = .double) ∧ Binary.Canonical f significand exponent
  | _ => True

namespace Json

theorem isUtf8_of_isNumber {x : Text} (h : IsNumber x) : x.isUtf8 = true := by
  have hascii : ∀ b, Lenient.inNumber b = true → b < 0x80 := by
    intro b hb
    simp only [Lenient.inNumber, Text.isDigit, Bool.or_eq_true, Bool.and_eq_true, decide_eq_true_eq,
      beq_iff_eq] at hb
    rcases hb with ((((⟨-, hb⟩ | rfl) | rfl) | rfl) | rfl) | rfl
    · exact UInt8.lt_of_le_of_lt hb (by decide)
    all_goals decide
  obtain ⟨b, ds, rfl, hb, hds⟩ := Lenient.cons_of_isNumber h
  have hfirst : Lenient.inNumber b = true := by
    rcases Bool.or_eq_true_iff.mp hb with hb | hb
    · obtain rfl := eq_of_beq hb
      rfl
    · exact Lenient.inNumber_of_isDigit hb
  exact Text.isUtf8_of_ascii (List.forall_mem_cons.mpr ⟨hascii b hfirst, fun d hd => hascii d (hds d hd)⟩)

namespace Writer

/-! ## Scalars -/

/-- The event is written as one chunk, which spells a scalar. -/
structure Chunk (e : Write) (t : Tree) (x : Text) : Prop where
  isScalar : e.isScalar = true
  event_eq : event e = scalar x
  tail_eq : t.tail = []
  spells : t.Spells x
  isUtf8 : x.isUtf8 = true

theorem Chunk.number {e : Write} {x : Text} (hs : e.isScalar = true) (he : event e = scalar x)
    (hx : IsNumber x) : Chunk e (.number x) x :=
  ⟨hs, he, rfl, ⟨rfl, hx⟩, isUtf8_of_isNumber hx⟩

theorem chunk_or_refused {e : Write} (he : e.isScalar = true) (hf : e.HasFormat) :
    (∃ t x, Chunk e t x) ∨ ∀ w w₁ : Writer, w.write e ≠ (none, w₁) := by
  cases e with
  | null => exact .inl ⟨.null, _, rfl, rfl, rfl, rfl, Text.isUtf8_ofString _⟩
  | bool b =>
    refine .inl ⟨.bool b, _, rfl, rfl, rfl, rfl, ?_⟩
    cases b <;> exact Text.isUtf8_ofString _
  | integer n => exact .inl ⟨_, _, .number rfl rfl (Integer.isNumber_ofInt n)⟩
  | decimal d => exact .inl ⟨_, _, .number rfl rfl d.isNumber_toText⟩
  | string t => exact .inl ⟨.string t.mended, _, rfl, rfl, rfl, spells_mended t, isUtf8_stringText t⟩
  | float f x =>
    cases x with
    | finite negative significand exponent =>
      obtain ⟨hformat, hc⟩ := hf
      have hbounded : f.Bounded := by
        rcases hformat with rfl | rfl
        · exact Binary.bounded_single
        · exact Binary.bounded_double
      have hnumber := Binary.isNumber_toText negative hbounded hc
      exact .inl ⟨_, _, .number rfl rfl hnumber⟩
    | _ => exact .inr fun w w₁ h => by cases h
  | _ => cases he

/-! ## Events -/

def opener (isObject : Bool) : Write := if isObject then .startObject else .startArray

def closer (isObject : Bool) : Write := if isObject then .endObject else .endArray

/-- The bracket before the contents of a container. -/
def leftBracket (isObject : Bool) : UInt8 := if isObject then 0x7B else 0x5B

/-- The bracket after the contents of a container. -/
def rightBracket (isObject : Bool) : UInt8 := if isObject then 0x7D else 0x5D

theorem event_opener (isObject : Bool) :
    event (opener isObject) = openContainer isObject [leftBracket isObject] := by
  cases isObject <;> rfl

theorem event_closer (isObject : Bool) :
    event (closer isObject) = closeContainer isObject [rightBracket isObject] := by
  cases isObject <;> rfl

/-- At the place the writer takes the event without a failure, goes to another place and writes the
text, where nothing is indented. -/
inductive Accepts : Place → Write → Place → Text → Prop
  | scalar {e : Write} {t : Tree} {x : Text} (p : Place) : Chunk e t x →
      Accepts p e (entered p) (lead [] p ++ x)
  | opening (p : Place) (isObject : Bool) :
      Accepts p (opener isObject) (⟨isObject, 0⟩ :: (entered p).1, false)
        (lead [] p ++ [leftBracket isObject])
  | closing (top : OpenContainer) (outer : List OpenContainer) :
      Accepts (top :: outer, false) (closer top.isObject) (outer, false)
        [rightBracket top.isObject]
  | name (k : Nat) (outer : List OpenContainer) (t : Text) :
      Accepts (⟨true, k⟩ :: outer, false) (.fieldName t) (⟨true, k + 1⟩ :: outer, true)
        (lead [] (⟨true, k⟩ :: outer, false) ++ (stringText t ++ [0x3A]))

/-- The writer takes the events one after another. -/
inductive AcceptsAll : Place → List Write → Place → Text → Prop
  | nil (p : Place) : AcceptsAll p [] p []
  | cons {p p₁ p₂ : Place} {e : Write} {es : List Write} {x y : Text} : Accepts p e p₁ x →
      AcceptsAll p₁ es p₂ y → AcceptsAll p (e :: es) p₂ (x ++ y)

/-- A writer that does not indent, on a sink without a limit. -/
structure Plain (w : Writer) : Prop where
  indent : w.indent = []
  limit : w.sink.limit = none

section Inversion

variable {w w₁ : Writer} {p' : Place} {e : Write} {x : Text}

/-- An action that the writer carries out is the one it has carried out. -/
theorem accepts_of_does {p : Place} (hp : w.place = p) (ha : Accepts p e p' x)
    (hd : Does [] (event e) p p' x) (hw : Plain w) (h : w.write e = (none, w₁)) :
    ∃ x, Accepts w.place e w₁.place x ∧ Plain w₁ ∧ w₁.sink.text = w.sink.text ++ x := by
  subst hp
  obtain ⟨w', hrun, hindent, hlimit, rfl, htext⟩ := hd w hw.indent hw.limit rfl
  obtain rfl : w' = w₁ := by simpa [write, hrun] using h
  exact ⟨x, ha, ⟨hindent, hlimit⟩, htext⟩

theorem accepts_opener (isObject : Bool) (hw : Plain w) (h : w.write (opener isObject) = (none, w₁)) :
    ∃ x, Accepts w.place (opener isObject) w₁.place x ∧ Plain w₁ ∧
      w₁.sink.text = w.sink.text ++ x := by
  refine accepts_of_does rfl (.opening w.place isObject) ?_ hw h
  rw [event_opener]
  exact does_open isObject _

theorem run_of_write (h : w.write e = (none, w₁)) : (event e).run w = .ok () w₁ := by
  unfold write at h
  split at h
  · rename_i w' hrun
    obtain ⟨-, rfl⟩ := Prod.mk.inj h
    exact hrun
  · cases h

theorem run_get_bind (f : Writer → Action) (w : Writer) : (get >>= f).run w = (f w).run w := rfl

theorem run_throw_bind (f : Failure) (a : Unit → Action) (w : Writer) :
    ((throw f : Action) >>= a).run w = .error f w := rfl

/-- A container is closed only by its own bracket, and not before the value of a name. -/
theorem place_of_closer {isObject : Bool} (h : w.write (closer isObject) = (none, w₁)) :
    ∃ top outer, w.place = (top :: outer, false) ∧ top.isObject = isObject := by
  have hrun := run_of_write h
  rw [event_closer, closeContainer, run_get_bind] at hrun
  cases hstack : w.stack with
  | nil =>
    rw [hstack] at hrun
    cases hrun
  | cons top outer =>
    rw [hstack] at hrun
    dsimp only at hrun
    split at hrun
    · rw [run_throw_bind] at hrun
      cases hrun
    · rename_i hbad
      simp only [Bool.or_eq_true, bne_iff_ne, not_or, not_not, Bool.not_eq_true] at hbad
      exact ⟨top, outer, Prod.ext hstack hbad.2, hbad.1⟩

theorem accepts_closer (isObject : Bool) (hw : Plain w) (h : w.write (closer isObject) = (none, w₁)) :
    ∃ x, Accepts w.place (closer isObject) w₁.place x ∧ Plain w₁ ∧
      w₁.sink.text = w.sink.text ++ x := by
  obtain ⟨top, outer, hplace, rfl⟩ := place_of_closer h
  refine accepts_of_does hplace (.closing top outer) ?_ hw h
  rw [event_closer]
  have hclose : Does [] _ (top :: outer, false) _ _ := does_close [rightBracket top.isObject]
  simpa [lineStart] using hclose

/-- A name comes in an object, and not before the value of another name. -/
theorem place_of_name {t : Text} (h : w.write (.fieldName t) = (none, w₁)) :
    ∃ k outer, w.place = (⟨true, k⟩ :: outer, false) := by
  have hrun := run_of_write h
  rw [event, fieldName, run_get_bind] at hrun
  cases haccepts : w.acceptsName with
  | false =>
    simp only [haccepts, Bool.not_false, if_true, run_throw_bind] at hrun
    cases hrun
  | true =>
    unfold acceptsName at haccepts
    cases hstack : w.stack with
    | nil => simp [hstack] at haccepts
    | cons top outer =>
      obtain ⟨isObject, k⟩ := top
      obtain ⟨hnamed, rfl⟩ : w.named = false ∧ isObject = true := by simpa [hstack] using haccepts
      exact ⟨k, outer, Prod.ext hstack hnamed⟩

theorem accepts_name {t : Text} (hw : Plain w) (h : w.write (.fieldName t) = (none, w₁)) :
    ∃ x, Accepts w.place (.fieldName t) w₁.place x ∧ Plain w₁ ∧ w₁.sink.text = w.sink.text ++ x := by
  obtain ⟨k, outer, hplace⟩ := place_of_name h
  exact accepts_of_does hplace (.name k outer t) (does_fieldName rfl t) hw h

theorem accepts_of_write (hw : Plain w) (hf : e.HasFormat) (h : w.write e = (none, w₁)) :
    ∃ x, Accepts w.place e w₁.place x ∧ Plain w₁ ∧ w₁.sink.text = w.sink.text ++ x := by
  cases hs : e.isScalar with
  | true =>
    rcases chunk_or_refused hs hf with ⟨t, x, hchunk⟩ | hrefused
    · refine accepts_of_does rfl (.scalar w.place hchunk) ?_ hw h
      rw [hchunk.event_eq]
      exact does_scalar x
    · exact absurd h (hrefused w w₁)
  | false =>
    cases e with
    | startObject => exact accepts_opener true hw h
    | startArray => exact accepts_opener false hw h
    | endObject => exact accepts_closer true hw h
    | endArray => exact accepts_closer false hw h
    | fieldName t => exact accepts_name hw h
    | _ => cases hs

theorem acceptsAll_of_writeAll {es : List Write} (hw : Plain w) (hf : ∀ e ∈ es, e.HasFormat)
    (h : w.writeAll es = (none, w₁)) :
    ∃ x, AcceptsAll w.place es w₁.place x ∧ w₁.sink.text = w.sink.text ++ x := by
  induction es generalizing w with
  | nil =>
    obtain ⟨-, rfl⟩ := Prod.mk.inj h
    exact ⟨[], .nil _, by simp⟩
  | cons e es ih =>
    obtain ⟨he, hes⟩ := List.forall_mem_cons.mp hf
    rw [writeAll] at h
    split at h
    · rename_i w₂ hwrite
      obtain ⟨x, haccepts, hplain, htext⟩ := accepts_of_write hw he hwrite
      obtain ⟨y, hall, htext'⟩ := ih hplain hes h
      exact ⟨x ++ y, .cons haccepts hall, by rw [htext', htext, List.append_assoc]⟩
    · cases h

end Inversion

/-! ## What is written -/

theorem lead_nil (p : Place) : lead [] p = [] ∨ lead [] p = [0x2C] := by
  obtain ⟨_ | ⟨top, outer⟩, _ | _⟩ := p
  · exact .inl rfl
  · exact .inl rfl
  · simp only [lead]
    split_ifs
    · exact .inr rfl
    · exact .inl rfl
  · exact .inl rfl

theorem isUtf8_lead (p : Place) : (lead [] p).isUtf8 = true := by
  rcases lead_nil p with h | h <;> rw [h] <;> exact Text.isUtf8_of_ascii (by simp)

theorem Accepts.isUtf8 {p p' : Place} {e : Write} {x : Text} (h : Accepts p e p' x) :
    x.isUtf8 = true := by
  cases h with
  | scalar _ hchunk => exact Text.isUtf8_append (isUtf8_lead p) hchunk.isUtf8
  | opening _ isObject =>
    refine Text.isUtf8_append (isUtf8_lead p) (Text.isUtf8_of_ascii ?_)
    cases isObject <;> simp [leftBracket]
  | closing top outer =>
    refine Text.isUtf8_of_ascii ?_
    cases top.isObject <;> simp [rightBracket]
  | name k outer t =>
    refine Text.isUtf8_append (isUtf8_lead _) (Text.isUtf8_append (isUtf8_stringText t) ?_)
    exact Text.isUtf8_of_ascii (by simp)

theorem AcceptsAll.isUtf8 {p p' : Place} {es : List Write} {x : Text} (h : AcceptsAll p es p' x) :
    x.isUtf8 = true := by
  induction h with
  | nil => exact Text.isUtf8_of_ascii (List.forall_mem_nil _)
  | cons he _ ih => exact Text.isUtf8_append he.isUtf8 ih

theorem AcceptsAll.chunk {p p' : Place} {es : List Write} {x : Text} (h : AcceptsAll p es p' x) :
    ∀ e ∈ es, e.isScalar = true → ∃ t y, Chunk e t y := by
  induction h with
  | nil => exact List.forall_mem_nil _
  | cons he _ ih =>
    refine List.forall_mem_cons.mpr ⟨fun hs => ?_, ih⟩
    cases he with
    | scalar _ hchunk => exact ⟨_, _, hchunk⟩
    | opening _ isObject => cases isObject <;> cases hs
    | closing top outer => cases htop : top.isObject <;> simp [htop, closer, Write.isScalar] at hs
    | name => cases hs

/-- The events of a value are written as a document. -/
theorem exists_writesTree {indent : Text} (hi : Blank indent) {es : List Write}
    (h : Write.IsValue es) (hchunk : ∀ e ∈ es, e.isScalar = true → ∃ t x, Chunk e t x) :
    ∃ t, WritesTree indent es t := by
  have hnonempty : Nonempty Tree := ⟨.null⟩
  induction h with
  | scalar he =>
    obtain ⟨t, x, hx⟩ := hchunk _ (List.mem_singleton_self _) he
    exact ⟨t, writesTree_scalar hx.event_eq hx.spells⟩
  | @array items _ ih =>
    have hitems : ∀ es ∈ items, ∃ t, WritesTree indent es t := by
      refine fun es hes => ih es hes fun e he => hchunk e ?_
      have hmem : e ∈ items.flatten := List.mem_flatten_of_mem hes he
      simp [hmem]
    choose! tree htree using hitems
    have hparts : ∀ v ∈ items.map fun es => (es, tree es), WritesTree indent v.1 v.2 :=
      List.forall_mem_map.mpr htree
    exact ⟨_, by simpa [List.flatMap_map] using writesTree_array hi hparts⟩
  | @object members _ ih =>
    have hmembers : ∀ m ∈ members, ∃ t, WritesTree indent m.2 t := by
      refine fun m hm => ih m hm fun e he => hchunk e ?_
      have hmem : e ∈ members.flatMap Write.memberEvents :=
        List.mem_flatMap_of_mem hm (List.mem_cons_of_mem _ he)
      simp [hmem]
    choose! tree htree using hmembers
    have hparts : ∀ v ∈ members.map fun m => (m.1, m.2, tree m), WritesTree indent v.2.1 v.2.2 :=
      List.forall_mem_map.mpr htree
    have hobject := writesTree_object hi hparts
    rw [List.flatMap_map] at hobject
    exact ⟨_, hobject⟩

theorem documents_of_isValue {es : List Write} {w : Writer} (h : Write.IsValue es)
    (hf : ∀ e ∈ es, e.HasFormat) (hw : writeAll {} es = (none, w)) :
    ∃ t : Tree, t.Documents w.sink.text := by
  obtain ⟨x, hall, -⟩ := acceptsAll_of_writeAll ⟨rfl, rfl⟩ hf hw
  obtain ⟨t, hwrites⟩ := exists_writesTree Value.blank_nil h hall.chunk
  obtain ⟨y, hy, hwrites⟩ := hwrites ([], false)
  obtain ⟨w', hw', -, -, -, htext⟩ := hwrites {} rfl rfl rfl
  obtain rfl : w' = w := by simpa [hw'] using hw
  have hsink : w'.sink.text = y := by simpa [lead, Sink.text] using htext
  exact ⟨t, [], y, [], by simp [hsink], Value.blank_nil, hy, Value.blank_nil⟩

end Writer

end Json

end WireSchema
