import WireSchema.Codec.Encode
import WireSchema.Proofs.Source.MemberNames

/-!
# Failures of decoding

A failure may stand behind others, and the field it is about is looked for in all of them. When a
text is decoded, the field is found in the first one: what the text itself or a limit is to blame
for names no field, and whatever names a field has behind it, at most, a number that could not be
read.
The field is an exported name, so it is a well-formed text.
-/

namespace WireSchema

namespace Failure

/-- The field that a failure names itself, whatever stands behind it. -/
def ownField : Failure → Text
  | .unexpectedToken field _ => field
  | .nullElement field => field
  | .inField field _ => field
  | _ => []

/-- The field that a failure is about is the one it names itself, by a well-formed text. -/
structure Direct (f : Failure) : Prop where
  field_eq : f.field = f.ownField
  isUtf8 : f.ownField.isUtf8 = true

theorem direct_of_nil {f : Failure} (h : f.field = []) (hown : f.ownField = []) : f.Direct :=
  ⟨h.trans hown.symm, hown ▸ Text.isUtf8_ofString ""⟩

theorem Direct.report {f : Failure} (h : f.Direct) : (Reader.report f).Direct := by
  cases f with
  | exhausted how => exact direct_of_nil rfl rfl
  | _ => exact h

end Failure

/-! ## Reading a text -/

namespace Json.Lenient

theorem exists_of_scanWord {token : Token} {letters t : Text} {atEnd : Bool} {f : Failure}
    (h : (scanWord token letters t atEnd).1 = .error f) : ∃ text, f = .malformedJson text := by
  fun_induction scanWord token letters t atEnd with
  | case1 => cases h
  | case2 | case6 => exact ⟨_, (Except.error.inj h).symm⟩
  | case3 _ _ _ _ ih | case4 _ _ _ _ _ _ ih | case5 _ _ _ _ _ _ _ ih => exact ih h

theorem exists_of_scanString {seen t : Text} {f : Failure}
    (h : (scanString seen t).1 = .error f) : ∃ text, f = .malformedJson text := by
  fun_induction scanString seen t <;> grind [unexpectedEnd, invalidCharacter]

theorem direct_of_scan {atEnd : Bool} {t : Text} {f : Failure} (h : (scan atEnd t).1 = .error f) :
    f.Direct := by
  suffices hf : (∃ text, f = .malformedJson text) ∨ f = .exhausted .clean by
    rcases hf with ⟨text, rfl⟩ | rfl <;> exact Failure.direct_of_nil rfl rfl
  fun_induction scan atEnd t with
  | case1 | case12 => exact .inr (Except.error.inj h).symm
  | case2 _ _ _ ih => exact ih h
  | case3 | case4 | case5 | case6 | case7 => cases h
  | case8 _ _ _ _ _ _ _ _ _ r _ _ hstring =>
    cases r with
    | ok => cases h
    | error g =>
      obtain rfl := Except.error.inj h
      exact .inl (exists_of_scanString (congrArg Prod.fst hstring))
  | case9 | case10 | case11 => exact .inl (exists_of_scanWord h)
  | case13 => exact .inl ⟨_, (Except.error.inj h).symm⟩

theorem direct_of_next {s s' : Lenient} {f : Failure} (h : s.next = (.error f, s')) : f.Direct := by
  unfold next at h
  split at h
  · rename_i f' rest atEnd hscan
    obtain rfl := Except.error.inj (Prod.mk.inj h).1
    exact direct_of_scan (congrArg Prod.fst hscan)
  · cases h

end Json.Lenient

theorem Enforce.direct_of_step {l : Limits} {frames frames' : List Frame} {t : Token} {f : Failure}
    (h : step l frames t = (frames', some f)) : f.Direct := by
  suffices hf : (∃ place, f = .maxDepth (some place)) ∨ ∃ key place, f = .duplicateKey key place by
    rcases hf with ⟨place, rfl⟩ | ⟨key, place, rfl⟩ <;> exact Failure.direct_of_nil rfl rfl
  have hopen {make : Pointer → Frame} (h : openFrame l frames make = (frames', some f)) :
      ∃ place, f = .maxDepth (some place) := by
    unfold openFrame at h
    dsimp only at h
    split_ifs at h
    · exact ⟨_, (Option.some.inj (Prod.mk.inj h).2).symm⟩
    · cases h
  unfold step at h
  split at h
  · exact .inl (hopen h)
  · exact .inl (hopen h)
  · cases h
  · cases h
  · split at h
    · split_ifs at h
      · exact .inr ⟨_, _, (Option.some.inj (Prod.mk.inj h).2).symm⟩
      · cases h
    · cases h
  · cases h

namespace Source

/-- The source reads a text leniently, under limits or not. -/
def ReadsText : Source → Prop
  | .lenient _ => True
  | .limited _ _ inner => inner.ReadsText
  | _ => False

/-- Reading a text has gone on, or has failed directly. -/
inductive Went : Option Failure → Source → Prop
  | on {s : Source} : s.ReadsText → Went none s
  | failed {s : Source} {f : Failure} : s.ReadsText → f.Direct → Went (some f) s

theorem Went.readsText {x : Option Failure} {s : Source} (h : Went x s) : s.ReadsText := by
  cases h with
  | on hs => exact hs
  | failed hs => exact hs

theorem Went.direct {f : Failure} {s : Source} (h : Went (some f) s) : f.Direct := by
  cases h with
  | failed _ hf => exact hf

namespace ReadsText

variable {s s' : Source}

theorem next {x : Except Failure Located} (h : s.ReadsText) (hn : s.next = (x, s')) :
    s'.ReadsText := by
  induction s generalizing s' x with
  | lenient s =>
    rw [Source.next] at hn
    split at hn <;> cases hn <;> trivial
  | limited l frames inner ih =>
    rw [Source.next] at hn
    split at hn
    · rename_i inner' hi
      have hinner : inner'.ReadsText := ih h hi
      cases hn
      exact hinner
    · rename_i inner' hi
      have hinner : inner'.ReadsText := ih h hi
      split at hn <;> cases hn <;> exact hinner
  | _ => exact h.elim

theorem direct {f : Failure} (h : s.ReadsText) (hn : s.next = (.error f, s')) : f.Direct := by
  induction s generalizing s' with
  | lenient s =>
    rw [Source.next] at hn
    split at hn
    · cases hn
    · rename_i hs
      cases hn
      exact Json.Lenient.direct_of_next hs
  | limited l frames inner ih =>
    rw [Source.next] at hn
    split at hn
    · rename_i hi
      cases hn
      exact ih h hi
    · split at hn
      · rename_i hstep
        cases hn
        exact Enforce.direct_of_step hstep
      · cases hn
  | _ => exact h.elim

theorem skipLoop {fuel depth : Nat} {x : Option Failure} (h : s.ReadsText)
    (hs : Source.skipLoop fuel depth s = (x, s')) : Went x s' := by
  induction fuel generalizing depth s with
  | zero =>
    cases depth with
    | zero =>
      cases hs
      exact .on h
    | succ depth =>
      cases hs
      exact .failed h (Failure.direct_of_nil rfl rfl)
  | succ fuel ih =>
    cases depth with
    | zero =>
      cases hs
      exact .on h
    | succ depth =>
      rw [Source.skipLoop] at hs
      split at hs
      · rename_i hn
        cases hs
        exact .failed (h.next hn) (Failure.direct_of_nil rfl rfl)
      · rename_i hn
        cases hs
        exact .failed (h.next hn) (h.direct hn)
      · rename_i hn
        split_ifs at hs
        · exact ih (h.next hn) hs
        · exact ih (h.next hn) hs
        · exact ih (h.next hn) hs

theorem skipValue {first : Token} {x : Option Failure} (h : s.ReadsText)
    (hs : s.skipValue first = (x, s')) : Went x s' := by
  unfold Source.skipValue at hs
  split_ifs at hs
  · exact h.skipLoop hs
  · cases hs
    exact .on h

end ReadsText

end Source

namespace Reader

variable {r r' : Reader} {x : Option Failure}

theorem readsText_next {y : Except Failure Token} (h : r.source.ReadsText) (hn : r.next = (y, r')) :
    r'.source.ReadsText := by
  unfold next at hn
  split at hn
  · rename_i hs
    cases hn
    exact h.next hs
  · rename_i hs
    cases hn
    exact h.next hs

theorem direct_of_next {f : Failure} (h : r.source.ReadsText) (hn : r.next = (.error f, r')) :
    f.Direct := by
  unfold next at hn
  split at hn
  · cases hn
  · rename_i hs
    cases hn
    exact (h.direct hs).report

theorem went_skipContainer {first last : Token} (h : r.source.ReadsText)
    (hs : r.skipContainer first last = (x, r')) : Source.Went x r'.source := by
  unfold skipContainer at hs
  split at hs
  · rename_i hv
    cases hs
    have hwent := h.skipValue hv
    exact .failed hwent.readsText hwent.direct.report
  · rename_i hv
    cases hs
    exact h.skipValue hv

theorem went_skipValue (h : r.source.ReadsText) (hs : r.skipValue = (x, r')) :
    Source.Went x r'.source := by
  unfold skipValue at hs
  split at hs
  · exact went_skipContainer h hs
  · exact went_skipContainer h hs
  · cases hs
    exact .on h

theorem went_skip (h : r.source.ReadsText) (hs : r.skip = (x, r')) : Source.Went x r'.source := by
  unfold skip at hs
  split at hs
  · split at hs
    · rename_i hn
      cases hs
      exact .failed (readsText_next h hn) (direct_of_next h hn)
    · rename_i hn
      exact went_skipValue (readsText_next h hn) hs
  · exact went_skipValue h hs

theorem readsText_enforce (l : Limits) (t : Text) :
    (enforce l { source := .lenient { rest := t } }).source.ReadsText := by
  unfold enforce Source.withLimits
  split_ifs <;> trivial

end Reader

/-! ## Decoding -/

namespace Codec

open Source (Went)

def Got.failure? : Got → Option Failure
  | .failed f => some f
  | _ => none

/-- Decoding into a target has gone on or has failed directly, and the target is still there. -/
structure Outcome.Sound (x : Outcome) : Prop where
  went : Went x.failure x.reader.source
  target : x.target.isSome = true

section

variable (m : Model) (fuel : Nat)

/-- A value is read without a failure, or with a direct one. -/
def DirectValue : Prop :=
  ∀ {label : Text} {type : ElemType} {t : Token} {r r' : Reader} {x : Got},
    label.isUtf8 = true → r.source.ReadsText → decodeValue m label type t fuel r = (x, r') →
    Went x.failure? r'.source

/-- The same of the elements of an array. -/
def DirectItems : Prop :=
  ∀ {label : Text} {type : ElemType} {seen items : List (Option Value)} {r r' : Reader}
    {x : Option Failure},
    label.isUtf8 = true → r.source.ReadsText →
    decodeItems m label type seen fuel r = (x, items, r') → Went x r'.source

def DirectMember : Prop :=
  ∀ (o : Object) (name : Text) (target : Target) {r : Reader}, r.source.ReadsText →
    (decodeMember m o name fuel (some target) r).Sound

def DirectMembers : Prop :=
  ∀ (o : Object) (target : Target) {r : Reader}, r.source.ReadsText →
    (decodeMembers m o fuel (some target) r).Sound

end

/-- A number that could not be read, as the failure behind the name of a field. -/
def IsFault (f : Failure) : Prop := (∃ form t fault, f = .number form t fault) ∨ ∃ t, f = .plain t

theorem isFault_of_integer {bits : Nat} {t : Text} {f : Failure}
    (h : Integer.parse bits t = .error f) : IsFault f := by
  unfold Integer.parse at h
  split at h
  · cases h
  · exact .inl ⟨_, _, _, (Except.error.inj h).symm⟩

theorem isFault_of_binary {format : BinaryFormat} {t : Text} {f : Failure}
    (h : Binary.parse format t = .error f) : IsFault f := by
  unfold Binary.parse at h
  split at h
  · cases h
  · exact .inl ⟨_, _, _, (Except.error.inj h).symm⟩

theorem isFault_of_decimal {t : Text} {f : Failure} (h : readDecimal t = .error f) : IsFault f := by
  unfold readDecimal at h
  cases hparse : Decimal.parse t with
  | ok d =>
    rw [hparse] at h
    cases h
  | error message =>
    rw [hparse] at h
    exact .inr ⟨message, (Except.error.inj h).symm⟩

section

variable {label : Text} {s : Source}

theorem went_numeral {α : Type} {e : Except Failure α} (wrap : α → Value)
    (hlabel : label.isUtf8 = true) (hs : s.ReadsText) (he : ∀ {f}, e = .error f → IsFault f) :
    Went (numeral label wrap e).failure? s := by
  cases e with
  | ok x => exact .on hs
  | error f =>
    refine .failed hs ?_
    rcases he rfl with ⟨form, t, fault, rfl⟩ | ⟨message, rfl⟩ <;> exact ⟨rfl, hlabel⟩

theorem went_readScalar (sc : Scalar) (t : Token) (hlabel : label.isUtf8 = true)
    (hs : s.ReadsText) : Went (readScalar label sc t).failure? s := by
  unfold readScalar
  split
  · exact .on hs
  · exact .on hs
  · exact went_numeral _ hlabel hs isFault_of_integer
  · exact went_numeral _ hlabel hs isFault_of_integer
  · exact went_numeral _ hlabel hs isFault_of_decimal
  · exact went_numeral _ hlabel hs isFault_of_binary
  · exact went_numeral _ hlabel hs isFault_of_binary
  · exact .on hs

end

section Steps

variable {m : Model} {fuel : Nat}

theorem directValue_succ (hm : DirectMembers m fuel) : DirectValue m (fuel + 1) := by
  intro label type t r r' x hlabel hr h
  cases type with
  | scalar sc =>
    cases h
    exact went_readScalar sc t hlabel hr
  | object id =>
    simp only [decodeValue] at h
    split at h
    · rename_i o _
      have hsound := hm o (Target.empty o) hr
      split at h
      · rename_i hmembers
        rw [hmembers] at hsound
        cases h
        exact hsound.went
      · rename_i target r₁ hmembers
        rw [hmembers] at hsound
        obtain ⟨target, rfl⟩ := Option.isSome_iff_exists.mp hsound.target
        cases h
        exact .on hsound.went.readsText
    · cases h
      exact .on hr

theorem directItems_succ (hv : DirectValue m fuel) (hi : DirectItems m fuel) :
    DirectItems m (fuel + 1) := by
  intro label type seen items r r' x hlabel hr h
  simp only [decodeItems] at h
  split at h
  · rename_i hn
    cases h
    exact .failed (Reader.readsText_next hr hn) (Reader.direct_of_next hr hn)
  · rename_i hn
    cases h
    exact .on (Reader.readsText_next hr hn)
  · rename_i hn
    have hr := Reader.readsText_next hr hn
    split at h
    · exact hi hlabel hr h
    · cases h
      exact .failed hr ⟨rfl, hlabel⟩
  · rename_i hn
    have hr := Reader.readsText_next hr hn
    split at h
    · rename_i hval
      exact hi hlabel (hv hlabel hr hval).readsText h
    · rename_i hval
      cases h
      exact hv hlabel hr hval
    · rename_i hval
      have hr := (hv hlabel hr hval).readsText
      split at h
      · rename_i hskip
        cases h
        exact Reader.went_skip hr hskip
      · rename_i hskip
        exact hi hlabel (Reader.went_skip hr hskip).readsText h

theorem DirectValue.put {label : Text} {type : ElemType} {t : Token} {r : Reader} {target : Target}
    (put : Target → Value → Target) (hv : DirectValue m fuel) (hlabel : label.isUtf8 = true)
    (hr : r.source.ReadsText) :
    (match decodeValue m label type t fuel r with
      | (.value v, r) => store (some target) r (put · v)
      | (.refused, r) => ⟨some (.unexpectedToken label t.kind), some target, r⟩
      | (.failed e, r) => ⟨some e, some target, r⟩ : Outcome).Sound := by
  split
  · rename_i hval
    exact ⟨.on (hv hlabel hr hval).readsText, rfl⟩
  · rename_i hval
    exact ⟨.failed (hv hlabel hr hval).readsText ⟨rfl, hlabel⟩, rfl⟩
  · rename_i hval
    exact ⟨hv hlabel hr hval, rfl⟩

theorem directMember_succ (hv : DirectValue m fuel) (hi : DirectItems m fuel) :
    DirectMember m (fuel + 1) := by
  intro o name target r hr
  simp only [decodeMember]
  split
  · rename_i f _
    have hlabel := Names.isUtf8_exported f.name
    split
    · rename_i hn
      exact ⟨.failed (Reader.readsText_next hr hn) (Reader.direct_of_next hr hn), rfl⟩
    · rename_i hn
      exact ⟨.on (Reader.readsText_next hr hn), rfl⟩
    · rename_i hn
      have hr := Reader.readsText_next hr hn
      split
      · exact hv.put (fun target v => target.set f.key (some v)) hlabel hr
      · split_ifs with hbegin hnone
        · exact ⟨.failed hr ⟨rfl, hlabel⟩, rfl⟩
        · cases hnone
        · split
          · rename_i hitems
            exact ⟨.on (hi hlabel hr hitems).readsText, rfl⟩
          · rename_i hitems
            exact ⟨hi hlabel hr hitems, rfl⟩
  · split
    · exact ⟨Reader.went_skip hr rfl, rfl⟩
    · rename_i w _
      split
      · rename_i hn
        exact ⟨.failed (Reader.readsText_next hr hn) (Reader.direct_of_next hr hn), rfl⟩
      · rename_i hn
        exact ⟨.on (Reader.readsText_next hr hn), rfl⟩
      · rename_i hn
        exact hv.put (fun target v => target.insert name v) (Names.isUtf8_exported w.name)
          (Reader.readsText_next hr hn)

theorem directMembers_succ (ht : DirectMember m fuel) (hm : DirectMembers m fuel) :
    DirectMembers m (fuel + 1) := by
  intro o target r hr
  simp only [decodeMembers]
  split
  · rename_i hn
    exact ⟨.failed (Reader.readsText_next hr hn) (Reader.direct_of_next hr hn), rfl⟩
  · rename_i hn
    exact ⟨.on (Reader.readsText_next hr hn), rfl⟩
  · rename_i name r₁ hn
    have hsound := ht o name target (Reader.readsText_next hr hn)
    split
    · rename_i hmember
      rw [hmember] at hsound
      obtain ⟨target, rfl⟩ := Option.isSome_iff_exists.mp hsound.target
      exact hm o target hsound.went.readsText
    · exact hsound
  · rename_i hn
    have hr := Reader.readsText_next hr hn
    split
    · rename_i hskip
      exact ⟨Reader.went_skip hr hskip, rfl⟩
    · rename_i hskip
      exact hm o target (Reader.went_skip hr hskip).readsText

theorem direct_steps (m : Model) (fuel : Nat) :
    DirectMembers m fuel ∧ DirectMember m fuel ∧ DirectValue m fuel ∧ DirectItems m fuel := by
  induction fuel with
  | zero =>
    refine ⟨?_, ?_, ?_, ?_⟩
    · intro o target r hr
      exact ⟨.failed hr (Failure.direct_of_nil rfl rfl), rfl⟩
    · intro o name target r hr
      exact ⟨.failed hr (Failure.direct_of_nil rfl rfl), rfl⟩
    · intro label type t r r' x hlabel hr h
      cases h
      exact .failed hr (Failure.direct_of_nil rfl rfl)
    · intro label type seen items r r' x hlabel hr h
      cases h
      exact .failed hr (Failure.direct_of_nil rfl rfl)
  | succ fuel ih =>
    obtain ⟨hm, ht, hv, hi⟩ := ih
    exact ⟨directMembers_succ ht hm, directMember_succ hv hi, directValue_succ hm,
      directItems_succ hv hi⟩

end Steps

theorem sound_unmarshal (m : Model) (o : Object) (l : Limits) (t : Text) (target : Target) :
    (unmarshal m o l t (some target)).Sound := by
  have hr := Reader.readsText_enforce l t
  unfold unmarshal decode
  split
  · rename_i hn
    exact ⟨.failed (Reader.readsText_next hr hn) (Reader.direct_of_next hr hn), rfl⟩
  · rename_i hn
    exact ⟨.on (Reader.readsText_next hr hn), rfl⟩
  · rename_i hn
    exact (direct_steps m _).1 o target (Reader.readsText_next hr hn)
  · rename_i hn
    exact ⟨.failed (Reader.readsText_next hr hn) ⟨rfl, Text.isUtf8_ofString ""⟩, rfl⟩

end Codec

end WireSchema
