import WireSchema.Proofs.Codec.Agreement
import WireSchema.Proofs.Codec.RoundTrip
import WireSchema.Proofs.Json.StrictReading

/-!
# The dialects agree on JSON

A text that is a JSON document is read as the tokens of the document in either dialect, and then the
text is at its end for good. So the two sources agree, and whatever is decoded from the text, or fails
to be, is the same in both. The texts that the writer makes of values are such documents, whatever
blanks it indents them with.
-/

namespace WireSchema

open Json (Tree Blank)

/-! ## Documents -/

namespace Json

theorem ends_of_blank {x : Text} (h : Blank x) : Lenient.Ends x := by
  rintro b hb
  have hmem : b ∈ x := List.mem_of_mem_head? hb
  rcases h b hmem with rfl | rfl | rfl | rfl <;> rfl

theorem Lenient.ended {x : Text} (h : Blank x) :
    (Lenient.standing x []).Ended (.exhausted .clean) := by
  have hscan (e : Bool) : scan e x = (.error (.exhausted .clean), [], true) := by
    have happend := scan_append (all_skipped_of_blank h) e []
    rwa [List.append_nil] at happend
  have hnext : (standing x []).next = (.error (.exhausted .clean), .lenient ⟨[], true, []⟩) := by
    simp only [standing, Source.next, next, hscan]
  exact .of_next hnext rfl

theorem Strict.ended {x : Text} (h : Blank x) {s : Source}
    (hs : Place.Holds ⟨x, .value, [], []⟩ s) : s.Ended (.exhausted .clean) := by
  obtain ⟨offset, last, rfl⟩ := hs
  have hnext : (Source.strict { rest := x, offset, last }).next =
      (.error (.exhausted .clean), .strict { rest := x, offset, last }) := by
    rw [Source.next, next_blank h]
    rfl
  exact .of_next hnext hnext

theorem Lenient.emits_document {t : Tree} {x : Text} (h : t.Documents x) :
    ∃ s, (Source.ofJson .lenient x).Emits t.tokens s ∧ s.Ended (.exhausted .clean) := by
  obtain ⟨before, y, after, rfl, hb, hy, ha⟩ := h
  have hawaits : AwaitsValue [] := by simp [AwaitsValue]
  exact ⟨_, readsTree t (all_skipped_of_blank hb) hy hawaits (ends_of_blank ha), ended ha⟩

theorem Strict.emits_document {t : Tree} {x : Text} (h : t.Documents x) :
    ∃ s, (Source.ofJson .strict x).Emits t.tokens s ∧ s.Ended (.exhausted .clean) := by
  obtain ⟨before, y, after, rfl, hb, hy, ha⟩ := h
  have hawaits : Lenient.AwaitsValue [] := by simp [Lenient.AwaitsValue]
  have hleads : Place.Leads ⟨before ++ (y ++ after), .value, [], []⟩ t.tokens
      ⟨after, .value, [], []⟩ :=
    readsTree t (.blank .value hb) rfl hy hawaits (ends_of_blank ha)
  obtain ⟨s, hemits, hs⟩ := hleads (Source.ofJson .strict (before ++ (y ++ after))) ⟨0, _, rfl⟩
  exact ⟨s, hemits, ended ha hs⟩

theorem emits_document {t : Tree} {x : Text} (h : t.Documents x) (d : Dialect) :
    ∃ s, (Source.ofJson d x).Emits t.tokens s ∧ s.Ended (.exhausted .clean) := by
  cases d with
  | lenient => exact Lenient.emits_document h
  | strict => exact Strict.emits_document h

theorem drain_document {t : Tree} {x : Text} (h : t.Documents x) (d : Dialect) :
    ∃ located s, (Source.ofJson d x).drain = (located, .exhausted .clean, s) ∧
      located.map (·.token) = t.tokens := by
  obtain ⟨s, hemits, hended⟩ := emits_document h d
  obtain ⟨s₁, hnext⟩ := hended.next
  obtain ⟨located, hdrain, htokens⟩ := hemits.drain hnext
  exact ⟨located, s₁, hdrain, htokens⟩

theorem agrees_document {t : Tree} {x : Text} (h : t.Documents x) (d d' : Dialect) :
    (Source.ofJson d x).Agrees (Source.ofJson d' x) := by
  obtain ⟨s, hemits, hended⟩ := emits_document h d
  obtain ⟨s', hemits', hended'⟩ := emits_document h d'
  exact .of_emits hemits hemits' (hended.agrees hended')

end Json

/-! ## What the writer makes of values -/

namespace Value

/-- Every value but for floats that are not finite: numbers of every kind, well-formed texts, arrays,
and objects as lists of names and values in order, where names may be empty or come again. -/
inductive Standard : Value → Prop
  | bool (b : Bool) : Standard (.bool b)
  | integer (n : Int) : Standard (.integer n)
  | float {f : BinaryFormat} {significand : Nat} {exponent : Int} (negative : Bool) :
      f = .single ∨ f = .double → Binary.Canonical f significand exponent →
      Standard (.float f (.finite negative significand exponent))
  | decimal (d : Decimal) : Standard (.decimal d)
  | text {t : Text} : t.isUtf8 = true → Standard (.text t)
  | array {items : List (Option Value)} :
      (∀ v, some v ∈ items → Standard v) → Standard (.array items)
  | object {fields extra : List (Text × Option Value)} :
      (∀ e ∈ present fields ++ extra, e.1.isUtf8 = true) →
      (∀ key v, (key, some v) ∈ present fields ++ extra → Standard v) →
      Standard (.object fields extra)

theorem Standard.writable {v : Value} (h : Standard v) : Writable v := by
  induction h with
  | bool b => exact .bool b
  | integer n => exact .integer n
  | decimal d => exact .decimal d
  | text ht => exact .text ht
  | array _ ih => exact .array ih
  | @float f significand exponent negative hf hc =>
    have hbounded : f.Bounded := by
      rcases hf with rfl | rfl
      · exact Binary.bounded_single
      · exact Binary.bounded_double
    exact .float rfl (Binary.isNumber_toText negative hbounded hc)
  | object hkeys _ ih => exact .object hkeys ih

theorem WritesTree.documents_writeAll {v : Option Value} {indent : Text} (h : WritesTree indent v) :
    ∃ w, Json.Writer.writeAll { indent } (optionEvents v) = (none, w) ∧
      (optionTree v).Documents w.sink.text := by
  obtain ⟨y, hy, hwrites⟩ := h ([], false)
  obtain ⟨w, hw, -, -, -, htext⟩ := hwrites { indent } rfl rfl rfl
  have hsink : w.sink.text = y := by simpa [Json.Writer.lead, Sink.text] using htext
  exact ⟨w, hw, [], y, [], by simp [hsink], blank_nil, hy, blank_nil⟩

theorem documents_writeAll {v : Option Value} (hv : ∀ u, v = some u → u.Standard) {indent : Text}
    (hi : Blank indent) :
    ∃ w, Json.Writer.writeAll { indent } (optionEvents v) = (none, w) ∧
      (optionTree v).Documents w.sink.text := by
  have hwrites : WritesTree indent v := by
    cases v with
    | none => exact writesTree_scalar rfl rfl rfl
    | some u => exact (hv u rfl).writable.writesTree hi
  exact hwrites.documents_writeAll

/-- **Readers undo the writer.** Every value is written without a failure, compact or indented by any
blanks, and in either dialect the text is drained of exactly the tokens of the value's document, up to
a clean end. -/
theorem drain_writeAll {v : Option Value} (hv : ∀ u, v = some u → u.Standard) {indent : Text}
    (hi : Blank indent) :
    ∃ w, Json.Writer.writeAll { indent } (optionEvents v) = (none, w) ∧
      ∀ d : Dialect, ∃ located s,
        (Source.ofJson d w.sink.text).drain = (located, .exhausted .clean, s) ∧
        located.map (·.token) = (optionTree v).tokens := by
  obtain ⟨w, hw, hdocument⟩ := documents_writeAll hv hi
  exact ⟨w, hw, Json.drain_document hdocument⟩

/-- A null, numbers, and an object that has an empty name twice. -/
def assorted : Value :=
  .array [none, some (.integer (-3)), some (.decimal ⟨150, -2⟩),
    some (.float .double (.finite true 7205759403792794 (-56))),
    some (.object [] [("", some (.text "\"\n\"")), ("é", none), ("", some (.array []))])]

theorem standard_assorted : assorted.Standard := by
  have hobject : Standard (.object [] [("", some (.text "\"\n\"")), ("é", none),
      ("", some (.array []))]) := by
    refine .object (by simp [present, Text.isUtf8_ofString]) ?_
    simp only [present, List.filter_nil, List.nil_append, List.mem_cons, Prod.mk.injEq,
      List.not_mem_nil, or_false]
    rintro key v (⟨-, ⟨⟩⟩ | ⟨-, ⟨⟩⟩ | ⟨-, ⟨⟩⟩)
    · exact .text (Text.isUtf8_ofString _)
    · exact .array (by simp)
  refine .array ?_
  simp only [List.mem_cons, reduceCtorEq, Option.some.injEq, List.not_mem_nil, or_false, false_or]
  rintro v (rfl | rfl | rfl | rfl)
  · exact .integer _
  · exact .decimal _
  · exact .float true (.inr rfl) ⟨by decide, by decide, by decide, by decide⟩
  · exact hobject

theorem drain_writeAll_assorted :
    assorted.Standard ∧ Blank "\n\t " ∧
    ∃ w, Json.Writer.writeAll { indent := "\n\t " } (optionEvents (some assorted)) = (none, w) ∧
      ∀ d : Dialect, ∃ located s,
        (Source.ofJson d w.sink.text).drain = (located, .exhausted .clean, s) ∧
        located.map (·.token) = (optionTree (some assorted)).tokens := by
  have hv : ∀ u, some assorted = some u → u.Standard := by
    rintro _ ⟨⟩
    exact standard_assorted
  have hindent : Blank "\n\t " := by
    have hbytes : ("\n\t " : Text) = [0x0A, 0x09, 0x20] := rfl
    simp [Blank, hbytes]
  exact ⟨standard_assorted, hindent, drain_writeAll hv hindent⟩

end Value

/-! ## Decoding -/

def Reader.ofJson (d : Dialect) (limits : Limits) (x : Text) : Reader :=
  .enforce limits { source := .ofJson d x }

theorem Reader.enforce_fresh (limits : Limits) (s : Source) :
    enforce limits { source := s } = { source := s.withLimits limits } := by
  unfold enforce Source.withLimits
  cases limits.enabled <;> rfl

theorem Reader.agrees_ofJson {d d' : Dialect} {x : Text}
    (h : (Source.ofJson d x).Agrees (Source.ofJson d' x)) (limits : Limits) :
    (ofJson d' limits x).current = (ofJson d limits x).current ∧
      (ofJson d limits x).source.Agrees (ofJson d' limits x).source := by
  rw [ofJson, ofJson, enforce_fresh, enforce_fresh]
  exact ⟨rfl, h.withLimits limits⟩

namespace Codec

/-- **The dialects agree.** A JSON document, with blanks around it or without, is drained in either
dialect of the same tokens up to a clean end. Decoding it, as one object or as a sequence of objects,
under any limits and into any target, gives the same result in both. -/
theorem dialects_agree {t : Tree} {x : Text} (h : t.Documents x) :
    (∀ d : Dialect, ∃ located s, (Source.ofJson d x).drain = (located, .exhausted .clean, s) ∧
      located.map (·.token) = t.tokens) ∧
    ∀ (d d' : Dialect) (m : Model) (o : Object) (limits : Limits),
      (∀ target,
        (decode m o target (Reader.ofJson d limits x)).failure =
          (decode m o target (Reader.ofJson d' limits x)).failure ∧
        (decode m o target (Reader.ofJson d limits x)).target =
          (decode m o target (Reader.ofJson d' limits x)).target) ∧
      (decodeStream m o (Reader.ofJson d limits x)).1 =
        (decodeStream m o (Reader.ofJson d' limits x)).1 ∧
      (decodeStream m o (Reader.ofJson d limits x)).2.1 =
        (decodeStream m o (Reader.ofJson d' limits x)).2.1 := by
  refine ⟨Json.drain_document h, ?_⟩
  intro d d' m o limits
  obtain ⟨hcurrent, hagrees⟩ := Reader.agrees_ofJson (Json.agrees_document h d' d) limits
  refine ⟨?_, decodeStream_agrees m o hcurrent hagrees⟩
  intro target
  exact decode_agrees m o target hcurrent hagrees

/-- An invoice with a weight, no lines but an absent one, and a note whose name and text are no plain
characters. -/
def noteTree : Tree :=
  .object [("weight", .number "-1.5E+3"), (Json.utf8 '😀' ++ [], .string (Json.utf8 '�' ++ [])),
    ("lines", .array [.null])]

/-- The name of the note is a pair of surrogates, its text a byte that begins no character. -/
def noteText : Text :=
  ("\t\x7b\"weight\" :-1.5E+3, \"\\ud83d\\uDE00\":\"" : Text) ++ [0xFF] ++
    ("\",\"lines\":[ null]\x7d\n" : Text)

theorem documents_noteText : noteTree.Documents noteText := by
  have hblank {b : UInt8} (h : b = 0x20 ∨ b = 0x09 ∨ b = 0x0A) : Blank [b] := by
    simp only [Blank, List.mem_singleton, forall_eq]
    tauto
  have hdigit {d : UInt8} (h : Text.isDigit d = true) : Json.IsDigits [d] := by
    simpa [Json.IsDigits] using h
  have hnumber : Json.IsNumber "-1.5E+3" :=
    ⟨"-", "1", ".5", "E+3", rfl, .inr rfl, hdigit rfl, by decide +kernel,
      .inr ⟨"5", rfl, hdigit rfl⟩, .inr ⟨0x45, "+", "3", rfl, .inr rfl, .inr (.inl rfl), hdigit rfl⟩⟩
  have hname : Json.SpellsQuoted (Json.utf8 '😀' ++ []) "\"\\ud83d\\uDE00\"" :=
    ⟨"\\ud83d\\uDE00", rfl, .pair (by decide +kernel) (by decide +kernel) .nil⟩
  have hnote : (Tree.string (Json.utf8 '�' ++ [])).Spells [0x22, 0xFF, 0x22] :=
    ⟨[0xFF], rfl, .stray (by decide) rfl .nil⟩
  have hlines : (Tree.array [.null]).Spells "[ null]" :=
    ⟨" null", rfl, " ", "null", [], rfl, hblank (.inl rfl), rfl, Value.blank_nil⟩
  refine ⟨"\t", _, "\n", ?_, hblank (.inr (.inl rfl)), ⟨_, rfl, [], _, " ", [], _, _, rfl,
    Value.blank_nil, Json.spells_stringText (Text.isUtf8_ofString _), hblank (.inl rfl),
    Value.blank_nil, ⟨rfl, hnumber⟩, [], " ", _, [], [], _, _, rfl, Value.blank_nil,
    hblank (.inl rfl), hname, Value.blank_nil, Value.blank_nil, hnote, [], [], _, [], [], _, [], rfl,
    Value.blank_nil, Value.blank_nil, Json.spells_stringText (Text.isUtf8_ofString _),
    Value.blank_nil, Value.blank_nil, hlines, Value.blank_nil⟩, hblank (.inr (.inr rfl))⟩
  decide +kernel

theorem dialects_agree_noteText :
    noteTree.Documents noteText ∧
    (∃ located s, (Source.ofJson .strict noteText).drain = (located, .exhausted .clean, s) ∧
      located.map (·.token) = noteTree.tokens) ∧
    (decode invoices invoiceObject (some (Target.empty invoiceObject))
      (Reader.ofJson .strict { maxDepth := 2 } noteText)).failure.isNone = true ∧
    (decode invoices invoiceObject (some (Target.empty invoiceObject))
        (Reader.ofJson .strict { maxDepth := 2 } noteText)).target =
      (decode invoices invoiceObject (some (Target.empty invoiceObject))
        (Reader.ofJson .lenient { maxDepth := 2 } noteText)).target := by
  obtain ⟨hdrain, hdecode⟩ := dialects_agree documents_noteText
  exact ⟨documents_noteText, hdrain .strict, by decide +kernel,
    ((hdecode .strict .lenient invoices invoiceObject _).1 _).2⟩

end Codec

end WireSchema
