import WireSchema.Http
import WireSchema.Proofs.Codec.Failures
import WireSchema.Proofs.Json.Acceptance

/-!
# Answers to requests

A request whose body can be decoded goes on to the handler behind, once and with the object of the
body, and nothing else is answered. Any other request is answered right away: with the status for a
bad request and one document, which has the message of the failure and the field, if the failure
names one.
-/

namespace WireSchema.Http

open Json (Tree)

/-! ## The document of a failure -/

/-- A text as a member of a document to be written. -/
def textEntry (name value : Text) : Json.Writer.Entry :=
  (name, [.string value], .string value.mended)

/-- The members of the document of a failure. -/
def errorEntries (f : Failure) : List Json.Writer.Entry :=
  textEntry "error" f.message :: if f.field.isEmpty then [] else [textEntry "field" f.field]

theorem errorEvents_eq (f : Failure) : errorEvents f =
    .startObject :: (errorEntries f).flatMap Json.Writer.Entry.events ++ [.endObject] := by
  unfold errorEvents errorEntries
  split_ifs <;> rfl

theorem writesTree_textEntry (name value : Text) :
    Json.Writer.WritesTree [] (textEntry name value).2.1 (textEntry name value).2.2 :=
  Json.Writer.writesTree_scalar rfl (Json.spells_mended value)

theorem writesTree_errorEvents (f : Failure) : Json.Writer.WritesTree [] (errorEvents f)
    (.object ((errorEntries f).map Json.Writer.Entry.member)) := by
  rw [errorEvents_eq]
  refine Json.Writer.writesTree_object Value.blank_nil fun e he => ?_
  unfold errorEntries at he
  split_ifs at he
  · obtain rfl := List.mem_singleton.mp he
    exact writesTree_textEntry _ _
  · rcases List.mem_cons.mp he with rfl | he
    · exact writesTree_textEntry _ _
    · obtain rfl := List.mem_singleton.mp he
      exact writesTree_textEntry _ _

theorem hasFormat_errorEvents (f : Failure) : ∀ e ∈ errorEvents f, e.HasFormat := by
  unfold errorEvents
  split_ifs <;> simp [Write.HasFormat]

/-- The document of a failure is written to its end, in well-formed text. -/
theorem spells_writeError (f : Failure) :
    (writeError {} f).1 = none ∧ (writeError {} f).2.text.isUtf8 = true ∧
      (Tree.object ((errorEntries f).map Json.Writer.Entry.member)).Spells
        (writeError {} f).2.text := by
  obtain ⟨y, hy, hwrites⟩ := writesTree_errorEvents f ([], false)
  obtain ⟨w, hw, -, -, -, htext⟩ := hwrites {} rfl rfl rfl
  obtain ⟨x, hall, htext'⟩ :=
    Json.Writer.acceptsAll_of_writeAll ⟨rfl, rfl⟩ (hasFormat_errorEvents f) hw
  have heq : writeError {} f = (none, w.sink) := by simp only [writeError, hw]
  have hx : w.sink.text = x := htext'
  have hy' : w.sink.text = y := htext
  rw [heq]
  exact ⟨rfl, hx ▸ hall.isUtf8, hy' ▸ hy⟩

/-- The document where the failure names its field itself. -/
theorem object_errorEntries {f : Failure} (h : f.Direct) :
    Tree.object ((errorEntries f).map Json.Writer.Entry.member) =
      .object (("error", .string f.message.mended) ::
        if f.ownField = [] then [] else [("field", .string f.ownField)]) := by
  have hname (s : String) : (Text.ofString s).mended = Text.ofString s :=
    Json.mended_eq (Text.isUtf8_ofString s)
  unfold errorEntries
  rw [h.field_eq]
  by_cases hfield : f.ownField = []
  · simp [hfield, textEntry, Json.Writer.Entry.member, hname]
  · simp [hfield, textEntry, Json.Writer.Entry.member, hname, Json.mended_eq h.isUtf8]

/-! ## Requests -/

/-- A handler that keeps a record of what it is called with. -/
def recorded (answer : Context → Response) (c : Context) : StateM (List Context) Response := do
  modify (· ++ [c])
  return answer c

section

variable {μ : Type → Type} [Monad μ] {m : Model} {o : Object} {l : Limits} {body : Text} {r : Reader}

theorem decoding_of_ok {v : Codec.Target}
    (h : Codec.unmarshal m o l body (some (.empty o)) = ⟨none, some v, r⟩)
    (next : Context → μ Response) (c : Context) :
    decoding m o l body next c = next { c with decoded := some v } := by
  simp only [decoding, receive, h, Option.getD_some]

theorem decoding_of_failure {f : Failure} {v : Option Codec.Target}
    (h : Codec.unmarshal m o l body (some (.empty o)) = ⟨some f, v, r⟩)
    (next : Context → μ Response) (c : Context) :
    decoding m o l body next c = pure (.ofFailure 400 f) := by
  simp only [decoding, receive, h]

end

/-- **Every request is answered, by one of two.** Either the body is decoded, and the handler behind
answers, called once and with the decoded object; or decoding fails, the handler is not called, and
the answer is a document with the message of the failure and with the field that the failure names,
if it names one. -/
theorem decoding_answers (m : Model) (o : Object) (l : Limits) (body : Text) (c : Context) :
    (∃ v r, Codec.unmarshal m o l body (some (.empty o)) = ⟨none, some v, r⟩ ∧
      (∀ (μ : Type → Type) [Monad μ] (next : Context → μ Response),
        decoding m o l body next c = next { c with decoded := some v }) ∧
      ∀ answer, (decoding m o l body (recorded answer) c).run [] =
        (answer { c with decoded := some v }, [{ c with decoded := some v }])) ∨
    ∃ f v r reply, Codec.unmarshal m o l body (some (.empty o)) = ⟨some f, v, r⟩ ∧
      (∀ (μ : Type → Type) [Monad μ] (next : Context → μ Response),
        decoding m o l body next c = pure reply) ∧
      (∀ answer, (decoding m o l body (recorded answer) c).run [] = (reply, [])) ∧
      reply.status = 400 ∧ reply.contentType = jsonType ∧ reply.body.isUtf8 = true ∧
      (Tree.object (("error", .string f.message.mended) ::
        if f.ownField = [] then [] else [("field", .string f.ownField)])).Spells reply.body := by
  obtain ⟨hwent, htarget⟩ := Codec.sound_unmarshal m o l body (.empty o)
  rcases hx : Codec.unmarshal m o l body (some (.empty o)) with ⟨_ | f, v, r⟩
  · rw [hx] at htarget
    obtain ⟨v, rfl⟩ := Option.isSome_iff_exists.mp htarget
    refine .inl ⟨v, r, rfl, fun μ _ next => decoding_of_ok hx next c, fun answer => ?_⟩
    rw [decoding_of_ok hx]
    rfl
  · rw [hx] at hwent
    obtain ⟨-, hutf8, hspells⟩ := spells_writeError f
    rw [object_errorEntries hwent.direct] at hspells
    refine .inr ⟨f, v, r, .ofFailure 400 f, rfl, fun μ _ next => decoding_of_failure hx next c,
      fun answer => ?_, rfl, rfl, hutf8, hspells⟩
    rw [decoding_of_failure hx]
    rfl

end WireSchema.Http
