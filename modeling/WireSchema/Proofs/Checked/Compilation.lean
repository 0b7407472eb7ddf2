import WireSchema.Compile
import WireSchema.Proofs.Checked.Emission
import WireSchema.Proofs.Checked.Resolution
import WireSchema.Proofs.Source.Declarations

/-!
# Compilation is never stopped

The checked reading, resolution and emission put together. What resolution gives is in range for the
emission: positions and names were checked two stages before they are used. So whatever the schema
and the options, compilation comes to an end with a file or with an error that it reports, and never
by an access out of range, an empty name or a line without a place.
-/

namespace WireSchema

/-- The model of a schema, or why there is none: what compilation does before it emits. -/
def resolved (schema : Text) (opt : CompileOptions) : Except Failure Model := do
  let (package, serializer) ← Class.parse opt.qualifiedName
  let access ← Access.parse opt.access
  let ds ← Schema.parse schema
  (Model.resolve ds { package, serializer, access, makeTypes := opt.makeTypes }).mapError
    ResolveError.toFailure

theorem outcome_eq (schema : Text) (opt : CompileOptions) : (compile schema opt).2 = (do
    let m ← resolved schema opt
    Source.generate m opt.source) := by
  unfold compile resolved
  cases Class.parse opt.qualifiedName with
  | error f => rfl
  | ok names =>
    cases Access.parse opt.access with
    | error f => rfl
    | ok access =>
      cases Schema.parse schema with
      | error f => rfl
      | ok ds =>
        simp only [bind, Except.bind, pure, Except.pure]
        cases Model.resolve ds ⟨names.1, names.2, access, opt.makeTypes⟩ with
        | error e => rfl
        | ok m =>
          simp only [Except.mapError]
          cases Source.generate m opt.source <;> rfl

namespace Checked

/-! ## Models in range -/

theorem ne_nil_of_isIdentifier {t : Text} (h : Names.isIdentifier t = true) : t ≠ [] := by
  rintro rfl
  simp [Names.isIdentifier, chars_eq_nil_iff.mpr rfl] at h

theorem inRange_of_resolve {ds : List Schema.Declaration} {opt : ModelOptions} {m : Model}
    (h : Model.resolve ds opt = .ok m) (hserializer : opt.serializer ≠ []) : InRange m := by
  obtain ⟨hos, hlength⟩ := Model.arena_of_resolve h
  have hids : ∀ o ∈ m.objects, Has m o.id := by
    intro o ho
    obtain ⟨i, hi⟩ := List.mem_iff_getElem?.mp ho
    rw [Has, Model.id_eq_of_resolve h hi]
    exact (List.getElem?_eq_some_iff.mp hi).1
  have helem : ∀ o ∈ m.objects, ∀ a ∈ o.slots, HasElem m a.elem := by
    intro o ho a ha
    cases helem : a.elem with
    | scalar s => trivial
    | object id =>
      obtain ⟨b, hb, -⟩ := hos.concrete_of_elem hlength ho ha helem
      exact (List.getElem?_eq_some_iff.mp hb).1
  refine ⟨?_, fun o ho => ?_, hids, fun o ho a ha => ⟨?_, helem o ho a ha⟩, fun c hc => ⟨?_, ?_⟩,
    fun id hid => ?_⟩
  · obtain ⟨-, os, cs, -, rfl⟩ := Model.resolve_eq_ok_iff.mp h
    exact hserializer
  · have hname : o.typeName ∈ ds.map fun d => Names.lastSegment d.name :=
      Model.map_typeName_of_resolve h ▸ List.mem_map_of_mem ho
    obtain ⟨d, hd, hname⟩ := List.mem_map.mp hname
    exact ne_nil_of_isIdentifier (hname ▸ (Model.names_of_resolve h).1 d hd)
  · obtain ⟨i, hi⟩ := List.mem_iff_getElem?.mp ho
    obtain ⟨b, hb, -⟩ := hos.mem_slots_origin (Model.names_nodup h) hi ha
    exact (List.getElem?_eq_some_iff.mp hb).1
  · rw [(Model.catalogue_of_resolve h).codecs, List.mem_flatMap] at hc
    obtain ⟨o, ho, hc⟩ := hc
    obtain ⟨-, f, -, hcodec⟩ := Object.mem_codecs.mp hc
    obtain ⟨-, howner, -⟩ := Field.array_of_codec? hcodec
    exact howner ▸ hids o ho
  · obtain ⟨o, ho, a, ha, heq⟩ := Model.exists_slot_of_mem_arrays h hc
    exact heq ▸ helem o ho a ha
  · obtain ⟨-, os, cs, -, rfl⟩ := Model.resolve_eq_ok_iff.mp h
    dsimp only at hid
    split at hid
    · obtain ⟨o, ho, rfl⟩ := List.mem_map.mp hid
      exact hids o ho
    · cases hid

/-! ## All stages -/

def model (schema : Text) (opt : CompileOptions) : Checked Failure Model := do
  let (package, serializer) ← classOf opt.qualifiedName
  let access ← safe (Access.parse opt.access)
  let ds ← parse schema
  ExceptT.adapt ResolveError.toFailure
    (resolve ds { package, serializer, access, makeTypes := opt.makeTypes })

/-- The file of a schema, or why there is none. -/
def compile (schema : Text) (opt : CompileOptions) : Checked Failure Text := do
  let m ← model schema opt
  generate m opt.source

theorem ne_nil_of_class {t package serializer : Text}
    (h : Class.parse t = .ok (package, serializer)) : serializer ≠ [] :=
  ne_nil_of_isIdentifier (Class.isIdentifier_of_parse h)

theorem inRange_of_resolved {schema : Text} {opt : CompileOptions} {m : Model}
    (h : resolved schema opt = .ok m) : InRange m := by
  obtain ⟨names, hnames, h⟩ := bind_eq_ok_iff.mp h
  obtain ⟨access, -, h⟩ := bind_eq_ok_iff.mp h
  obtain ⟨ds, -, h⟩ := bind_eq_ok_iff.mp h
  exact inRange_of_resolve (mapError_eq_ok_iff.mp h) (ne_nil_of_class hnames)

theorem adapt_safe {ε ε' α : Type} (f : ε → ε') (x : Except ε α) :
    ExceptT.adapt f (safe x) = safe (x.mapError f) := by
  cases x <;> rfl

theorem compile_eq (schema : Text) (opt : CompileOptions) :
    compile schema opt = safe (WireSchema.compile schema opt).2 := by
  have hmodel : model schema opt = safe (resolved schema opt) := by
    rw [model, classOf_eq, parse_eq, resolved]
    refine safe_bind fun names _ => safe_bind fun access _ => safe_bind fun ds _ => ?_
    rw [resolve_eq, adapt_safe]
  rw [outcome_eq, compile, hmodel]
  exact safe_bind fun m hm => generate_eq (inRange_of_resolved hm) opt.source

end Checked

/-! ## What compilation reports -/

namespace Failure

/-- The failures that are answers of the compilation: something is wrong with the schema or with the
options. -/
def Reported : Failure → Prop
  | .schemaSyntax .. | .unresolvedType .. | .unsupportedFeature .. | .duplicateField .. => True
  | .plain _ | .generate (.plain _) | .generate (.malformedSource _) => True
  | _ => False

end Failure

def Reports {α : Type} (x : Except Failure α) : Prop := ∀ f, x = .error f → f.Reported

namespace Reports

variable {α β : Type}

theorem error {f : Failure} (h : f.Reported) : Reports (.error f : Except Failure α) :=
  fun _ hf => Except.error.inj hf ▸ h

theorem ok (a : α) : Reports (.ok a) := by
  intro f h
  cases h

theorem bind {x : Except Failure α} {g : α → Except Failure β} (hx : Reports x)
    (hg : ∀ a, x = .ok a → Reports (g a)) : Reports (x >>= g) := by
  cases x with
  | error f => exact error (hx f rfl)
  | ok a => exact hg a rfl

end Reports

theorem reports_class (t : Text) : Reports (Class.parse t) := by
  unfold Class.parse
  dsimp only
  split
  · exact .error trivial
  · exact .error trivial
  · exact .error trivial
  split
  · exact .error trivial
  split
  · exact .error trivial
  · exact .ok _

theorem reports_access (t : Text) : Reports (Access.parse t) := by
  unfold Access.parse
  split
  · exact .ok _
  split
  · exact .ok _
  · exact .error trivial

theorem reports_parseLines (p : Schema.Progress) (n : Nat) (raws : List Text) :
    Reports (Schema.parseLines p n raws) := by
  induction raws generalizing p n with
  | nil => exact .ok _
  | cons raw raws ih =>
    unfold Schema.parseLines
    dsimp only
    split
    · exact .error trivial
    split
    · exact .error trivial
    · exact ih _ _

theorem reports_resolve (ds : List Schema.Declaration) (opt : ModelOptions) :
    Reports ((Model.resolve ds opt).mapError ResolveError.toFailure) := by
  cases Model.resolve ds opt with
  | error e => cases e <;> exact .error trivial
  | ok m => exact .ok m

theorem reports_resolved (schema : Text) (opt : CompileOptions) : Reports (resolved schema opt) :=
  (reports_class _).bind fun _ _ => (reports_access _).bind fun _ _ =>
    (reports_parseLines _ _ _).bind fun _ _ => reports_resolve _ _

theorem reports_formatted (m : Model) (source : Text) : Reports (Source.formatted m source) := by
  unfold Source.formatted
  split
  · exact .error trivial
  split
  · exact .ok _
  · exact .error trivial

theorem reports_generate {m : Model} (hm : m.serializer ≠ []) (source : Text) :
    Reports (Source.generate m source) := by
  have hserializer : (m.access == .anyone && m.serializer.isEmpty) = false := by simp [hm]
  cases hclash : Model.clash? [] m.reservedNames with
  | some clash =>
    rw [Source.generate, hserializer, hclash]
    exact .error trivial
  | none =>
    rw [Source.generate_of_clash?_eq_none hserializer hclash]
    exact reports_formatted m source

theorem reports_compile (schema : Text) (opt : CompileOptions) :
    Reports (compile schema opt).2 := by
  rw [outcome_eq]
  exact (reports_resolved schema opt).bind fun m hm =>
    reports_generate (Checked.inRange_of_resolved hm).serializer opt.source

/-- Whatever the schema and the options, compilation is not stopped by an access out of range, an empty
name or a line at a negative depth: it gives a file or reports an error. For the model of the schema,
every name that the emission asks for is there, and whatever part of the file is written, no label
stands outside every block, no block is closed that is not open, and the part ends at the depth it
starts with. -/
theorem compile_never_stopped (schema : Text) (opt : CompileOptions) :
    (Checked.compile schema opt).run = some (compile schema opt).2 ∧
      (∀ f, (compile schema opt).2 = .error f → f.Reported) ∧
      ∀ m, resolved schema opt = .ok m →
        Checked.body m = some (Source.Calls.body (.ofModel m) m).run ∧
        Source.Calls.AllPlaced m opt.source :=
  ⟨Checked.compile_eq schema opt, reports_compile schema opt, fun m hm =>
    ⟨Checked.body_eq (Checked.inRange_of_resolved hm), Source.Calls.allPlaced m opt.source⟩⟩

end WireSchema
