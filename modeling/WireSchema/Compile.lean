import WireSchema.Log
import WireSchema.Model.Class
import WireSchema.Model.Resolve
import WireSchema.Schema.Parser
import WireSchema.Source.Generate

/-!
# Compilation

From schema text to a source file, with a log of what was found on the way.
-/

namespace WireSchema

/-- How a schema is to be compiled. -/
structure CompileOptions where
  /-- The serializer, as `package.Name`. -/
  qualifiedName : Text
  /-- The word for the access. -/
  access : Text := []
  makeTypes : Bool := false
  /-- The name of the schema, for the head of the file. -/
  source : Text := []
  deriving DecidableEq, Repr

/-- The file of a schema, or why there is none, and the events up to there. -/
def compile (schema : Text) (opt : CompileOptions) : List Log.Event × Except Failure Text :=
  let prepared : Except Failure (ModelOptions × List Schema.Declaration) := do
    let (package, serializer) ← Class.parse opt.qualifiedName
    let access ← Access.parse opt.access
    let ds ← Schema.parse schema
    pure ({ package, serializer, access, makeTypes := opt.makeTypes }, ds)
  match prepared with
  | .error f => ([], .error f)
  | .ok (modelOptions, ds) =>
    let parsed : Log.Event := ⟨.debug, "parsed schema",
      [("source", .text opt.source), ("objects", .number ds.length)]⟩
    match Model.resolve ds modelOptions with
    | .error e => ([parsed], .error e.toFailure)
    | .ok m =>
      let resolved : Log.Event := ⟨.debug, "resolved schema",
        [("package", .text m.package), ("objects", .number m.objects.length),
          ("array_codecs", .number m.arrays.length), ("aggregates", .number m.aggregates.length)]⟩
      match Source.generate m opt.source with
      | .error f => ([parsed, resolved], .error f)
      | .ok code =>
        let generated : Log.Event := ⟨.debug, "generated source",
          [("bytes", .number code.length)]⟩
        ([parsed, resolved, generated], .ok code)

end WireSchema
