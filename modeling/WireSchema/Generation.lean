import WireSchema.Compile
import WireSchema.LineDiff.Report
import WireSchema.Settings.Basic
import WireSchema.Workspace

/-!
# Generation

Compiles targets in a workspace, one after another. The code of a target goes to its output file; in
a check it is compared with that file and nothing is written.
-/

namespace WireSchema.Generation

/-- What became of a target. -/
structure Product where
  target : CompileTarget
  code : Text
  /-- What has to change in the output file, if that was asked and anything has. -/
  difference : List LineDiff.Line := []
  deriving DecidableEq, Repr

/-- Work in a workspace: what there is to log, the workspace afterwards, and the result. -/
structure Work (α : Type) where
  events : List Log.Event
  workspace : Workspace
  result : Except Failure α

def compileTarget (w : Workspace) (t : CompileTarget) : List Log.Event × Except Failure Text :=
  match w.read t.input with
  | .error e => ([], .error e.toFailure)
  | .ok schema =>
    compile schema {
      qualifiedName := t.className
      access := t.access
      makeTypes := t.makeTypes
      source := Path.base t.input }

def existing? (w : Workspace) (path : Text) : Except FileError (Option Text) :=
  match w.read path with
  | .ok t => .ok (some t)
  | .error e => if e.fault = .notFound then .ok none else .error e

/-- Writes the code of a target to its output file, and makes the directory for it, which stays even
if the file cannot be written. -/
def writeOutput (w : Workspace) (t : CompileTarget) (code : Text) :
    Workspace × Except Failure Unit :=
  match w.makeDirectory (Path.dir t.output) with
  | .error e => (w, .error (.context "creating output dir" e.toFailure))
  | .ok w =>
    match w.write t.output code with
    | .error e => (w, .error (.context "writing output" e.toFailure))
    | .ok w => (w, .ok ())

/-- Brings the code of a target to its output file, or only compares the two. -/
def deliver (isCheck : Bool) (w : Workspace) (t : CompileTarget) (code : Text) : Work Product :=
  let named (level : Log.Level) (message : Text) (more : List (Text × Log.Value)) : Log.Event :=
    ⟨level, message, ("output", .text t.output) :: more⟩
  if t.output.isEmpty then ⟨[], w, .ok ⟨t, code, []⟩⟩
  else
    match existing? w t.output with
    | .error e => ⟨[], w, .error e.toFailure⟩
    | .ok before =>
      if before.getD [] == code then ⟨[named .debug "up to date" []], w, .ok ⟨t, code, []⟩⟩
      else if isCheck then
        ⟨[named .warn "stale" []], w, .ok ⟨t, code, LineDiff.report (before.getD []) code⟩⟩
      else
        match writeOutput w t code with
        | (after, .error f) => ⟨[], after, .error f⟩
        | (after, .ok _) =>
          ⟨[named .info "generated" [("bytes", .number code.length)]], after, .ok ⟨t, code, []⟩⟩

/-- Compiles one target and delivers its code. Every event names the schema. -/
def runTarget (isCheck : Bool) (w : Workspace) (t : CompileTarget) : Work Product :=
  let named (e : Log.Event) : Log.Event :=
    { e with fields := ("input", .text t.input) :: e.fields }
  match compileTarget w t with
  | (events, .error f) => ⟨events.map named, w, .error f⟩
  | (events, .ok code) =>
    let work := deliver isCheck w t code
    { work with events := (events ++ work.events).map named }

/-- Compiles targets one after another. The first failure is the last thing that happens; a run that
was called off does not start with any target. -/
def runTargets (isCalledOff isCheck : Bool) (w : Workspace) :
    List CompileTarget → Work (List Product)
  | [] => ⟨[], w, .ok []⟩
  | t :: rest =>
    if isCalledOff then ⟨[], w, .error (.plain "context canceled")⟩
    else
      let first := runTarget isCheck w t
      match first.result with
      | .error f => ⟨first.events, first.workspace, .error (.context t.input f)⟩
      | .ok p =>
        let others := runTargets isCalledOff isCheck first.workspace rest
        ⟨first.events ++ others.events, others.workspace, others.result.map (p :: ·)⟩

/-- How a product is reported when it differs from the file that is there. -/
def Product.staleReport (isColored : Bool) (p : Product) : Text :=
  if p.difference.isEmpty then []
  else
    "--- " ++ p.target.output ++ " (on disk)\n+++ " ++ p.target.output ++ " (generated)\n"
      ++ LineDiff.print isColored p.difference

/-- The products that differ from the file that is there. -/
def stale (ps : List Product) : List Product := ps.filter fun p => !p.difference.isEmpty

/-- The code of the products that go to no file. -/
def printed (ps : List Product) : Text :=
  (ps.filter fun p => p.target.output.isEmpty).flatMap (·.code)

end WireSchema.Generation
