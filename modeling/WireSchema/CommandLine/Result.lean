import WireSchema.CommandLine.Plan
import WireSchema.Generation

/-!
# Results

What a run prints and says, its status, and the workspace it leaves.
-/

namespace WireSchema.CommandLine

/-- What a run leaves. -/
structure Result where
  status : Nat := 0
  /-- What is printed. -/
  output : Text := []
  /-- What is said about the run. -/
  messages : Text := []
  workspace : Workspace
  deriving DecidableEq, Repr

/-- The work on targets: what is printed and said, and how it fails. -/
def generate (call : Call) (isCheck : Bool) (log : Log.Logger) (w : Workspace)
    (targets : List CompileTarget) : Result × Option RunFailure :=
  let work := Generation.runTargets call.isCalledOff isCheck w targets
  let messages := log.lines work.events
  match work.result with
  | .error f => ({ messages, workspace := work.workspace }, some (.failure f))
  | .ok products =>
    let stale := Generation.stale products
    let result : Result := {
      output := if isCheck then [] else Generation.printed products
      messages := messages ++ stale.flatMap (·.staleReport call.hasColorReports)
      workspace := work.workspace }
    (result, if stale.isEmpty then none else some (.stale stale.length targets.length))

def Result.failed (r : Result) (call : Call) (f : RunFailure) : Result :=
  { r with status := f.status, messages := r.messages ++ f.report call.hasColorReports }

/-- The work of a plan that is done once. -/
def runOnce (call : Call) (isCheck : Bool) (p : Plan) (log : Log.Logger) (w : Workspace) : Result :=
  match generate call isCheck log w p.targets with
  | (r, none) => r
  | (r, some f) => r.failed call f

end WireSchema.CommandLine
