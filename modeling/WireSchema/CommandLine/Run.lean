import WireSchema.CommandLine.Watch

/-!
# Running the command

From the words of a command line to what is printed, the status, and the workspace afterwards.
-/

namespace WireSchema.CommandLine

inductive Task where
  | help
  | once (isCheck : Bool) (p : Plan) (log : Log.Logger)
  | watch (s : Watch)
  deriving DecidableEq, Repr

def task (call : Call) (w : Workspace) : Except RunFailure Task := do
  let a ← (Arguments.parse call.words).mapError fun fault => .usage fault.message
  if a.isOn .help then return .help
  match a.words with
  | word :: _ => throw (.usage ("unexpected argument " ++ Text.quoted word))
  | [] =>
    let (p, log) ← prepare call w a
    return if a.isOn .watch then .watch ⟨call, a, p, log⟩ else .once (a.isOn .check) p log

/-- Runs the command; of a watch this is the start. -/
def run (call : Call) (w : Workspace) : Result :=
  match task call w with
  | .error f => Result.failed { workspace := w } call f
  | .ok .help => { output := about ++ "\n" ++ usage, workspace := w }
  | .ok (.once isCheck p log) => runOnce call isCheck p log w
  | .ok (.watch s) => s.start w

/-- The files that a run looks at, as far as the workspace shows them: the settings, and when those
are there the schemas and the output files. -/
def paths (call : Call) (w : Workspace) : List Text :=
  match Arguments.parse call.words with
  | .error _ => []
  | .ok a =>
    let targets := match plan call.environment w a with
      | .ok p => p.targets
      | .error _ => []
    (a.text .config :: targets.flatMap fun t => [t.input, t.output]).filter (!·.isEmpty)

end WireSchema.CommandLine
