import Std.Time.DateTime.Timestamp
import WireSchema.CommandLine.Run

/-!
# The command

Reads the files that a run looks at, runs the command on them, and then writes what has changed and
prints what there is to print.
-/

namespace WireSchema.Main

def bytes (t : Text) : ByteArray := ⟨t.toArray⟩

/-- The text of a string, as the system gives it. -/
def given (s : String) : Text := s.toUTF8.toList

def look (w : Workspace) (path : Text) : IO Workspace := do
  match path.toString? with
  | none => return w
  | some name =>
    try
      return w.place path (← IO.FS.readBinFile name).toList
    catch e =>
      match e with
      | .inappropriateType none _ _ => return w.placeDirectory path
      | _ => return w

/-- The workspace with the files at some paths and on the way to them. -/
def lookAll (paths : List Text) : IO Workspace :=
  (paths.flatMap Path.along).foldlM look {}

/-- The values of the variables that have one. -/
def lookUp (names : List Text) : IO Environment := do
  let found ← names.filterMapM fun name => do
    match name.toString? with
    | none => return none
    | some s => return (← IO.getEnv s).map fun value => (name, given value)
  return ⟨found⟩

def now : IO Moment := return ⟨(← Std.Time.Timestamp.now).toSecondsSinceUnixEpoch.val⟩

/-- Writes the files that a run has changed, and prints what it has to print. -/
def finish (before : Workspace) (r : CommandLine.Result) : IO Unit := do
  for (p, t) in before.changes r.workspace do
    match (Place.toPath p).toString?, (Place.toPath (Place.parent p)).toString? with
    | some file, some directory =>
      IO.FS.createDirAll directory
      IO.FS.writeBinFile file (bytes t)
    | _, _ => pure ()
  let stdout ← IO.getStdout
  stdout.write (bytes r.output)
  stdout.flush
  let stderr ← IO.getStderr
  stderr.write (bytes r.messages)
  stderr.flush

/-- Looks at the watched files again and again. -/
partial def keepWatching (s : CommandLine.Watch) (before : Workspace) : IO Unit := do
  IO.sleep 100
  let moment ← now
  let s := { s with log := { s.log with moment } }
  let settings ← lookAll (CommandLine.paths s.call before)
  let after ← lookAll (CommandLine.paths s.call settings)
  let (s, r) := s.step before after
  finish after r
  keepWatching s r.workspace

/-- The call with the environment that the settings speak of. -/
def completed (call : CommandLine.Call) : IO CommandLine.Call := do
  let w ← lookAll (CommandLine.paths call {})
  let names := w.files.flatMap fun f => Environment.names f.2
  let environment ← lookUp ([Settings.levelVariable, Settings.formatVariable,
    CommandLine.Call.colorVariable, CommandLine.Call.terminalVariable] ++ names)
  return { call with environment }

end WireSchema.Main

open WireSchema in
/-- Runs the command with the words of the command line. -/
def main (args : List String) : IO UInt32 := do
  let call ← Main.completed {
    words := args.map Main.given
    moment := ← Main.now
    isTerminal := ← (← IO.getStderr).isTty
    isOutputTerminal := ← (← IO.getStdout).isTty }
  let settings ← Main.lookAll (CommandLine.paths call {})
  let before ← Main.lookAll (CommandLine.paths call settings)
  let r := CommandLine.run call before
  Main.finish before r
  match CommandLine.task call before, r.status with
  | .ok (.watch s), 0 => Main.keepWatching s r.workspace
  | _, _ => pure ()
  return r.status.toUInt32
