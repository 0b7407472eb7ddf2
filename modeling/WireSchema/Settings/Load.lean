import WireSchema.Log
import WireSchema.Model.Class
import WireSchema.Path
import WireSchema.Settings.Decode

/-!
# Loading settings

From the text of a settings file to settings that hold together: variables are put in, the
environment has the last word on logging, gaps are filled, and the result is checked.
-/

namespace WireSchema.Settings

/-- A path seen from the directory of the settings, unless it is empty or absolute. -/
def located (dir p : Text) : Text :=
  if p.isEmpty || Path.isAbsolute p then p else Path.join dir p

/-- The variable that has the last word on the level of the log. -/
def levelVariable : Text := "CODECGEN_LOG_LEVEL"

/-- The variable that has the last word on the format of the log. -/
def formatVariable : Text := "CODECGEN_LOG_FORMAT"

/-- The settings with what the environment says about logging. -/
def overridden (env : Environment) (s : Settings) : Settings :=
  let level := env.get levelVariable
  let format := env.get formatVariable
  { s with
    level := if level.isEmpty then s.level else level
    format := if format.isEmpty then s.format else format }

/-- The settings with gaps filled and paths seen from the directory of the file. -/
def completed (dir : Text) (s : Settings) : Settings :=
  { level := if s.level.isEmpty then "info" else s.level
    format := if s.format.isEmpty then "auto" else s.format
    targets := s.targets.map fun t =>
      { t with input := located dir t.input, output := located dir t.output } }

def formats : List Text := ["auto", "console", "json"]

def targetName (i : Nat) : Text := "targets[" ++ Text.ofNat i ++ "]"

/-- Checks the targets from number `i` on; `outputs` holds the files that those before write, with
their numbers. -/
def checkTargets (i : Nat) (outputs : List (Text × Nat)) : List CompileTarget → Except Failure Unit
  | [] => .ok ()
  | t :: rest => do
    if t.input.isEmpty then
      .error (.plain (targetName i ++ ".input is required"))
    let _ ← (Class.parse t.className).mapError (.context (targetName i ++ ".class"))
    let _ ← (Access.parse t.access).mapError (.context (targetName i ++ ".access"))
    if t.output.isEmpty then checkTargets (i + 1) outputs rest
    else
      match outputs.lookup t.output with
      | some j =>
        .error (.plain (targetName j ++ " and " ++ targetName i ++ " both write " ++ t.output))
      | none => checkTargets (i + 1) ((t.output, i) :: outputs) rest

/-- Checks settings: the level and the format of the log, then the targets one by one. -/
def check (s : Settings) : Except Failure Unit := do
  let _ ← (Log.Level.parse s.level).mapError (.context "logging.level")
  if !formats.contains s.format then
    .error (.plain ("logging.format must be auto, console or json, got " ++ Text.quoted s.format))
  if s.targets.isEmpty then .error (.plain "no targets configured")
  checkTargets 0 [] s.targets

/-- The settings that a text holds, for a file in the directory `dir`. -/
def parse (env : Environment) (dir t : Text) : Except Failure Settings := do
  match ofYaml (env.expand t) with
  | none => .error (.malformedSettings "malformed document")
  | some s =>
    let s := (s.overridden env).completed dir
    s.check.mapError (.context "validate config")
    return s

end WireSchema.Settings
