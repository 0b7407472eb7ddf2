import WireSchema.CommandLine.Arguments
import WireSchema.Log.Logger
import WireSchema.Settings.Load
import WireSchema.Workspace

/-!
# Plans

What the words of a command line, and the settings they name, ask for, and the ways in which a run
of the command can fail.
-/

namespace WireSchema.CommandLine

/-- How the command is called. -/
structure Call where
  words : List Text
  environment : Environment := {}
  moment : Moment
  /-- Was the run called off before it began? -/
  isCalledOff : Bool := false
  /-- Do messages go to a terminal? -/
  isTerminal : Bool := false
  /-- Does the output go to a terminal? -/
  isOutputTerminal : Bool := false
  deriving DecidableEq, Repr

namespace Call

/-- The variable by which the environment asks for no colours. -/
def colorVariable : Text := "NO_COLOR"

def terminalVariable : Text := "TERM"

def hasColorLog (call : Call) : Bool :=
  call.isTerminal && (call.environment.get colorVariable).isEmpty

/-- Are reports in colour? They are only if the output, too, goes to a terminal that can show it. -/
def hasColorReports (call : Call) : Bool :=
  call.hasColorLog && call.isOutputTerminal && call.environment.get terminalVariable != "dumb"

end Call

inductive RunFailure where
  /-- The command is called in a wrong way. -/
  | usage (message : Text)
  /-- Files differ from the code that should be in them. -/
  | stale (count total : Nat)
  | failure (f : Failure)
  deriving DecidableEq, Repr

namespace RunFailure

def message : RunFailure → Text
  | .usage m => m
  | .stale count total =>
    "generated code is out of date: " ++ Text.ofNat count ++ " of " ++ Text.ofNat total ++ " files"
  | .failure f => f.message

/-- What is said at the end of a run that fails. -/
def report (isColored : Bool) (f : RunFailure) : Text :=
  let shown := Text.styled isColored [.red, .bold]
  match f with
  | .usage m => shown ("error: " ++ m) ++ "\n" ++ CommandLine.usage
  | .stale count total => shown (RunFailure.stale count total).message ++ "\n"
  | .failure f => shown ("error: " ++ f.message) ++ "\n"

def status : RunFailure → Nat
  | .usage _ => 2
  | .stale .. | .failure _ => 1

end RunFailure

/-- What the words, and the settings they name, ask for. -/
structure Plan where
  targets : List CompileTarget
  logLevel : Text
  logFormat : Text
  deriving DecidableEq, Repr

/-- The flags that settings stand for. -/
def targetFlags : List Flag := [.input, .output, .className, .access, .makeTypes]

def flagTarget (a : Arguments) : CompileTarget where
  input := a.text .input
  output := a.text .output
  className := a.text .className
  access := a.text .access
  makeTypes := a.isOn .makeTypes

def loadSettings (env : Environment) (w : Workspace) (path : Text) : Except Failure Settings :=
  match w.read path with
  | .error e => .error (.context "read config" e.toFailure)
  | .ok t => Settings.parse env (Path.dir path) t

/-- What is asked for: one target by flags, or those of the settings. A flag on logging has the last
word. -/
def plan (env : Environment) (w : Workspace) (a : Arguments) : Except RunFailure Plan := do
  let path := a.text .config
  if path.isEmpty then
    if (a.text .input).isEmpty || (a.text .className).isEmpty then
      throw (.usage "--input and --class are required unless --config is given")
    return ⟨[flagTarget a], a.text .logLevel, a.text .logFormat⟩
  match targetFlags.find? a.isGiven with
  | some f => throw (.usage ("--" ++ f.name ++ " cannot be combined with --config"))
  | none =>
    let s ← (loadSettings env w path).mapError .failure
    return ⟨s.targets,
      if a.isGiven .logLevel then a.text .logLevel else s.level,
      if a.isGiven .logFormat then a.text .logFormat else s.format⟩

/-- The plan and the logger of a run, or why there is none. -/
def prepare (call : Call) (w : Workspace) (a : Arguments) :
    Except RunFailure (Plan × Log.Logger) := do
  if a.isOn .check && a.isOn .watch then
    throw (.usage "--check and --watch cannot be combined")
  let p ← plan call.environment w a
  let log ← (Log.Logger.ofWords call.isTerminal call.hasColorLog call.moment p.logLevel
    p.logFormat).mapError .usage
  if a.isOn .check && p.targets.any (·.output.isEmpty) then
    throw (.usage "--check needs an output file for every target")
  return (p, log)

end WireSchema.CommandLine
