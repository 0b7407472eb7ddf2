import WireSchema.CommandLine.Result

/-!
# Watching

Generates everything once, and again whenever the schemas or the settings change.
-/

namespace WireSchema.CommandLine

structure Watch where
  call : Call
  arguments : Arguments
  plan : Plan
  log : Log.Logger
  deriving DecidableEq, Repr

/-- The first of the files whose directory cannot be watched, by its fault. -/
def watchFault? (w : Workspace) (paths : List Text) : Option FileFault :=
  paths.findSome? fun path =>
    match w.locate (Path.dir (Path.clean path)) with
    | .error fault => some fault
    | .ok p => if w.isDirectory p || (w.fileAt? p).isSome then none else some .notFound

/-- Watching cannot start, or cannot go on. -/
def watchFailure (fault : FileFault) : Failure :=
  .plain ("watch directory: " ++ fault.message)

/-- The files that are watched: the schemas, and the settings if there are any. -/
def watched (a : Arguments) (p : Plan) : List Text :=
  let path := a.text .config
  p.targets.map (·.input) ++ (if path.isEmpty then [] else [path])

namespace Watch

def logged (s : Watch) (r : Result) (es : List Log.Event) : Result :=
  { r with messages := r.messages ++ s.log.lines es }

def failureEvent (message : Text) (f : RunFailure) : Log.Event :=
  ⟨.error, message, [("error", .text f.message)]⟩

def targetsEvent (s : Watch) (message : Text) : Log.Event :=
  ⟨.info, message, [("targets", .number s.plan.targets.length)]⟩

/-- Generates the code of targets; a failure is logged and watching goes on. -/
def generate (s : Watch) (w : Workspace) (targets : List CompileTarget) : Result :=
  match CommandLine.generate s.call false s.log w targets with
  | (r, none) => r
  | (r, some f) => s.logged r [failureEvent "generation failed" f]

/-- The start: everything is generated once. -/
def start (s : Watch) (w : Workspace) : Result :=
  match watchFault? w (watched s.arguments s.plan) with
  | some fault => Result.failed { workspace := w } s.call (.failure (watchFailure fault))
  | none => s.logged (s.generate w s.plan.targets) [s.targetsEvent "watching for changes"]

/-- Puts another plan in the place of the one that is watched, and generates everything. -/
def reload (s : Watch) (w : Workspace) : Watch × Result :=
  let idle : Result := { workspace := w }
  match CommandLine.plan s.call.environment w s.arguments with
  | .error f => (s, s.logged idle [failureEvent "config reload failed" f])
  | .ok p =>
    let s := { s with plan := p }
    match watchFault? w (p.targets.map (·.input)) with
    | some fault => (s, s.logged idle [failureEvent "watch failed" (.failure (watchFailure fault))])
    | none =>
      let r := s.generate w p.targets
      let event := s.log.line (s.targetsEvent "config reloaded")
      (s, { r with messages := event ++ r.messages })

/-- Is the file at a path new or different? -/
def isChanged (before after : Workspace) (path : Text) : Bool :=
  match after.read path with
  | .ok t => (before.read path).toOption != some t
  | .error _ => false

/-- What happens when files have changed: new settings are read, or else the schemas that are new or
different are compiled. -/
def step (s : Watch) (before after : Workspace) : Watch × Result :=
  let path := s.arguments.text .config
  if !path.isEmpty && isChanged before after path then s.reload after
  else (s, s.generate after (s.plan.targets.filter fun t => isChanged before after t.input))

end Watch

end WireSchema.CommandLine
