import WireSchema.Clock
import WireSchema.Log

/-!
# Loggers

Which events are written, and in which form.
-/

namespace WireSchema.Log

inductive Format where
  | json
  | console
  deriving DecidableEq, Repr

/-- Turns events into lines. -/
structure Logger where
  /-- Events below this rank are not written. -/
  threshold : Int
  format : Format
  moment : Moment
  /-- Are lines for the console in colour? -/
  isColored : Bool := false
  deriving DecidableEq, Repr

namespace Logger

/-- The form that a word stands for; without a word that says it, a terminal decides. -/
def format? (isTerminal : Bool) (word : Text) : Option Format :=
  if word == "auto" || word == "" then some (if isTerminal then .console else .json)
  else if word == "console" then some .console
  else if word == "json" then some .json
  else none

/-- The threshold of a level. No level at all is the level of plain information. -/
def thresholdOf (l : Level) : Int :=
  if l.rank == Level.noLevel.rank then Level.info.rank else l.rank

/-- The logger for the words of a level and of a format, or what is wrong with them. -/
def ofWords (isTerminal isColored : Bool) (moment : Moment) (level format : Text) :
    Except Text Logger :=
  match Level.parse level, format? isTerminal format with
  | .error _, _ => .error ("invalid log level " ++ Text.quoted level)
  | .ok _, none => .error ("invalid log format " ++ Text.quoted format)
  | .ok l, some f => .ok ⟨thresholdOf l, f, moment, isColored⟩

/-- The line of an event; nothing if the event is below the threshold. -/
def line (l : Logger) (e : Event) : Text :=
  if e.level.rank < l.threshold then []
  else
    match l.format with
    | .json => e.json (some l.moment.stamp)
    | .console => e.console l.isColored l.moment.kitchen

def lines (l : Logger) (es : List Event) : Text := es.flatMap l.line

end Logger

end WireSchema.Log
