import WireSchema.Number.Integer
import WireSchema.Text.Quoted
import WireSchema.Text.Style
import WireSchema.Text.Utf8

/-!
# Log lines

An event is a level, a message and named values. It is written as one JSON object a line, or for a
reader at a console.
-/

namespace WireSchema.Log

/-- How much an event matters. -/
inductive Level where
  | trace
  | debug
  | info
  | warn
  | error
  | fatal
  | panic
  | noLevel
  | disabled
  | custom (n : Int)
  deriving DecidableEq, Repr

inductive Value where
  | text (t : Text)
  | number (n : Int)
  deriving DecidableEq, Repr

/-- Something to be logged. -/
structure Event where
  level : Level
  message : Text
  fields : List (Text × Value) := []
  deriving DecidableEq, Repr

namespace Level

/-- The order of the levels; an event is written if its level is not below the threshold. -/
def rank : Level → Int
  | .trace => -1
  | .debug => 0
  | .info => 1
  | .warn => 2
  | .error => 3
  | .fatal => 4
  | .panic => 5
  | .noLevel => 6
  | .disabled => 7
  | .custom n => n

def name : Level → Text
  | .trace => "trace"
  | .debug => "debug"
  | .info => "info"
  | .warn => "warn"
  | .error => "error"
  | .fatal => "fatal"
  | .panic => "panic"
  | .noLevel => ""
  | .disabled => "disabled"
  | .custom n => Text.ofInt n

def short : Level → Text
  | .trace => "TRC"
  | .debug => "DBG"
  | .info => "INF"
  | .warn => "WRN"
  | .error => "ERR"
  | .fatal => "FTL"
  | .panic => "PNC"
  | _ => "???"

def named : List Level :=
  [.trace, .debug, .info, .warn, .error, .fatal, .panic, .disabled, .noLevel]

/-- A name without regard to the case of its letters. -/
def folded (t : Text) : Text :=
  Text.ofChars ((Text.chars t).map fun c => if c == '\u017f' then 's' else c.toLower)

/-- The level that a word or a number stands for. -/
def parse (t : Text) : Except Failure Level :=
  match named.find? fun l => Text.isUtf8 t && l.name == folded t with
  | some l => .ok l
  | none =>
    match Integer.readSigned 64 t with
    | (_, some _) =>
      .error (.plain ("Unknown Level String: '" ++ t ++ "', defaulting to NoLevel"))
    | (n, none) =>
      if n < -128 || 127 < n then
        .error (.plain ("Out-Of-Bounds Level: '" ++ Text.ofInt n ++ "', defaulting to NoLevel"))
      else .ok (.custom n)

end Level

/-! ## JSON -/

def jsonPiece : Piece → Text
  | .stray _ => "\\ufffd"
  | .char c =>
    if c == '"' || c == '\\' then Text.ofChars ['\\', c]
    else if c == '\x08' then "\\b"
    else if c == '\x0c' then "\\f"
    else if c == '\n' then "\\n"
    else if c == '\r' then "\\r"
    else if c == '\t' then "\\t"
    else if c.toNat < 0x20 || c.toNat == 0x7F then "\\u00" ++ Text.hex 2 c.toNat
    else Text.ofChars [c]

def jsonString (t : Text) : Text := "\"" ++ (Text.pieces t).flatMap jsonPiece ++ "\""

def Value.json : Value → Text
  | .text t => jsonString t
  | .number n => Text.ofInt n

def member (name : Text) (value : Text) : Text := jsonString name ++ ":" ++ value

/-- The event as a JSON object, with the time of day if it is to be shown. -/
def Event.json (e : Event) (time : Option Text) : Text :=
  let members := [member "level" (jsonString e.level.name)]
    ++ (e.fields.map fun (name, value) => member name value.json)
    ++ (time.map fun t => member "time" (jsonString t)).toList
    ++ [member "message" (jsonString e.message)]
  "\x7b" ++ Text.join "," members ++ "\x7d\n"

/-! ## Console -/

/-- Must the value be quoted on the console? -/
def needsQuotes (t : Text) : Bool :=
  t.any fun b => b < 0x20 || b > 0x7E || b == 0x20 || b == 0x5C || b == 0x22

def Value.console : Value → Text
  | .text t =>
    let t := Text.mended t
    if needsQuotes t then Text.quoted t else t
  | .number n => Text.ofInt n

/-- Is `a` before `b` in the order of their bytes? -/
def before : Text → Text → Bool
  | [], _ :: _ => true
  | a :: as, b :: bs => a < b || (a == b && before as bs)
  | _, [] => false

/-- Inserts a field at its place in the order of names. -/
def insertField (f : Text × Value) : List (Text × Value) → List (Text × Value)
  | [] => [f]
  | g :: rest => if before g.1 f.1 then g :: insertField f rest else f :: g :: rest

/-- The fields in the order of the console: an error first, the others by name. -/
def consoleOrder (fields : List (Text × Value)) : List (Text × Value) :=
  let isError (f : Text × Value) : Bool := f.1 == "error"
  fields.filter isError ++ (fields.filter (!isError ·)).foldr insertField []

/-- The colour of a level on the console, if it has one. -/
def Level.color? : Level → Option Style
  | .trace => some .blue
  | .info => some .green
  | .warn => some .yellow
  | .error | .fatal | .panic => some .red
  | _ => none

/-- Do messages of the level stand out on the console? -/
def Level.isLoud : Level → Bool
  | .info | .warn | .error | .fatal | .panic => true
  | _ => false

/-- A field on the console. The value of an error is bold and red. -/
def consoleField (isColored : Bool) (name : Text) (value : Value) : Text :=
  let shown := value.console
  Text.tinted isColored .cyan (name ++ "=") ++
    if name == "error" then Text.tinted isColored .red (Text.tinted isColored .bold shown) else shown

def Event.console (isColored : Bool) (e : Event) (clock : Text) : Text :=
  let level := match e.level.color? with
    | some c => Text.tinted isColored c e.level.short
    | none => e.level.short
  let message :=
    if e.message.isEmpty then []
    else [if e.level.isLoud then Text.tinted isColored .bold e.message else e.message]
  let fields := (consoleOrder e.fields).map fun (name, value) => consoleField isColored name value
  Text.join " " (Text.tinted isColored .gray clock :: level :: message ++ fields) ++ "\n"

end WireSchema.Log
