import WireSchema.Text.Basic

/-!
# Flags

The flags of the command line: their names, what they take, and the usage text made from them.
-/

namespace WireSchema.CommandLine

inductive Flag where
  | access
  | check
  | className
  | config
  | help
  | input
  | logFormat
  | logLevel
  | makeTypes
  | output
  | watch
  deriving DecidableEq, Repr

inductive FlagKind where
  /-- A text, with the one that stands for it if the flag is not given. -/
  | text (default : Text)
  /-- Nothing: the flag is on if it is given. -/
  | switch
  deriving DecidableEq, Repr

namespace Flag

def all : List Flag :=
  [.access, .check, .className, .config, .help, .input, .logFormat, .logLevel, .makeTypes, .output,
    .watch]

def name : Flag → Text
  | .access => "access"
  | .check => "check"
  | .className => "class"
  | .config => "config"
  | .help => "help"
  | .input => "input"
  | .logFormat => "log-format"
  | .logLevel => "log-level"
  | .makeTypes => "make"
  | .output => "output"
  | .watch => "watch"

def letter? : Flag → Option UInt8
  | .access => some (Text.byte 'a')
  | .className => some (Text.byte 'c')
  | .help => some (Text.byte 'h')
  | .input => some (Text.byte 'i')
  | .makeTypes => some (Text.byte 'm')
  | .output => some (Text.byte 'o')
  | _ => none

def kind : Flag → FlagKind
  | .access => .text "public"
  | .className | .config | .input | .output => .text []
  | .logFormat => .text "auto"
  | .logLevel => .text "info"
  | .check | .help | .makeTypes | .watch => .switch

/-- Does the flag stand without a value? -/
def isSwitch (f : Flag) : Bool := f.kind == .switch

def summary : Flag → Text
  | .access => "access of generated identifiers: public, internal or private"
  | .check => "report outputs that differ from the generated code instead of writing them"
  | .className => "qualified serializer name, e.g. sample.Serializer"
  | .config => "YAML file listing several targets"
  | .help => "help for codecgen"
  | .input => "schema file to compile"
  | .logFormat => "log format: auto, console or json"
  | .logLevel => "log level: debug, info, warn or error"
  | .makeTypes => "also emit the data holder types"
  | .output => "output file (default stdout)"
  | .watch => "regenerate whenever a schema changes"

def ofName? (name : Text) : Option Flag := all.find? fun f => f.name == name

def ofLetter? (letter : UInt8) : Option Flag := all.find? fun f => f.letter? == some letter

/-- The flag as it is written: its letter, if it has one, and its name. -/
def spelling (f : Flag) : Text :=
  match f.letter? with
  | some letter => "-" ++ [letter] ++ ", --" ++ f.name
  | none => "--" ++ f.name

end Flag

/-! ## Usage -/

/-- The left part of a flag's line: letters stand in one column and names in another. -/
def leftPart (f : Flag) : Text :=
  (if f.letter?.isSome then "  " else "      ") ++ f.spelling
    ++ (if f.isSwitch then [] else Text.ofString " string")

/-- The value that stands for a flag that is not given, unless it is empty. -/
def defaultNote (f : Flag) : Text :=
  match f.kind with
  | .text (b :: t) => " (default \"" ++ (b :: t) ++ "\")"
  | _ => []

def leftWidth : Nat := (Flag.all.map fun f => (leftPart f).length).foldl max 0

def flagLine (f : Flag) : Text :=
  leftPart f ++ Text.repeated " " (leftWidth + 3 - (leftPart f).length) ++ f.summary
    ++ defaultNote f ++ "\n"

def usage : Text :=
  "Usage:\n  codecgen -i schema -c pkg.Serializer [-o out.go] [-a access] [-m] [flags]\n\nFlags:\n"
    ++ Flag.all.flatMap flagLine

def about : Text :=
  "codecgen reads a schema describing objects, fields and their wire keys and\n"
    ++ "emits Go source that encodes and decodes those objects over a token stream.\n\n"
    ++ "Either name one schema with --input and --class, or list several targets in\n"
    ++ "a YAML file passed with --config.\n"

end WireSchema.CommandLine
