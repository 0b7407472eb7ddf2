import WireSchema.CommandLine.Flag
import WireSchema.Text.Quoted

/-!
# Arguments

The words of a command line, read as flags with their values and other words between them. A flag
that is given several times has its last value.
-/

namespace WireSchema.CommandLine

/-- What is wrong with the words. -/
inductive ArgumentFault where
  /-- A word with two dashes and no name after them. -/
  | malformed (word : Text)
  | unknownName (name : Text)
  /-- A letter of no flag; `rest` starts with it. -/
  | unknownLetter (letter : UInt8) (rest : Text)
  /-- The words end where the value of a flag should be. -/
  | nameNeedsValue (name : Text)
  | letterNeedsValue (letter : UInt8) (rest : Text)
  /-- A switch that is set to neither true nor false. -/
  | notBoolean (flag : Flag) (value : Text)
  deriving DecidableEq, Repr

def quotedByte (b : UInt8) : Text := Text.quotedChar (Char.ofNat b.toNat)

def ArgumentFault.message : ArgumentFault → Text
  | .malformed word => "bad flag syntax: " ++ word
  | .unknownName name => "unknown flag: --" ++ name
  | .unknownLetter letter rest =>
    "unknown shorthand flag: " ++ quotedByte letter ++ " in -" ++ rest
  | .nameNeedsValue name => "flag needs an argument: --" ++ name
  | .letterNeedsValue letter rest =>
    "flag needs an argument: " ++ quotedByte letter ++ " in -" ++ rest
  | .notBoolean flag value =>
    "invalid argument " ++ Text.quoted value ++ " for " ++ Text.quoted flag.spelling
      ++ " flag: strconv.ParseBool: parsing " ++ Text.quoted value ++ ": invalid syntax"

/-- The words for true and false. -/
def readBool? (t : Text) : Option Bool :=
  if t == "1" || t == "t" || t == "T" || t == "true" || t == "TRUE" || t == "True" then some true
  else if t == "0" || t == "f" || t == "F" || t == "false" || t == "FALSE" || t == "False" then
    some false
  else none

/-- The flags that were given, last first, and the other words. -/
structure Arguments where
  given : List (Flag × Text) := []
  words : List Text := []
  deriving DecidableEq, Repr

namespace Arguments

def isGiven (a : Arguments) (f : Flag) : Bool := (a.given.lookup f).isSome

def text (a : Arguments) (f : Flag) : Text :=
  match a.given.lookup f, f.kind with
  | some t, _ => t
  | none, .text default => default
  | none, .switch => []

/-- Is the switch on? -/
def isOn (a : Arguments) (f : Flag) : Bool := ((a.given.lookup f).bind readBool?).getD false

def give (a : Arguments) (f : Flag) (value : Text) : Except ArgumentFault Arguments :=
  if f.isSwitch && (readBool? value).isNone then .error (.notBoolean f value)
  else .ok { a with given := (f, value) :: a.given }

end Arguments

structure FlagWord where
  /-- Flags with their values, in order. -/
  given : List (Flag × Text) := []
  /-- A flag whose value is the next word, and the fault if there is none. -/
  awaiting : Option (Flag × ArgumentFault) := none
  deriving DecidableEq, Repr

/-- Reads what follows two dashes: a name, and a value after an equals sign. -/
def readName (t : Text) : Except ArgumentFault FlagWord :=
  if t.isEmpty || t.head? == some 0x2D || t.head? == some 0x3D then .error (.malformed ("--" ++ t))
  else
    let (name, value) : Text × Option Text :=
      match Text.cut? t "=" with
      | some (name, value) => (name, some value)
      | none => (t, none)
    match Flag.ofName? name, value with
    | none, _ => .error (.unknownName name)
    | some f, some value => .ok { given := [(f, value)] }
    | some f, none =>
      if f.isSwitch then .ok { given := [(f, "true")] }
      else .ok { awaiting := some (f, .nameNeedsValue name) }

/-- Reads what follows one dash: letters of switches, and at the end one letter with a value. What
starts like a flag of a test run is passed over. -/
def readLetters : Text → Except ArgumentFault FlagWord
  | [] => .ok {}
  | letter :: rest =>
    if (Text.dropStart? (letter :: rest) "test.").isSome then .ok {}
    else
      match Flag.ofLetter? letter with
      | none => .error (.unknownLetter letter (letter :: rest))
      | some f =>
        match rest with
        | 0x3D :: b :: value => .ok { given := [(f, b :: value)] }
        | rest =>
          if f.isSwitch then do
            let w ← readLetters rest
            return { w with given := (f, "true") :: w.given }
          else if rest.isEmpty then
            .ok { awaiting := some (f, .letterNeedsValue letter (letter :: rest)) }
          else .ok { given := [(f, rest)] }

/-- Reads words, flags and others in any order; two dashes end the flags. -/
def readWords (a : Arguments) : List Text → Except ArgumentFault Arguments
  | [] => .ok a
  | word :: rest =>
    match word with
    | [0x2D, 0x2D] => .ok { a with words := a.words ++ rest }
    | 0x2D :: b :: t => do
      let w ← if b == 0x2D then readName t else readLetters (b :: t)
      let a ← w.given.foldlM (fun a (f, value) => a.give f value) a
      match w.awaiting, rest with
      | none, rest => readWords a rest
      | some (_, fault), [] => .error fault
      | some (f, _), value :: rest => do
        let a ← a.give f value
        readWords a rest
    | word => readWords { a with words := a.words ++ [word] } rest

def Arguments.parse (words : List Text) : Except ArgumentFault Arguments := readWords {} words

end WireSchema.CommandLine
