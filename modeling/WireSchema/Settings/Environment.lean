import WireSchema.Text.Basic

/-!
# Environment variables

Variables by name, and texts in which `$name` and `${name}` stand for them.
-/

namespace WireSchema

/-- Variables by name. -/
structure Environment where
  bindings : List (Text × Text) := []
  deriving DecidableEq, Repr

namespace Environment

/-- The value of a variable; one that is not set is empty. -/
def get (e : Environment) (name : Text) : Text := (e.bindings.lookup name).getD []

/-- May the byte stand in a name without braces? -/
def isNameByte (b : UInt8) : Bool := b == 0x5F || Text.isDigit b || Text.isAlpha b

/-- Is the byte a name of its own? -/
def isSpecial (b : UInt8) : Bool := Text.isDigit b || List.elem b ("*#$@!?-" : Text)

/-- What follows a dollar sign. -/
inductive Reference where
  /-- A variable, and how many bytes name it. -/
  | variable (name : Text) (size : Nat)
  /-- A brace that names nothing: so many bytes go away. -/
  | malformed (size : Nat)
  /-- No name: the dollar sign stands for itself. -/
  | none
  deriving DecidableEq, Repr

/-- Reads what follows a dollar sign. -/
def reference : Text → Reference
  | [] => .none
  | 0x7B :: rest =>
    match rest with
    | b :: 0x7D :: _ =>
      if isSpecial b then .variable [b] 3 else braced rest
    | _ => braced rest
  | b :: rest =>
    if isSpecial b then .variable [b] 1
    else
      let name := (b :: rest).takeWhile isNameByte
      if name.isEmpty then .none else .variable name name.length
where
  /-- A name that ends at a brace. -/
  braced (rest : Text) : Reference :=
    let name := rest.takeWhile (· != 0x7D)
    if name.length == rest.length then .malformed 1
    else if name.isEmpty then .malformed 2
    else .variable name (name.length + 2)

/-- A piece of a text with variables in it. -/
inductive Part where
  | plain (t : Text)
  | variable (name : Text)
  deriving DecidableEq, Repr

/-- Takes a text apart; `done` holds the pieces before it, last first. -/
def partsLoop : (fuel : Nat) → List Part → Text → List Part
  | 0, done, t => (.plain t :: done).reverse
  | fuel + 1, done, t =>
    match t with
    | [] => done.reverse
    | 0x24 :: rest =>
      match reference rest with
      | .variable name size => partsLoop fuel (.variable name :: done) (rest.drop size)
      | .malformed size => partsLoop fuel done (rest.drop size)
      | .none => partsLoop fuel (.plain [0x24] :: done) rest
    | t =>
      let plain := t.takeWhile (· != 0x24)
      partsLoop fuel (.plain plain :: done) (t.drop plain.length)

def parts (t : Text) : List Part := partsLoop (t.length + 1) [] t

/-- What a piece stands for. -/
def value (e : Environment) : Part → Text
  | .plain t => t
  | .variable name => e.get name

/-- The text with the values of its variables put in; what they bring in is not looked at again. -/
def expand (e : Environment) (t : Text) : Text := (parts t).flatMap e.value

def names (t : Text) : List Text :=
  (parts t).filterMap fun
    | .plain _ => none
    | .variable name => some name

end Environment

end WireSchema
