import WireSchema.Failure
import WireSchema.Model.Basic

/-!
# Classes and access

The command line names the serializer as `path.package.Name` and its visibility by a word.
-/

namespace WireSchema

namespace Class

/-- Package and type name of a class. The package is the last part of what stands before the last
dot, in small letters. -/
def parse (t : Text) : Except Failure (Text × Text) :=
  let refuse (message : Text) : Except Failure (Text × Text) := .error (.plain message)
  match Text.cutLast? t 0x2E with
  | none | some ([], _) | some (_, []) =>
    refuse ("class " ++ Text.quoted t ++ " must be of the form package.Serializer")
  | some (path, name) =>
    let notMark (b : UInt8) : Bool := b != 0x2E && b != 0x2F
    let package := Names.lowered (path.reverse.takeWhile notMark).reverse
    if !Names.isIdentifier package then
      refuse ("class " ++ Text.quoted t ++ ": " ++ Text.quoted package
        ++ " is not a valid package name")
    else if !Names.isIdentifier name then
      refuse ("class " ++ Text.quoted t ++ ": " ++ Text.quoted name
        ++ " is not a valid type name")
    else .ok (package, name)

end Class

namespace Access

/-- The access that a word stands for. -/
def parse (t : Text) : Except Failure Access :=
  if t == "" || t == "public" then .ok .anyone
  else if t == "internal" || t == "private" then .ok .packageOnly
  else .error (.plain ("unknown access " ++ Text.quoted t ++ " (want public, internal or private)"))

end Access

end WireSchema
