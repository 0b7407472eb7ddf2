import WireSchema.Settings.Environment

/-!
# Settings

What a settings file says: how to log, and which schemas to compile to which files.
-/

namespace WireSchema

/-- One schema to compile. Without an output the code is printed. -/
structure CompileTarget where
  input : Text := []
  output : Text := []
  className : Text := []
  access : Text := []
  makeTypes : Bool := false
  deriving DecidableEq, Repr

structure Settings where
  level : Text := []
  format : Text := []
  targets : List CompileTarget := []
  deriving DecidableEq, Repr

end WireSchema
