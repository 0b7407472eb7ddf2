import WireSchema.Text.Basic

/-!
# Schemas

A schema is a list of declarations. Each declares an object with its bases and its properties, by
name; nothing is resolved yet.
-/

namespace WireSchema.Schema

/-- One field as it is declared. -/
structure Property where
  /-- The key in documents; `*` stands for every other key. -/
  key : Text
  /-- The name of the field in memory. -/
  name : Text
  /-- The name of the type, without brackets or braces. -/
  type : Text
  isArray : Bool := false
  isDictionary : Bool := false
  line : Nat := 0
  deriving DecidableEq, Repr

/-- An object as it is declared. -/
structure Declaration where
  name : Text
  /-- An interface only passes its fields on. -/
  isInterface : Bool := false
  bases : List Text := []
  properties : List Property := []
  line : Nat := 0
  deriving DecidableEq, Repr

/-- Why a line is malformed. -/
inductive Fault where
  | propertyBeforeObject
  | noPropertyType
  | arrayBrackets
  | dictionaryBraces
  | missingType
  | missingFieldName
  | missingKey
  | emptyBase
  | missingObjectName
  deriving DecidableEq, Repr

namespace Fault

def message : Fault → Text
  | .propertyBeforeObject => "property declared before any object"
  | .noPropertyType => "unable to parse property type"
  | .arrayBrackets => "mismatched array brackets"
  | .dictionaryBraces => "mismatched dictionary braces"
  | .missingType => "missing property type"
  | .missingFieldName => "missing field name after =>"
  | .missingKey => "missing property key"
  | .emptyBase => "empty base name"
  | .missingObjectName => "missing object name"

end Fault

end WireSchema.Schema
