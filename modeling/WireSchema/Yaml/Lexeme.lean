import WireSchema.Yaml.Cursor

/-!
# Lexemes of YAML

The words of a YAML stream: indicators, markers, scalars, and the block starts and ends that its
indentation stands for.
-/

namespace WireSchema.Yaml

inductive ScalarStyle where
  | plain
  | singleQuoted
  | doubleQuoted
  | literal
  | folded
  deriving DecidableEq, Repr

inductive Word where
  | streamEnd
  | version (major minor : Nat)
  | tagHandle (handle expansion : List Char)
  | documentStart
  | documentEnd
  | blockSequence
  | blockMapping
  | blockEnd
  | flowSequence
  | flowSequenceEnd
  | flowMapping
  | flowMappingEnd
  | blockEntry
  | flowEntry
  | key
  | value
  | alias (name : List Char)
  | anchor (name : List Char)
  | tag (handle suffix : List Char)
  | scalar (value : List Char) (style : ScalarStyle)
  deriving DecidableEq, Repr

/-- A word and the line, from zero, on which it starts. -/
structure Lexeme where
  word : Word
  line : Nat
  deriving DecidableEq, Repr

end WireSchema.Yaml
