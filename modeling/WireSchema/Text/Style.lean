import WireSchema.Text.Basic

/-!
# Styles

How a terminal is asked to show a text: an escape sequence before it names the styles, and another one
behind it takes them back.
-/

namespace WireSchema

inductive Style where
  | bold
  | red
  | green
  | yellow
  | blue
  | cyan
  | gray
  deriving DecidableEq, Repr

namespace Style

/-- The number that asks for a style. -/
def code : Style → Text
  | .bold => "1"
  | .red => "31"
  | .green => "32"
  | .yellow => "33"
  | .blue => "34"
  | .cyan => "36"
  | .gray => "90"

/-- The number that takes a style back; zero takes back everything. -/
def reset : Style → Text
  | .bold => "22"
  | _ => "0"

end Style

namespace Text

/-- The sequence that a terminal takes for a request. -/
def escape (codes : List Text) : Text := "\x1b[" ++ join ";" codes ++ "m"

/-- A text in some styles, each taken back by its own number. -/
def styled (isColored : Bool) (styles : List Style) (t : Text) : Text :=
  if isColored then escape (styles.map (·.code)) ++ t ++ escape (styles.map (·.reset)) else t

/-- A text in a style, after which nothing is left of any style. -/
def tinted (isColored : Bool) (style : Style) (t : Text) : Text :=
  if isColored then escape [style.code] ++ t ++ escape ["0"] else t

end Text

end WireSchema
