import WireSchema.Text.Basic

/-!
# JSON pointers

A place in a document, as the keys and indices that lead to it. In the text of a pointer every one
of them follows a slash, with `~` and `/` written `~0` and `~1`.
-/

namespace WireSchema

/-- The keys and indices that lead to a place, innermost first. -/
abbrev Pointer := List Text

namespace Pointer

def escape (t : Text) : Text :=
  t.flatMap fun b => if b == 0x7E then "~0" else if b == 0x2F then "~1" else [b]

/-- The text of a pointer; the whole document is a slash. -/
def text : Pointer → Text
  | [] => "/"
  | p => p.reverse.flatMap fun t => 0x2F :: escape t

end Pointer

end WireSchema
