import WireSchema.Text.Utf8
import WireSchema.Text.Printable

/-!
# Quoted texts

The form in which messages show a text: between double quotes, with an escape for everything that
cannot be shown as it is.
-/

namespace WireSchema.Text

def escapeLetter? (c : Char) : Option Char :=
  if c == '\x07' then some 'a' else if c == '\x08' then some 'b' else if c == '\x0c' then some 'f'
  else if c == '\n' then some 'n' else if c == '\r' then some 'r' else if c == '\t' then some 't'
  else if c == '\x0b' then some 'v' else none

def quotedPiece : Piece → Text
  | .stray b => "\\x" ++ hex 2 b.toNat
  | .char c =>
    if c == '"' || c == '\\' then ofChars ['\\', c]
    else if isPrintable c then ofChars [c]
    else match escapeLetter? c with
      | some l => ofChars ['\\', l]
      | none =>
        if c.toNat < 0x80 then "\\x" ++ hex 2 c.toNat
        else if c.toNat < 0x10000 then "\\u" ++ hex 4 c.toNat
        else "\\U" ++ hex 8 c.toNat

/-- The text between double quotes, escaped. -/
def quoted (t : Text) : Text := "\"" ++ (pieces t).flatMap quotedPiece ++ "\""

/-- The character between single quotes, escaped. -/
def quotedChar (c : Char) : Text :=
  let body := if c == '\'' then ofChars ['\\', c] else if c == '"' then ofChars [c]
    else quotedPiece (.char c)
  "'" ++ body ++ "'"

end WireSchema.Text
