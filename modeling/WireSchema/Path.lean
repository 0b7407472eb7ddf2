import WireSchema.Text.Basic

/-!
# Paths

Names of files, taken apart and put together as text. Parts are divided by slashes.
-/

namespace WireSchema.Path

def isAbsolute (p : Text) : Bool := p.head? == some 0x2F

/-- Adds one part to those before it, last first: `.` and nothing stay where they are, and `..` takes
back the part before it. Above the root there is nothing. -/
def step (rooted : Bool) (parts : List Text) (part : Text) : List Text :=
  if part == "" || part == "." then parts
  else if part == ".." then
    match parts with
    | last :: rest => if last == ".." then part :: parts else rest
    | [] => if rooted then [] else [part]
  else part :: parts

/-- The shortest path with the same meaning. -/
def clean (p : Text) : Text :=
  let rooted := isAbsolute p
  let parts := ((Text.splitOn p 0x2F).foldl (step rooted) []).reverse
  let joined := Text.join "/" parts
  if rooted then "/" ++ joined else if joined.isEmpty then "." else joined

/-- A path seen from a directory. -/
def join (dir p : Text) : Text :=
  if dir.isEmpty then (if p.isEmpty then [] else clean p) else clean (dir ++ "/" ++ p)

def base (p : Text) : Text :=
  if p.isEmpty then "."
  else
    let p := (p.reverse.dropWhile (· == 0x2F)).takeWhile (· != 0x2F)
    if p.isEmpty then "/" else p.reverse

/-- The directory of a path: all but its last part. -/
def dir (p : Text) : Text := clean (p.reverse.dropWhile (· != 0x2F)).reverse

/-- The paths on the way to a path, and the path itself. -/
def along (p : Text) : List Text :=
  let parts := Text.splitOn p 0x2F
  ((List.range parts.length).map fun i => Text.join "/" (parts.take (i + 1))).filter (!·.isEmpty)

end WireSchema.Path
