import WireSchema.Failure
import WireSchema.Path

/-!
# Workspaces

The files that a run can see, as a value: reading, making directories and writing give the answers
of a file system.
-/

namespace WireSchema

/-- Why a path cannot be used. -/
inductive FileFault where
  | notFound
  | notDirectory
  | isDirectory
  | nameTooLong
  | invalidName
  deriving DecidableEq, Repr

def FileFault.message : FileFault → Text
  | .notFound => "no such file or directory"
  | .notDirectory => "not a directory"
  | .isDirectory => "is a directory"
  | .nameTooLong => "file name too long"
  | .invalidName => "invalid argument"

/-- A failed operation on a path. -/
structure FileError where
  operation : Text
  path : Text
  fault : FileFault
  deriving DecidableEq, Repr

def FileError.toFailure (e : FileError) : Failure :=
  .plain (e.operation ++ " " ++ e.path ++ ": " ++ e.fault.message)

/-- A place in the tree of files: the names on the way to it. The way starts in the working
directory, or at the root if its first name is a slash. -/
abbrev Place := List Text

namespace Place

/-- The place that a path names, by its text alone. -/
def ofPath (path : Text) : Place :=
  let names := (Text.splitOn (Path.clean path) 0x2F).filter fun (name : Text) =>
    name != "" && name != "."
  if Path.isAbsolute path then Text.ofString "/" :: names else names

def toPath (p : Place) : Text :=
  match p with
  | [] => "."
  | name :: rest => if name == "/" then "/" ++ Text.join "/" rest else Text.join "/" p

/-- Is the place below the working directory? -/
def isInside (p : Place) : Bool :=
  p.head? != some (Text.ofString "/") && p.head? != some (Text.ofString "..")

def parent (p : Place) : Place :=
  match p.getLast? with
  | none => [Text.ofString ".."]
  | some name =>
    if name == "/" then p
    else if name == ".." then p ++ [Text.ofString ".."]
    else p.dropLast

end Place

/-- Files by place, and the directories that were made without a file in them. -/
structure Workspace where
  files : List (Place × Text) := []
  directories : List Place := []
  deriving DecidableEq, Repr

namespace Workspace

def fileAt? (w : Workspace) (p : Place) : Option Text := w.files.lookup p

/-- Is there a directory at the place? The working directory, those above it and the root always
are; a file makes directories of the places on the way to it. -/
def isDirectory (w : Workspace) (p : Place) : Bool :=
  p.all (fun (name : Text) => name == "/" || name == "..") || w.directories.contains p
    || w.files.any fun f => p.isPrefixOf f.1 && p.length < f.1.length

/-- Follows names from a place, which must be a directory whenever a name is looked up in it. -/
def follow (w : Workspace) (p : Place) : List Text → Except FileFault Place
  | [] => .ok p
  | name :: rest =>
    if !w.isDirectory p then
      .error (if (w.fileAt? p).isSome then .notDirectory else .notFound)
    else if 255 < name.length then .error .nameTooLong
    else if name == "" || name == "." then follow w p rest
    else if name == ".." then follow w p.parent rest
    else follow w (p ++ [name]) rest

/-- The place that a path names; there need not be anything. -/
def locate (w : Workspace) (path : Text) : Except FileFault Place :=
  if path.isEmpty then .error .notFound
  else if List.elem (0 : UInt8) path then .error .invalidName
  else if 4095 < path.length then .error .nameTooLong
  else w.follow (if Path.isAbsolute path then [Text.ofString "/"] else []) (Text.splitOn path 0x2F)

def read (w : Workspace) (path : Text) : Except FileError Text :=
  match w.locate path with
  | .error fault => .error ⟨"open", path, fault⟩
  | .ok p =>
    match w.fileAt? p with
    | some t => .ok t
    | none =>
      if w.isDirectory p then .error ⟨"read", path, .isDirectory⟩
      else .error ⟨"open", path, .notFound⟩

/-- Makes the directories on the way along `names` from a directory that is there. -/
def makeEach (w : Workspace) (start : Place) : List Text → Except FileError Workspace
  | [] => .ok w
  | name :: rest =>
    let p : Place := start ++ [name]
    if (w.fileAt? p).isSome then .error ⟨"mkdir", p.toPath, .notDirectory⟩
    else if 255 < name.length then .error ⟨"mkdir", p.toPath, .nameTooLong⟩
    else if w.isDirectory p then makeEach w p rest
    else makeEach { w with directories := p :: w.directories } p rest

/-- Makes a directory, given by its shortest path, and those above it. -/
def makeDirectory (w : Workspace) (path : Text) : Except FileError Workspace :=
  if Path.isAbsolute path then w.makeEach [Text.ofString "/"] (Place.ofPath path).tail
  else w.makeEach [] (Place.ofPath path)

/-- Replaces the content of the file at a place, or adds a file. -/
def setFile (p : Place) (t : Text) : List (Place × Text) → List (Place × Text)
  | [] => [(p, t)]
  | f :: rest => if f.1 == p then (p, t) :: rest else f :: setFile p t rest

def write (w : Workspace) (path : Text) (t : Text) : Except FileError Workspace :=
  match w.locate path with
  | .error fault => .error ⟨"open", path, fault⟩
  | .ok p =>
    if w.isDirectory p then .error ⟨"open", path, .isDirectory⟩
    else if !w.isDirectory p.parent then .error ⟨"open", path, .notFound⟩
    else .ok { w with files := setFile p t w.files }

/-- Puts a file where a path says, with the directories it needs. -/
def place (w : Workspace) (path : Text) (t : Text) : Workspace :=
  { w with files := setFile (Place.ofPath path) t w.files }

/-- Puts an empty directory where a path says, with those above it. -/
def placeDirectory (w : Workspace) (path : Text) : Workspace :=
  let p := Place.ofPath path
  { w with directories := (List.range (p.length + 1)).map p.take ++ w.directories }

/-- The files that are new or different. -/
def changes (before after : Workspace) : List (Place × Text) :=
  after.files.filter fun (p, t) => before.fileAt? p != some t

end Workspace

end WireSchema
