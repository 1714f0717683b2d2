import LetterToSound.Text.Pieces

/-!
# Trees of files

Files in directories, and what reading and writing do to them. All paths start at the root of the
tree. On the way along a path every step needs the directory that it is taken from.
-/

/-!
## Paths

A path is a text of names with slashes between them. It is absolute if it starts with a slash.
-/

namespace LetterToSound.Path

def isAbsolute (path : String) : Bool := path.toList.head? == some '/'

/-- The path that `path` is, seen from the directory `base`. An absolute one stays as it is. -/
def join (base path : String) : String :=
  if isAbsolute path || base = "" then path
  else if base.toList.getLast? = some '/' then base ++ path
  else base ++ "/" ++ path

/-- The names of a path, with empty ones where slashes stand at an end or side by side. -/
def names (path : String) : List String := (Text.cutAt '/' path.toList).map String.ofList

/-- The names that lead from one directory to another one. -/
def steps (path : String) : List String := (names path).filter fun name => name ≠ "" ∧ name ≠ "."

/-- Whether the last name of a path is a dot, with or without slashes behind it. -/
def endsInDot (path : String) : Bool :=
  ((names path).filter (· ≠ "")).getLast? == some "."

/-- The path of the directory that a path is in. -/
def parent (path : String) : String :=
  (if isAbsolute path then "/" else "") ++ "/".intercalate (steps path).dropLast

/-- The greatest number of bytes in a path. -/
def maxLength : Nat := 4095

/-- The greatest number of bytes in a name. -/
def maxNameLength : Nat := 255

/-- Whether a path is short enough and has no null character. -/
def isUsable (path : String) : Bool :=
  path.utf8ByteSize ≤ maxLength && !path.toList.contains (Char.ofNat 0)

end LetterToSound.Path

/-!
## Trees
-/

namespace LetterToSound

/-- Why a file or directory cannot be used. -/
inductive FileError where
  | missing
  | notDirectory
  | isDirectory
  | nameTooLong
  /-- A path that is too long or has a null character. -/
  | unusablePath
deriving DecidableEq, Repr

/-- Directories other than the root, and files, by the names on the way to them. -/
structure FileTree where
  directories : List (List String)
  files : List (List String × Array UInt8)
deriving Inhabited

namespace FileTree

def empty : FileTree := ⟨[], []⟩

/-- The content of the file at a place. -/
def file? (t : FileTree) (place : List String) : Option (Array UInt8) := t.files.lookup place

def isDirectory (t : FileTree) (place : List String) : Bool :=
  place.isEmpty || t.directories.contains place

/-- Checks that there is a directory at a place. -/
def checkDirectory (t : FileTree) (place : List String) : Except FileError Unit :=
  if t.isDirectory place then .ok ()
  else if (t.file? place).isSome then .error .notDirectory
  else .error .missing

/-- The place where steps lead to. At the last of them there need not be anything. -/
def walk (t : FileTree) (place : List String) : List String → Except FileError (List String)
  | [] => .ok place
  | step :: rest =>
    match t.checkDirectory place with
    | .error e => .error e
    | .ok () =>
      if step = "" ∨ step = "." then t.walk place rest
      else if step = ".." then t.walk place.dropLast rest
      else if Path.maxNameLength < step.utf8ByteSize then .error .nameTooLong
      else t.walk (place ++ [step]) rest

/-- The place of a path. -/
def place (t : FileTree) (path : String) : Except FileError (List String) :=
  if Path.isUsable path then t.walk [] (Path.names path) else .error .unusablePath

/-- Whether there is a file or a directory. -/
def holds (t : FileTree) (path : String) : Bool :=
  match t.place path with
  | .ok place => t.isDirectory place || (t.file? place).isSome
  | .error _ => false

/-- The content of a file. -/
def read (t : FileTree) (path : String) : Except FileError (Array UInt8) :=
  match t.place path with
  | .error e => .error e
  | .ok place =>
    match t.file? place with
    | some data => .ok data
    | none => .error (if t.isDirectory place then .isDirectory else .missing)

/-- Writes a file, which is made if there is none. -/
def write (t : FileTree) (path : String) (data : Array UInt8) : Except FileError FileTree :=
  match t.place path with
  | .error e => .error e
  | .ok place =>
    if t.isDirectory place then .error .isDirectory
    else .ok { t with files := (place, data) :: t.files.filter (·.1 ≠ place) }

/-- Makes the directories that steps lead to one after the other: the place of the last one, and
the tree that is left. -/
def makeWay (t : FileTree) (place : List String) :
    List String → Except FileError (List String) × FileTree
  | [] => (.ok place, t)
  | step :: rest =>
    match t.walk place [step] with
    | .error e => (.error e, t)
    | .ok next =>
      if t.isDirectory next then t.makeWay next rest
      else if (t.file? next).isSome then (.error .notDirectory, t)
      else makeWay { t with directories := next :: t.directories } next rest

/-- Makes a directory and those that it is in. If the path ends in a dot, then the directory itself
has to be there. What has been made stays, even if the rest cannot be made. -/
def makeDirectory (t : FileTree) (path : String) : Except FileError Unit × FileTree :=
  if !Path.isUsable path then (.error .unusablePath, t)
  else
    let steps := Path.steps path
    let made := if Path.endsInDot path then steps.length - 1 else steps.length
    match t.makeWay [] (steps.take made) with
    | (.error e, t) => (.error e, t)
    | (.ok place, t) => ((t.walk place (steps.drop made)).bind t.checkDirectory, t)

end FileTree

end LetterToSound
