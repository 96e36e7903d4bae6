import Machine32.Numeral

/-!
# Files

A program comes from a file that a path names. How a path leads to contents is
a function, `Files`, so that what depends on files is a value. The system gives
one such function; a tree of directories gives another:

* `FileTree` is a file or a directory, with all that is in it;
* `Place.find` follows a path through such a tree;
* `Place.files` looks for files from a place in a tree on.
-/

namespace Machine32.CommandLine

/-- Why a file has no text. -/
inductive FileError where
  | notFound
  | permissionDenied
  /-- A path goes on behind a file. -/
  | notDirectory
  | isDirectory
  /-- A path, or a name in it, is longer than it may be. -/
  | nameTooLong
  /-- Another reason of the system, with its number. -/
  | other (reason : String) (code : Nat)
  /-- The contents are no text. -/
  | notUtf8
  deriving DecidableEq

namespace FileError

/-- A reason of the system, with its number, as text. -/
def systemText (reason : String) (code : Nat) : String :=
  reason ++ " (os error " ++ Numeral.decimal code ++ ")"

/-- The text of a file error. -/
def message : FileError → String
  | notFound => systemText "No such file or directory" 2
  | permissionDenied => systemText "Permission denied" 13
  | notDirectory => systemText "Not a directory" 20
  | isDirectory => systemText "Is a directory" 21
  | nameTooLong => systemText "File name too long" 36
  | other reason code => systemText reason code
  | notUtf8 => "stream did not contain valid UTF-8"

end FileError

/-- The contents of files by their paths. -/
abbrev Files := String → Except FileError ByteArray

/-- The text of a file. -/
def readText (files : Files) (path : String) : Except FileError String := do
  let bytes ← files path
  match String.fromUTF8? bytes with
  | some text => return text
  | none => .error .notUtf8

/-- A file or a directory. -/
inductive FileTree where
  | file (contents : ByteArray)
  /-- What there is by its names. -/
  | directory (entries : List (String × FileTree))
  deriving Inhabited

/-- A place in a file tree. -/
structure Place where
  /-- What is there. -/
  here : FileTree
  /-- The directories it is in, the innermost first. -/
  above : List FileTree
  deriving Inhabited

namespace Place

/-- The length in bytes of the longest names. -/
def maxNameLength : Nat := 255

/-- The length in bytes of the longest paths. -/
def maxPathLength : Nat := 4095

/-- The place that the whole tree is. -/
def root (p : Place) : Place :=
  ⟨p.above.getLastD p.here, []⟩

/-- The place that a name stands for in a directory. The empty name, between
    two slashes or behind the last one, and a dot stand for the directory
    itself, two dots for the one it is in. -/
def enter (p : Place) (name : String) : Except FileError Place :=
  match p.here with
  | .file _ => .error .notDirectory
  | .directory entries =>
    if name = "" ∨ name = "." then .ok p
    else if name = ".." then
      match p.above with
      -- The whole tree is taken to be in itself.
      | [] => .ok p
      | directory :: above => .ok ⟨directory, above⟩
    else if maxNameLength < name.utf8ByteSize then .error .nameTooLong
    else
      match entries.lookup name with
      | none => .error .notFound
      | some entry => .ok ⟨entry, p.here :: p.above⟩

/-- The place that a path, which is not empty, leads to: from the root if it
    begins with a slash, else from `p`. -/
def find (p : Place) (path : String) : Except FileError Place :=
  if maxPathLength < path.utf8ByteSize then .error .nameTooLong
  else
    let start := if path.startsWith "/" then p.root else p
    (path.splitOn "/").foldlM enter start

/-- The files of a tree, by their paths from `p`. -/
def files (p : Place) : Files := fun path => do
  match (← p.find path).here with
  | .file contents => return contents
  | .directory _ => .error .isDirectory

end Place

end Machine32.CommandLine
