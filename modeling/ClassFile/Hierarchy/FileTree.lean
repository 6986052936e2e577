import ClassFile.Bytes.BigEndian
import ClassFile.Fault

namespace ClassFile

/-!
# Trees of files

A `FileTree` is what is known of the files around a class path.  A path is
followed from a directory, one component after the other.  Two dots lead to the
directory above, while a single dot and an empty component lead nowhere else.
Every component but the last must be a directory that is there, even if dots
lead out of it again.  What lies above the top of the tree is not known, so a
path that leaves the tree finds nothing.
-/

/-- The components from the top of a tree down to an entry, the last one
first. -/
abbrev Place := List String

inductive FileEntry
  | directory
  | file (bytes : Bytes)
deriving DecidableEq, Repr

/-- Entries by their places.  Where there are two, the first one counts. -/
structure FileTree where
  entries : List (Place × FileEntry)

namespace FileTree

def empty : FileTree := ⟨[]⟩

/-- The components of a path that lead somewhere. -/
def components (path : String) : List String :=
  ((path.toList.splitOn '/').map String.ofList).filter fun part => part != "" && part != "."

/-- The component that leads to the directory above. -/
def above : String := ".."

/-- The most bytes that a component can have. -/
def maxNameBytes : Nat := 255

/-- The entry at a place.  The top is always a directory. -/
def entry? (tree : FileTree) : Place → Option FileEntry
  | [] => some .directory
  | name :: place => tree.entries.lookup (name :: place)

/-- Add a directory unless its place is taken. -/
def addDirectory (tree : FileTree) (place : Place) : FileTree :=
  if (tree.entry? place).isSome then tree else ⟨(place, .directory) :: tree.entries⟩

/-- Write a file, given the path to it from a directory.  All directories that
the path names are added. -/
def write (bytes : Bytes) (tree : FileTree) (place : Place) : List String → FileTree
  | [] => tree
  | [name] => ⟨(name :: place, .file bytes) :: tree.entries⟩
  | name :: next :: rest =>
    if name = above then tree.write bytes place.tail (next :: rest)
    else (tree.addDirectory (name :: place)).write bytes (name :: place) (next :: rest)

/-- What a path leads to from a directory, if to anything. -/
def follow (tree : FileTree) (place : Place) : List String → Except PathFault (Option FileEntry)
  | [] => .ok (some .directory)
  | name :: rest =>
    if name = above then
      match place with
      | [] => .ok none
      | _ :: outer => tree.follow outer rest
    else if maxNameBytes < name.utf8ByteSize then .error .tooLong
    else
      match tree.entry? (name :: place) with
      | none => .ok none
      | some .directory => tree.follow (name :: place) rest
      | some (.file bytes) =>
        if rest.isEmpty then .ok (some (.file bytes)) else .error .throughFile

/-- The bytes of the file that a path leads to from a directory. -/
def read (tree : FileTree) (place : Place) (path : String) : Except PathFault (Option Bytes) := do
  match ← tree.follow place (components path) with
  | some (.file bytes) => return some bytes
  | some .directory => throw .isDirectory
  | none => return none

end FileTree
end ClassFile
