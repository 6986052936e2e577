import ClassFile.Class.Image
import ClassFile.Hierarchy.FileTree
import ClassFile.Hierarchy.Graph

namespace ClassFile

/-!
# Classes in directories

A class is found in a directory as the file of its name.  Such a file must hold
a class file of that very class.  So dots in a name may lead to a file, but never
to a class.
-/

/-- A directory of a class path, which stands right below the top of a tree. -/
structure Directory where
  path : String
  tree : FileTree

namespace Directory

def place (directory : Directory) : Place :=
  [directory.path]

/-- Add a directory with files that are written one after the other. -/
def addTo (tree : FileTree) (path : String) (files : List (String × Bytes)) : FileTree :=
  files.foldl (fun tree (file, bytes) => tree.write bytes [path] (FileTree.components file))
    (tree.addDirectory [path])

/-- Directories next to each other, each with its files by their paths below
it. -/
def sideBySide (listed : List (String × List (String × Bytes))) : List Directory :=
  let tree := listed.foldl (fun tree (path, files) => addTo tree path files) FileTree.empty
  listed.map fun (path, _) => ⟨path, tree⟩

/-- A directory with nothing known of what is next to it. -/
def ofFiles (path : String) (files : List (String × Bytes)) : Directory :=
  ⟨path, addTo FileTree.empty path files⟩

/-- The path of a file as messages name it. -/
def pathTo (directory : Directory) (file : String) : String :=
  directory.path ++ "/" ++ file

/-- The most bytes that a path can have. -/
def maxPathBytes : Nat := 4095

/-- The bytes of a file by its path below the directory.  A path from the root of
the file system is not below it. -/
def read (directory : Directory) (file : String) : Except PathFault (Option Bytes) :=
  if file.toList.contains '\x00' then .error .nul
  else if maxPathBytes < (directory.pathTo file).utf8ByteSize then .error .tooLong
  else if file.toList.head? = some '/' then .ok none
  else directory.tree.read directory.place file

/-- What a class image says of its class. -/
def describe (path name : String) (image : ClassImage) : Except Fault ClassInfo := do
  let found ← image.name
  if found ≠ name then throw (.malformed (.misplacedClass path found name))
  return {
    name := ← ClassName.parse name
    superclass := ← (← image.superName).mapM ClassName.parse
    interfaces := ← (← image.interfaceNames).mapM ClassName.parse
    access := image.access }

/-- The class of a name, unless the directory has no file for it. -/
def load? (directory : Directory) (name : String) : Option (Except Fault ClassInfo) :=
  let file := name ++ ".class"
  match directory.read file with
  | .ok none => none
  | .ok (some bytes) =>
    some do describe (directory.pathTo file) name (← ClassImage.parse bytes)
  | .error cause => some (.error (.unreadable cause))

end Directory
end ClassFile
