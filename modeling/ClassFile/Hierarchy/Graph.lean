import Std.Data.HashMap
import ClassFile.Class.Access
import ClassFile.Descriptor.Checked

namespace ClassFile

/-!
# Known classes

A graph holds what frames need to know of classes: their superclasses, and which
of them are interfaces.  A class once added stays as it is, so adding another of
the same name changes nothing.
-/

structure ClassInfo where
  name : ClassName
  /-- Missing only for the root of all classes. -/
  superclass : Option ClassName
  interfaces : List ClassName
  access : Access .cls
deriving DecidableEq, Repr

namespace ClassInfo

/-- Describe a class by texts, all of which must be class names. -/
def ofTexts (name : String) (superclass : Option String) (interfaces : List String)
    (access : Access .cls) : Except Fault ClassInfo :=
  return {
    name := ← ClassName.parse name
    superclass := ← superclass.mapM ClassName.parse
    interfaces := ← interfaces.mapM ClassName.parse
    access }

end ClassInfo

structure ClassGraph where
  classes : Std.HashMap String ClassInfo

namespace ClassGraph

def empty : ClassGraph := ⟨∅⟩

def find? (graph : ClassGraph) (name : String) : Option ClassInfo :=
  graph.classes[name]?

/-- Add a class unless there is one of its name. -/
def add (graph : ClassGraph) (info : ClassInfo) : ClassGraph :=
  ⟨graph.classes.insertIfNew info.name.text info⟩

def ofList (classes : List ClassInfo) : ClassGraph :=
  classes.foldl add empty

/-- The number of classes. -/
def size (graph : ClassGraph) : Nat :=
  graph.classes.size

end ClassGraph
end ClassFile
