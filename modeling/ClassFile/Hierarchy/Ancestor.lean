import ClassFile.Hierarchy.Directory

namespace ClassFile

/-!
# Common superclasses

A hierarchy answers questions about classes from its graph and, for classes not
in there, from directories that are searched in order.  A class found in a
directory joins the graph.  `commonSuperclass` finds the closest superclass that
two classes share.  Interfaces have none but the root.  Its answers are kept, one
for both orders of a pair.

A chain of superclasses that never ends visits some class twice, so following
it for as many steps as there are classes, and one more, tells.
-/

structure Hierarchy where
  graph : ClassGraph
  directories : List Directory
  answers : Std.HashMap (String × String) String

namespace Hierarchy

def ofGraph (graph : ClassGraph) (directories : List Directory) : Hierarchy :=
  ⟨graph, directories, ∅⟩

/-- What a question learns of the hierarchy remains, even if it fails. -/
abbrev Query := ExceptT Fault (StateM Hierarchy)

/-- A bound on the number of classes that can be found. -/
def classCount (hierarchy : Hierarchy) : Nat :=
  let entries := hierarchy.directories.flatMap fun directory => directory.tree.entries
  hierarchy.graph.size + entries.length

/-- The class of a name in the first directory that has a file for it. -/
def load? (hierarchy : Hierarchy) (name : String) : Option (Except Fault ClassInfo) :=
  hierarchy.directories.findSome? fun directory => directory.load? name

/-- The class of a name, which joins the graph. -/
def find (name : String) : Query ClassInfo := do
  let hierarchy ← get
  match hierarchy.graph.find? name with
  | some info => return info
  | none =>
    match hierarchy.load? name with
    | some loaded =>
      let info ← loaded
      modify fun hierarchy => { hierarchy with graph := hierarchy.graph.add info }
      return info
    | none => throw (.typeNotPresent name)

def superclass (name : String) : Query (Option String) := do
  return (← find name).superclass.map ClassName.text

def isInterface (name : String) : Query Bool := do
  return (← find name).access.isInterface

/-- Add a class unless there is one of its name, and return the one there is. -/
def add (info : ClassInfo) : StateM Hierarchy ClassInfo := do
  modify fun hierarchy => { hierarchy with graph := hierarchy.graph.add info }
  return ((← get).graph.find? info.name.text).getD info

def root : String := ClassName.object.text

/-- A class and all its superclasses. -/
def chain : (steps : Nat) → (name : String) → Query (List String)
  | 0, name => throw (.endless s!"superclass chain of {name}")
  | steps + 1, name => do
    match ← superclass name with
    | some next => return name :: (← chain steps next)
    | none => return [name]

/-- The first of a class and its superclasses that is among some classes. -/
def firstAmong (classes : List String) : (steps : Nat) → (name : String) →
    Query (Option String)
  | 0, name => throw (.endless s!"superclass chain of {name}")
  | steps + 1, name => do
    if classes.contains name then return some name
    match ← superclass name with
    | some next => firstAmong classes steps next
    | none => return none

/-- The closest common superclass, found anew. -/
def searchCommon (first second : String) : Query String := do
  let firstIsInterface ← isInterface first
  let secondIsInterface ← isInterface second
  if first = root ∨ second = root ∨ firstIsInterface ∨ secondIsInterface then return root
  let steps := (← get).classCount + 1
  let ancestors ← chain steps first
  return (← firstAmong ancestors steps second).getD root

/-- The closest common superclass of two classes.  Both must be known, even
when one of them is the root. -/
def commonSuperclass (first second : String) : Query String := do
  let pair := if second < first then (second, first) else (first, second)
  match (← get).answers[pair]? with
  | some answer => return answer
  | none =>
    let answer ← searchCommon first second
    modify fun hierarchy => { hierarchy with answers := hierarchy.answers.insert pair answer }
    return answer

end Hierarchy
end ClassFile
