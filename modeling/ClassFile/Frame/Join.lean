import ClassFile.Frame.Transfer
import ClassFile.Hierarchy.Ancestor

namespace ClassFile

/-!
# Joining frames

Where two paths meet, the type of a local variable or operand is the least one
that covers both.  For two classes it is their common superclass, for two arrays
of the same dimensions an array of the common superclass of their elements, and
for anything else that is a reference an array of objects of as many dimensions
as both have, down to a plain object.  All other types that differ leave nothing
usable.
-/

/-- A class name or array descriptor, taken apart into the leading brackets and
what comes after them. -/
structure TypeName where
  dimensions : Nat
  element : List Char

namespace TypeName

def ofString (text : String) : TypeName :=
  ⟨(text.toList.takeWhile (· == '[')).length, text.toList.dropWhile (· == '[')⟩

def isArray (name : TypeName) : Bool :=
  0 < name.dimensions

/-- The class whose objects are the elements. -/
def elementClass? (name : TypeName) : Option String :=
  match name.element with
  | 'L' :: rest => if rest.getLast? = some ';' then some (String.ofList rest.dropLast) else none
  | _ => none

/-- Dimensions of the arrays of objects that the type belongs to.  An array of
primitives is an object only as a whole. -/
def objectDimensions (name : TypeName) : Nat :=
  if name.elementClass?.isSome then name.dimensions else name.dimensions - 1

/-- The descriptor of an array of objects. -/
def arrayOf (dimensions : Nat) (cls : String) : String :=
  String.ofList (List.replicate dimensions '[') ++ "L" ++ cls ++ ";"

/-- The type of the arrays of objects of some dimensions, where none are left
the root of all classes. -/
def objects (dimensions : Nat) : String :=
  if dimensions = 0 then ClassName.object.text else arrayOf dimensions ClassName.object.text

end TypeName

namespace Hierarchy

/-- The least reference type that covers two others. -/
def joinNames (first second : String) : Query String := do
  let a := TypeName.ofString first
  let b := TypeName.ofString second
  if !a.isArray && !b.isArray then commonSuperclass first second
  else
    let element? := if a.dimensions = b.dimensions then
        a.elementClass?.bind fun cls => b.elementClass?.map (cls, ·)
      else none
    match element? with
    | some (cls, other) => return TypeName.arrayOf a.dimensions (← commonSuperclass cls other)
    | none => return TypeName.objects (min a.objectDimensions b.objectDimensions)

/-- The least type that covers two others. -/
def joinTypes (first second : BlockType) : Query BlockType :=
  if first = second then return first
  else
    match first, second with
    | .null, .object name | .object name, .null => return .object name
    | .object a, .object b => return .object (← joinNames a b)
    | _, _ => return .top

/-- Join the locals slot by slot, where a slot that one side lacks is
unusable. -/
def joinLocals (first second : List BlockType) : Query (List BlockType) := do
  let shared ← (first.zip second).mapM fun (a, b) => joinTypes a b
  let lone := max first.length second.length - min first.length second.length
  return shared ++ List.replicate lone .top

/-- Join the frame at the start of a block with that of another path there.  The
operands must agree in number and in slots. -/
def joinFrames (block : Nat) (known incoming : BlockFrame) : Query BlockFrame := do
  let mismatch := Fault.incompatibleHeights block known.height incoming.height
  if known.stack.length ≠ incoming.stack.length then throw mismatch
  let operands ← (known.operands.zip incoming.operands).mapM fun (a, b) =>
    if a.width = b.width then joinTypes a b else throw mismatch
  return ⟨← joinLocals known.locals incoming.locals, operands.reverse⟩

end Hierarchy
end ClassFile
