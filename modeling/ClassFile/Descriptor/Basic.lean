import ClassFile.Name
import ClassFile.Wide

namespace ClassFile

/-!
# Field types and method descriptors

A descriptor spells a type in one letter for a primitive type, `L…;` around a
class name for an object, and a leading bracket for every dimension of an
array.  The types here are what a descriptor denotes; `chars` is its spelling.
Class constants name arrays by their descriptor and classes by their bare name,
which is `internalName`.
-/

inductive BaseType
  | byte | char | double | float | int | long | short | boolean
deriving DecidableEq, Repr

namespace BaseType

def letter : BaseType → Char
  | byte => 'B'
  | char => 'C'
  | double => 'D'
  | float => 'F'
  | int => 'I'
  | long => 'J'
  | short => 'S'
  | boolean => 'Z'

def ofLetter? : Char → Option BaseType
  | 'B' => some byte
  | 'C' => some char
  | 'D' => some double
  | 'F' => some float
  | 'I' => some int
  | 'J' => some long
  | 'S' => some short
  | 'Z' => some boolean
  | _ => none

theorem ofLetter_letter (type : BaseType) : ofLetter? type.letter = some type := by
  cases type <;> rfl

/-- Slots of a local variable or of the operand stack that a value takes. -/
def width : BaseType → Nat
  | double | long => 2
  | _ => 1

/-- The code of an element type in a `newarray` instruction. -/
def arrayCode : BaseType → UInt8
  | boolean => 4
  | char => 5
  | float => 6
  | double => 7
  | byte => 8
  | short => 9
  | int => 10
  | long => 11

def ofArrayCode? : UInt8 → Option BaseType
  | 4 => some boolean
  | 5 => some char
  | 6 => some float
  | 7 => some double
  | 8 => some byte
  | 9 => some short
  | 10 => some int
  | 11 => some long
  | _ => none

theorem ofArrayCode_arrayCode (type : BaseType) : ofArrayCode? type.arrayCode = some type := by
  cases type <;> rfl

end BaseType

inductive FieldType
  | base (type : BaseType)
  | object (name : ClassName)
  | array (element : FieldType)
deriving DecidableEq, Repr

namespace FieldType

def width : FieldType → Nat
  | base type => type.width
  | _ => 1

instance : Wide FieldType := ⟨width⟩

def isReference : FieldType → Bool
  | base _ => false
  | _ => true

def chars : FieldType → List Char
  | base type => [type.letter]
  | object name => 'L' :: (name.text.toList ++ [';'])
  | array element => '[' :: element.chars

def descriptor (type : FieldType) : String :=
  String.ofList type.chars

/-- The spelling in a class constant: the bare name of a class, the descriptor
of any other type. -/
def internalName : FieldType → String
  | object name => name.text
  | type => type.descriptor

def element? : FieldType → Option FieldType
  | array element => some element
  | _ => none

end FieldType

/-- The signature of a method, where no result stands for `void`. -/
structure MethodDescriptor where
  parameters : List FieldType
  result : Option FieldType
deriving DecidableEq, Repr

namespace MethodDescriptor

/-- Local variable slots of the arguments, one more with a receiver. -/
def parameterWidth (method : MethodDescriptor) (receiver : Bool) : Nat :=
  receiver.toNat + Wide.total method.parameters

def resultWidth (method : MethodDescriptor) : Nat :=
  method.result.elim 0 FieldType.width

def chars (method : MethodDescriptor) : List Char :=
  '(' :: (method.parameters.flatMap FieldType.chars ++
    ')' :: method.result.elim ['V'] FieldType.chars)

def descriptor (method : MethodDescriptor) : String :=
  String.ofList method.chars

end MethodDescriptor
end ClassFile
