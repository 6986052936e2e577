import ClassFile.Descriptor.Basic

namespace ClassFile

/-!
# Instructions that do not branch

An instruction is described by what it does, not by how it is encoded.  The
families of the instruction set, such as the typed loads or the shifts, are one
constructor each, a local variable or constant operand stands for all encodings
of it, and the `wide` modifier does not appear.
-/

/-- A position in the constant pool, counted in slots from one. -/
abbrev PoolIndex := Nat

inductive NumericKind
  | int | long | float | double
deriving DecidableEq, Repr

inductive IntegralKind
  | int | long
deriving DecidableEq, Repr

/-- The kinds of values that local variables hold. -/
inductive ValueKind
  | int | long | float | double | reference
deriving DecidableEq, Repr

namespace ValueKind

/-- Slots that a value takes. -/
def width : ValueKind → Nat
  | long | double => 2
  | _ => 1

end ValueKind

/-- The kinds of values that arrays hold, where booleans count as bytes. -/
inductive ElementKind
  | int | long | float | double | reference | byte | char | short
deriving DecidableEq, Repr

namespace ElementKind

/-- Operand stack slots that an element takes. -/
def width : ElementKind → Nat
  | long | double => 2
  | _ => 1

end ElementKind

inductive ArithmeticOp
  | add | sub | mul | div | rem
deriving DecidableEq, Repr

inductive BitwiseOp
  | and | or | xor
deriving DecidableEq, Repr

inductive Shift
  | left | arithmeticRight | logicalRight
deriving DecidableEq, Repr

/-- The result of a floating point comparison with a NaN: minus one or one. -/
inductive NanOrder
  | less | greater
deriving DecidableEq, Repr

/-- Instructions that only rearrange the operand stack. -/
inductive Shuffle
  | pop | pop2 | dup | dupX1 | dupX2 | dup2 | dup2X1 | dup2X2 | swap
deriving DecidableEq, Repr

inductive Conversion
  | intToLong | intToFloat | intToDouble
  | longToInt | longToFloat | longToDouble
  | floatToInt | floatToLong | floatToDouble
  | doubleToInt | doubleToLong | doubleToFloat
  | intToByte | intToChar | intToShort
deriving DecidableEq, Repr

namespace Conversion

def source : Conversion → NumericKind
  | intToLong | intToFloat | intToDouble | intToByte | intToChar | intToShort => .int
  | longToInt | longToFloat | longToDouble => .long
  | floatToInt | floatToLong | floatToDouble => .float
  | doubleToInt | doubleToLong | doubleToFloat => .double

def target : Conversion → NumericKind
  | longToInt | floatToInt | doubleToInt | intToByte | intToChar | intToShort => .int
  | intToLong | floatToLong | doubleToLong => .long
  | intToFloat | longToFloat | doubleToFloat => .float
  | intToDouble | longToDouble | floatToDouble => .double

end Conversion

inductive FieldAccess
  | getStatic | putStatic | getField | putField
deriving DecidableEq, Repr

/-- How a method is called.  A call through an interface also states the slots
of the arguments, the receiver included. -/
inductive InvokeMode
  | virtual | special | static
  | interface (count : UInt8)
deriving DecidableEq, Repr

/-- Instructions whose operand is a class. -/
inductive ClassOp
  | new | newArray | checkCast | instanceOf
deriving DecidableEq, Repr

inductive Instruction
  | nop
  | pushNull
  /-- One of the `int` constants from minus one to five, counted from minus one. -/
  | pushInt (nth : Fin 7)
  | pushLong (value : Fin 2)
  | pushFloat (value : Fin 3)
  | pushDouble (value : Fin 2)
  | pushByte (value : Int8)
  | pushShort (value : Int16)
  /-- Load a constant, which the encoding takes to be one slot wide. -/
  | loadConstant (constant : PoolIndex)
  /-- Load a constant, which the encoding takes to be two slots wide. -/
  | loadWideConstant (constant : PoolIndex)
  | load (kind : ValueKind) (slot : UInt16)
  | store (kind : ValueKind) (slot : UInt16)
  | arrayLoad (kind : ElementKind)
  | arrayStore (kind : ElementKind)
  | shuffle (op : Shuffle)
  | arithmetic (op : ArithmeticOp) (kind : NumericKind)
  | negate (kind : NumericKind)
  | shift (direction : Shift) (kind : IntegralKind)
  | bitwise (op : BitwiseOp) (kind : IntegralKind)
  | increment (slot : UInt16) (amount : Int16)
  | convert (conversion : Conversion)
  | compareLongs
  | compareFloats (nan : NanOrder)
  | compareDoubles (nan : NanOrder)
  | accessField (access : FieldAccess) (field : PoolIndex)
  | invoke (mode : InvokeMode) (method : PoolIndex)
  | invokeDynamic (callSite : PoolIndex)
  | withClass (op : ClassOp) (cls : PoolIndex)
  | newArray (element : BaseType)
  | arrayLength
  | monitorEnter
  | monitorExit
  | newMultiArray (cls : PoolIndex) (dimensions : UInt8)
deriving DecidableEq, Repr

namespace Instruction

/-- The local variable that a load or a store names. -/
def accessedSlot? : Instruction → Option UInt16
  | load _ slot | store _ slot => some slot
  | _ => none

/-- The first local variable slot that is touched and the number of them. -/
def localAccess? : Instruction → Option (UInt16 × Nat)
  | load kind slot | store kind slot => some (slot, kind.width)
  | increment slot _ => some (slot, 1)
  | _ => none

/-- Only `new` creates values that wait for their constructor. -/
def isNew : Instruction → Bool
  | withClass .new _ => true
  | _ => false

end Instruction
end ClassFile
