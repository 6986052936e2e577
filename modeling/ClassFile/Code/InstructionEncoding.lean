import ClassFile.Bytes.Encoding

namespace ClassFile

/-!
# The encoding of instructions

An instruction is an opcode followed by operands.  Loads and stores of the first
four local variables have opcodes of their own, other local variables take one
byte, and those beyond 255 two bytes after a `wide` modifier, which also widens
the amount of an increment.  `width` is the number of bytes that `encode`
writes.
-/

namespace ValueKind

/-- The place of a kind among the typed loads, stores and returns. -/
def code : ValueKind → Nat
  | int => 0
  | long => 1
  | float => 2
  | double => 3
  | reference => 4

end ValueKind

namespace NumericKind

def code : NumericKind → Nat
  | int => 0
  | long => 1
  | float => 2
  | double => 3

end NumericKind

namespace IntegralKind

def code : IntegralKind → Nat
  | int => 0
  | long => 1

end IntegralKind

namespace ElementKind

def code : ElementKind → Nat
  | int => 0
  | long => 1
  | float => 2
  | double => 3
  | reference => 4
  | byte => 5
  | char => 6
  | short => 7

end ElementKind

namespace ArithmeticOp

def code : ArithmeticOp → Nat
  | add => 0
  | sub => 1
  | mul => 2
  | div => 3
  | rem => 4

end ArithmeticOp

namespace BitwiseOp

def code : BitwiseOp → Nat
  | and => 0
  | or => 1
  | xor => 2

end BitwiseOp

namespace Shift

def code : Shift → Nat
  | left => 0
  | arithmeticRight => 1
  | logicalRight => 2

end Shift

namespace NanOrder

def code : NanOrder → Nat
  | less => 0
  | greater => 1

end NanOrder

namespace Shuffle

def code : Shuffle → Nat
  | pop => 0
  | pop2 => 1
  | dup => 2
  | dupX1 => 3
  | dupX2 => 4
  | dup2 => 5
  | dup2X1 => 6
  | dup2X2 => 7
  | swap => 8

end Shuffle

namespace Conversion

def code : Conversion → Nat
  | intToLong => 0
  | intToFloat => 1
  | intToDouble => 2
  | longToInt => 3
  | longToFloat => 4
  | longToDouble => 5
  | floatToInt => 6
  | floatToLong => 7
  | floatToDouble => 8
  | doubleToInt => 9
  | doubleToLong => 10
  | doubleToFloat => 11
  | intToByte => 12
  | intToChar => 13
  | intToShort => 14

end Conversion

namespace FieldAccess

def code : FieldAccess → Nat
  | getStatic => 0
  | putStatic => 1
  | getField => 2
  | putField => 3

end FieldAccess

namespace InvokeMode

def opcode : InvokeMode → UInt8
  | virtual => 0xB6
  | special => 0xB7
  | static => 0xB8
  | interface _ => 0xB9

/-- What follows the method. -/
def trailer : InvokeMode → Bytes
  | interface count => [count, 0]
  | _ => []

end InvokeMode

namespace ClassOp

def opcode : ClassOp → UInt8
  | new => 0xBB
  | newArray => 0xBD
  | checkCast => 0xC0
  | instanceOf => 0xC1

end ClassOp

namespace Instruction

/-- The modifier before an instruction with wide operands. -/
def wideModifier : UInt8 := 0xC4

/-- The operands are too large for the plain encoding. -/
def isWide : Instruction → Bool
  | load _ slot | store _ slot => 0xFF < slot.toNat
  | increment slot amount => 0xFF < slot.toNat || amount.toInt < -128 || 127 < amount.toInt
  | _ => false

/-- The opcode, not counting a `wide` modifier. -/
def opcode : Instruction → UInt8
  | nop => 0x00
  | pushNull => 0x01
  | pushInt nth => .ofNat (0x02 + nth.val)
  | pushLong value => .ofNat (0x09 + value.val)
  | pushFloat value => .ofNat (0x0B + value.val)
  | pushDouble value => .ofNat (0x0E + value.val)
  | pushByte _ => 0x10
  | pushShort _ => 0x11
  | loadConstant constant => if constant ≤ 0xFF then 0x12 else 0x13
  | loadWideConstant _ => 0x14
  | load kind slot =>
    if slot.toNat < 4 then .ofNat (0x1A + 4 * kind.code + slot.toNat) else .ofNat (0x15 + kind.code)
  | arrayLoad kind => .ofNat (0x2E + kind.code)
  | store kind slot =>
    if slot.toNat < 4 then .ofNat (0x3B + 4 * kind.code + slot.toNat) else .ofNat (0x36 + kind.code)
  | arrayStore kind => .ofNat (0x4F + kind.code)
  | shuffle op => .ofNat (0x57 + op.code)
  | arithmetic op kind => .ofNat (0x60 + 4 * op.code + kind.code)
  | negate kind => .ofNat (0x74 + kind.code)
  | shift direction kind => .ofNat (0x78 + 2 * direction.code + kind.code)
  | bitwise op kind => .ofNat (0x7E + 2 * op.code + kind.code)
  | increment .. => 0x84
  | convert conversion => .ofNat (0x85 + conversion.code)
  | compareLongs => 0x94
  | compareFloats nan => .ofNat (0x95 + nan.code)
  | compareDoubles nan => .ofNat (0x97 + nan.code)
  | accessField access _ => .ofNat (0xB2 + access.code)
  | invoke mode _ => mode.opcode
  | invokeDynamic _ => 0xBA
  | withClass op _ => op.opcode
  | newArray _ => 0xBC
  | arrayLength => 0xBE
  | monitorEnter => 0xC2
  | monitorExit => 0xC3
  | newMultiArray .. => 0xC5

/-- Bytes of the operands. -/
def operandWidth (instruction : Instruction) : Nat :=
  match instruction with
  | load _ slot | store _ slot =>
    if slot.toNat < 4 then 0 else if instruction.isWide then 2 else 1
  | pushByte _ | newArray _ => 1
  | loadConstant constant => if constant ≤ 0xFF then 1 else 2
  | pushShort _ | loadWideConstant _ | accessField .. | withClass .. => 2
  | invoke (.interface _) _ | invokeDynamic _ => 4
  | invoke .. => 2
  | increment .. => if instruction.isWide then 4 else 2
  | newMultiArray .. => 3
  | _ => 0

/-- Bytes of the instruction, the modifier included. -/
def width (instruction : Instruction) : Nat :=
  instruction.isWide.toNat + 1 + instruction.operandWidth

/-- A local variable after its opcode. -/
def encodeSlot (slot : UInt16) : Bytes :=
  if slot.toNat < 4 then []
  else if slot.toNat ≤ 0xFF then Encoding.u1 slot.toUInt8
  else Encoding.u2 slot

def encodeOperands (instruction : Instruction) : Except Fault Bytes :=
  match instruction with
  | load _ slot | store _ slot => .ok (encodeSlot slot)
  | pushByte value => .ok (Encoding.s1 value)
  | pushShort value => .ok (Encoding.s2 value)
  | loadConstant constant =>
    if constant ≤ 0xFF then .ok [UInt8.ofNat constant] else Encoding.index constant
  | loadWideConstant index | accessField _ index | withClass _ index => Encoding.index index
  | invoke mode method => return (← Encoding.index method) ++ mode.trailer
  | invokeDynamic callSite => return (← Encoding.index callSite) ++ [0, 0]
  | increment slot amount =>
    if instruction.isWide then .ok (Encoding.u2 slot ++ Encoding.s2 amount)
    else .ok [slot.toUInt8, amount.toInt8.toUInt8]
  | newArray element => .ok [element.arrayCode]
  | newMultiArray cls dimensions => return (← Encoding.index cls) ++ [dimensions]
  | _ => .ok []

def encode (instruction : Instruction) : Except Fault Bytes := do
  let operands ← instruction.encodeOperands
  let code := instruction.opcode :: operands
  return if instruction.isWide then wideModifier :: code else code

end Instruction
end ClassFile
