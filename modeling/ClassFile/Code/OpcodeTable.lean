import ClassFile.Code.BranchEncoding

namespace ClassFile

/-!
# Finding instructions by opcode

An opcode is looked up by searching the instructions of its kind for the one
that has it.  Most instructions are their opcode alone and stand in one table.
For the others the operands are still missing.
-/

def ValueKind.all : List ValueKind := [int, long, float, double, reference]

def NumericKind.all : List NumericKind := [int, long, float, double]

def IntegralKind.all : List IntegralKind := [int, long]

def ElementKind.all : List ElementKind :=
  [int, long, float, double, reference, byte, char, short]

def ArithmeticOp.all : List ArithmeticOp := [add, sub, mul, div, rem]

def BitwiseOp.all : List BitwiseOp := [and, or, xor]

def Shift.all : List Shift := [left, arithmeticRight, logicalRight]

def NanOrder.all : List NanOrder := [less, greater]

def Shuffle.all : List Shuffle :=
  [pop, pop2, dup, dupX1, dupX2, dup2, dup2X1, dup2X2, swap]

def Conversion.all : List Conversion :=
  [intToLong, intToFloat, intToDouble, longToInt, longToFloat, longToDouble, floatToInt,
    floatToLong, floatToDouble, doubleToInt, doubleToLong, doubleToFloat, intToByte, intToChar,
    intToShort]

def FieldAccess.all : List FieldAccess := [getStatic, putStatic, getField, putField]

def ClassOp.all : List ClassOp := [new, newArray, checkCast, instanceOf]

def Comparison.all : List Comparison := [eq, ne, lt, ge, gt, le]

def Equality.all : List Equality := [eq, ne]

def Condition.all : List Condition :=
  Comparison.all.map zero ++ Comparison.all.map ints ++ Equality.all.map references ++
    Equality.all.map null

namespace Instruction

/-- The instructions that are written as their opcode alone. -/
def plain : List Instruction :=
  [nop, pushNull, compareLongs, arrayLength, monitorEnter, monitorExit] ++
    (List.finRange 7).map pushInt ++ (List.finRange 2).map pushLong ++
    (List.finRange 3).map pushFloat ++ (List.finRange 2).map pushDouble ++
    ValueKind.all.flatMap (fun kind =>
      [0, 1, 2, 3].map (load kind) ++ [0, 1, 2, 3].map (store kind)) ++
    ElementKind.all.map arrayLoad ++ ElementKind.all.map arrayStore ++
    Shuffle.all.map shuffle ++
    NumericKind.all.flatMap (fun kind =>
      negate kind :: ArithmeticOp.all.map (arithmetic · kind)) ++
    IntegralKind.all.flatMap (fun kind =>
      Shift.all.map (shift · kind) ++ BitwiseOp.all.map (bitwise · kind)) ++
    Conversion.all.map convert ++ NanOrder.all.map compareFloats ++
    NanOrder.all.map compareDoubles

def findPlain? (opcode : UInt8) : Option Instruction :=
  plain.find? fun instruction => instruction.opcode == opcode

/-- What `findPlain?` finds for each opcode. -/
def plainTable : Array (Option Instruction) :=
  (Array.range 256).map fun code => findPlain? (UInt8.ofNat code)

/-- The instruction of an opcode that stands alone. -/
def ofOpcode? (opcode : UInt8) : Option Instruction :=
  (plainTable[opcode.toNat]?).join

theorem ofOpcode_eq_findPlain (opcode : UInt8) : ofOpcode? opcode = findPlain? opcode := by
  have inside : opcode.toNat < 256 := opcode.toNat_lt
  simp [ofOpcode?, plainTable, inside]

/-- The load or store of an opcode, when a local variable follows. -/
def ofSlotOpcode? (opcode : UInt8) : Option (UInt16 → Instruction) :=
  ((ValueKind.all.find? fun kind => .ofNat (0x15 + kind.code) == opcode).map load).or
    ((ValueKind.all.find? fun kind => .ofNat (0x36 + kind.code) == opcode).map store)

/-- The instruction of an opcode, when a position in the constant pool follows
and nothing else. -/
def ofPoolOpcode? (opcode : UInt8) : Option (PoolIndex → Instruction) :=
  if opcode = 0x13 then some loadConstant
  else if opcode = 0x14 then some loadWideConstant
  else
    (((FieldAccess.all.find? fun access => .ofNat (0xB2 + access.code) == opcode).map
      accessField).or
    (([.virtual, .special, .static].find? fun mode => mode.opcode == opcode).map invoke)).or
    ((ClassOp.all.find? fun op => op.opcode == opcode).map withClass)

end Instruction

namespace Branch

/-- The branch of an opcode that stands alone. -/
def ofOpcode? (opcode : UInt8) : Option (Branch Nat Nat Unit) :=
  (throws :: returns none :: ValueKind.all.map fun kind => returns (some kind)).find?
    fun branch => branch.opcode? == some opcode

/-- The branch of an opcode, when a target follows in 16 bits. -/
def ofShortOpcode? (opcode : UInt8) : Option (Nat → Branch Nat Nat Unit) :=
  if opcode = 0xA7 then some goto
  else if opcode = 0xA8 then some (jsr · ())
  else
    (Condition.all.find? fun condition => condition.opcode == opcode).map
      fun condition target => conditional condition target ()

/-- The branch of an opcode, when a target follows in 32 bits. -/
def ofWideOpcode? (opcode : UInt8) : Option (Nat → Branch Nat Nat Unit) :=
  if opcode = 0xC8 then some gotoWide
  else if opcode = 0xC9 then some (jsrWide · ())
  else none

end Branch
end ClassFile
