import ClassFile.Code.Branch

namespace ClassFile

/-!
# Instructions in messages

A message that blames an instruction or a branch spells it in full: the name of
the variant, then its operands in parentheses, or between braces where they are
named.
-/

/-- Operands after the name of a variant. -/
def applied (name : String) (operands : List String) : String :=
  name ++ "(" ++ ", ".intercalate operands ++ ")"

def listed (items : List String) : String :=
  "[" ++ ", ".intercalate items ++ "]"

namespace PoolIndex

def text (index : PoolIndex) : String :=
  applied "ConstantIndex" [toString index]

def classText (index : PoolIndex) : String :=
  applied "ClassConstantIndex" [text index]

end PoolIndex

def BaseType.text : BaseType → String
  | byte => "Byte"
  | char => "Char"
  | double => "Double"
  | float => "Float"
  | int => "Int"
  | long => "Long"
  | short => "Short"
  | boolean => "Boolean"

def NumericKind.letter : NumericKind → String
  | int => "I"
  | long => "L"
  | float => "F"
  | double => "D"

def IntegralKind.letter : IntegralKind → String
  | int => "I"
  | long => "L"

def ValueKind.letter : ValueKind → String
  | int => "I"
  | long => "L"
  | float => "F"
  | double => "D"
  | reference => "A"

def ElementKind.letter : ElementKind → String
  | int => "I"
  | long => "L"
  | float => "F"
  | double => "D"
  | reference => "A"
  | byte => "B"
  | char => "C"
  | short => "S"

def ArithmeticOp.text : ArithmeticOp → String
  | add => "Add"
  | sub => "Sub"
  | mul => "Mul"
  | div => "Div"
  | rem => "Rem"

def BitwiseOp.text : BitwiseOp → String
  | and => "And"
  | or => "Or"
  | xor => "Xor"

def Shift.text : Shift → String
  | left => "Left"
  | arithmeticRight => "ArithmeticRight"
  | logicalRight => "LogicalRight"

def NanOrder.text : NanOrder → String
  | less => "L"
  | greater => "G"

def Shuffle.text : Shuffle → String
  | pop => "Pop"
  | pop2 => "Pop2"
  | dup => "Dup"
  | dupX1 => "DupX1"
  | dupX2 => "DupX2"
  | dup2 => "Dup2"
  | dup2X1 => "Dup2X1"
  | dup2X2 => "Dup2X2"
  | swap => "Swap"

def Conversion.text : Conversion → String
  | intToLong => "I2L"
  | intToFloat => "I2F"
  | intToDouble => "I2D"
  | longToInt => "L2I"
  | longToFloat => "L2F"
  | longToDouble => "L2D"
  | floatToInt => "F2I"
  | floatToLong => "F2L"
  | floatToDouble => "F2D"
  | doubleToInt => "D2I"
  | doubleToLong => "D2L"
  | doubleToFloat => "D2F"
  | intToByte => "I2B"
  | intToChar => "I2C"
  | intToShort => "I2S"

def FieldAccess.text : FieldAccess → String
  | getStatic => "GetStatic"
  | putStatic => "PutStatic"
  | getField => "GetField"
  | putField => "PutField"

def InvokeMode.text : InvokeMode → String
  | virtual => "Virtual"
  | special => "Special"
  | static => "Static"
  | interface count => applied "Interface" [toString count]

def ClassOp.text : ClassOp → String
  | new => "New"
  | newArray => "ANewArray"
  | checkCast => "CheckCast"
  | instanceOf => "InstanceOf"

namespace Instruction

def text : Instruction → String
  | nop => "Nop"
  | pushNull => "AConstNull"
  | pushInt 0 => "IConstM1"
  | pushInt nth => "IConst" ++ toString (nth.val - 1)
  | pushLong value => "LConst" ++ toString value.val
  | pushFloat value => "FConst" ++ toString value.val
  | pushDouble value => "DConst" ++ toString value.val
  | pushByte value => applied "BiPush" [toString value]
  | pushShort value => applied "SiPush" [toString value]
  | loadConstant constant => applied "Ldc" [PoolIndex.text constant]
  | loadWideConstant constant => applied "Ldc2" [PoolIndex.text constant]
  | load kind slot => applied (kind.letter ++ "Load") [toString slot]
  | store kind slot => applied (kind.letter ++ "Store") [toString slot]
  | arrayLoad kind => kind.letter ++ "ALoad"
  | arrayStore kind => kind.letter ++ "AStore"
  | shuffle op => op.text
  | arithmetic op kind => kind.letter ++ op.text
  | negate kind => kind.letter ++ "Neg"
  | shift direction kind => applied (kind.letter ++ "Sh") [direction.text]
  | bitwise op kind => kind.letter ++ op.text
  | increment slot amount => applied "IInc" [toString slot, toString amount]
  | convert conversion => conversion.text
  | compareLongs => "LCmp"
  | compareFloats nan => applied "FCmp" [nan.text]
  | compareDoubles nan => applied "DCmp" [nan.text]
  | accessField access field => applied access.text [PoolIndex.text field]
  | invoke mode method => applied "Invoke" [mode.text, PoolIndex.text method]
  | invokeDynamic callSite => applied "InvokeDynamic" [PoolIndex.text callSite]
  | withClass op cls => applied op.text [PoolIndex.classText cls]
  | newArray element => applied "NewArray" [element.text]
  | arrayLength => "ArrayLength"
  | monitorEnter => "MonitorEnter"
  | monitorExit => "MonitorExit"
  | newMultiArray cls dimensions =>
    applied "MultiANewArray" [PoolIndex.classText cls, toString dimensions]

end Instruction

def Comparison.text : Comparison → String
  | eq => "EQ"
  | ne => "NE"
  | lt => "LT"
  | ge => "GE"
  | gt => "GT"
  | le => "LE"

def Equality.text : Equality → String
  | eq => "EQ"
  | ne => "NE"

namespace Condition

def family : Condition → String
  | zero _ => "If"
  | ints _ => "IfICmp"
  | references _ => "IfACmp"
  | null _ => "IfNull"

def test : Condition → String
  | zero comparison | ints comparison => comparison.text
  | references equality | null equality => equality.text

end Condition

namespace Branch

variable {σ ω ν : Type}

/-- The letter of the value that a return takes away. -/
def resultLetter : Option ValueKind → String
  | some kind => kind.letter
  | none => ""

def text (short : σ → String) (wide : ω → String) (next : ν → String) :
    Branch σ ω ν → String
  | conditional condition target after =>
    applied condition.family [condition.test, short target, next after]
  | goto target => applied "Goto" [short target]
  | gotoWide target => applied "GotoW" [wide target]
  | jsr target after => applied "Jsr" [short target, next after]
  | jsrWide target after => applied "JsrW" [wide target, next after]
  | ret slot => applied "Ret" [toString slot]
  | tableSwitch padding otherwise low targets =>
    "TableSwitch \x7b padding: " ++ toString padding ++ ", default: " ++ wide otherwise ++
      ", low: " ++ toString low ++ ", targets: " ++ listed (targets.map wide) ++ " \x7d"
  | lookupSwitch padding otherwise targets =>
    "LookupSwitch \x7b padding: " ++ toString padding ++ ", default: " ++ wide otherwise ++
      ", targets: " ++
      listed (targets.map fun pair => applied "" [toString pair.1, wide pair.2]) ++ " \x7d"
  | returns kind => resultLetter kind ++ "Return"
  | throws => "AThrow"
  | fallThrough after => applied "FallThrough" [next after]
  | stop => "End"

/-- A block in a message. -/
def blockText (block : Nat) : String :=
  "b" ++ toString block

/-- A branch between blocks. -/
def textOfBlocks (branch : Branch Nat Nat Nat) : String :=
  branch.text blockText blockText blockText

end Branch
end ClassFile
