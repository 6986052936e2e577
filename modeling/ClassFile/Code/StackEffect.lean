import ClassFile.Pool.Lookup
import ClassFile.Descriptor.Checked

namespace ClassFile

/-!
# What instructions do to the height of the stack

The effect of an instruction is the number of operand stack slots it pops and
the number it then pushes.  Instructions that name a constant, a field or a
method find the slots in its descriptor.
-/

namespace NumericKind

def width : NumericKind → Nat
  | long | double => 2
  | _ => 1

end NumericKind

namespace IntegralKind

def width : IntegralKind → Nat
  | long => 2
  | int => 1

end IntegralKind

/-- Slots popped, then slots pushed. -/
structure StackEffect where
  pops : Nat
  pushes : Nat
deriving DecidableEq, Repr

namespace Shuffle

def effect : Shuffle → StackEffect
  | pop => ⟨1, 0⟩
  | pop2 => ⟨2, 0⟩
  | dup => ⟨1, 2⟩
  | dupX1 => ⟨2, 3⟩
  | dupX2 => ⟨3, 4⟩
  | dup2 => ⟨2, 4⟩
  | dup2X1 => ⟨3, 5⟩
  | dup2X2 => ⟨4, 6⟩
  | swap => ⟨2, 2⟩

end Shuffle

namespace Pool

/-- Slots that a loaded constant takes. -/
def constantWidth (pool : Pool) (index : PoolIndex) : Except Fault Nat := do
  match ← pool.entry index with
  | .long _ | .double _ => return 2
  | .dynamic .. =>
    let signature ← pool.dynamicSignature index
    return (← FieldType.parse signature.descriptor).width
  | _ => return 1

def fieldWidth (pool : Pool) (index : PoolIndex) : Except Fault Nat := do
  return (← FieldType.parse (← pool.member index).descriptor).width

end Pool

namespace FieldAccess

/-- The effect on a field of the given slots. -/
def effect (width : Nat) : FieldAccess → StackEffect
  | getStatic => ⟨0, width⟩
  | putStatic => ⟨width, 0⟩
  | getField => ⟨1, width⟩
  | putField => ⟨1 + width, 0⟩

end FieldAccess

namespace InvokeMode

def hasReceiver : InvokeMode → Bool
  | static => false
  | _ => true

end InvokeMode

namespace ClassOp

def effect : ClassOp → StackEffect
  | new => ⟨0, 1⟩
  | newArray | checkCast | instanceOf => ⟨1, 1⟩

end ClassOp

namespace Instruction

def stackEffect (pool : Pool) : Instruction → Except Fault StackEffect
  | nop | increment .. => .ok ⟨0, 0⟩
  | pushNull | pushInt _ | pushFloat _ | pushByte _ | pushShort _ => .ok ⟨0, 1⟩
  | pushLong _ | pushDouble _ => .ok ⟨0, 2⟩
  | loadConstant index | loadWideConstant index => return ⟨0, ← pool.constantWidth index⟩
  | load kind _ => .ok ⟨0, kind.width⟩
  | store kind _ => .ok ⟨kind.width, 0⟩
  | arrayLoad kind => .ok ⟨2, kind.width⟩
  | arrayStore kind => .ok ⟨2 + kind.width, 0⟩
  | shuffle op => .ok op.effect
  | arithmetic _ kind => .ok ⟨2 * kind.width, kind.width⟩
  | negate kind => .ok ⟨kind.width, kind.width⟩
  | shift _ kind => .ok ⟨kind.width + 1, kind.width⟩
  | bitwise _ kind => .ok ⟨2 * kind.width, kind.width⟩
  | convert conversion => .ok ⟨conversion.source.width, conversion.target.width⟩
  | compareLongs | compareDoubles _ => .ok ⟨4, 1⟩
  | compareFloats _ => .ok ⟨2, 1⟩
  | accessField access field => return access.effect (← pool.fieldWidth field)
  | invoke mode method => do
    let descriptor ← MethodDescriptor.parse (← pool.member method).descriptor
    return ⟨descriptor.parameterWidth mode.hasReceiver, descriptor.resultWidth⟩
  | invokeDynamic callSite => do
    let descriptor ← MethodDescriptor.parse (← pool.dynamicSignature callSite).descriptor
    return ⟨descriptor.parameterWidth false, descriptor.resultWidth⟩
  | withClass op _ => .ok op.effect
  | newArray _ | arrayLength => .ok ⟨1, 1⟩
  | monitorEnter | monitorExit => .ok ⟨1, 0⟩
  | newMultiArray _ dimensions => .ok ⟨dimensions.toNat, 1⟩

end Instruction
end ClassFile
