import ClassFile.Bytes.Cursor
import ClassFile.Bytes.Encoding
import ClassFile.Descriptor.Checked

namespace ClassFile

/-!
# Verification types

The type checking verifier assigns one of these types to every local variable
and operand.  How a class and the creation site of an uninitialized object are
named depends on the stage: classes by name or by pool position, sites by label,
block or code offset.
-/

inductive VerificationType (κ υ : Type)
  /-- Unusable: never written, or different on two paths. -/
  | top
  | integer
  | float
  | double
  | long
  | null
  /-- The receiver of a constructor that has not yet called another one. -/
  | uninitializedThis
  | object (cls : κ)
  /-- The result of `new` at a site, before its constructor was called. -/
  | uninitialized (site : υ)
deriving DecidableEq, Repr

namespace VerificationType

variable {κ υ κ' υ' : Type}

/-- Slots that a value of the type takes. -/
def width : VerificationType κ υ → Nat
  | double | long => 2
  | _ => 1

instance : Wide (VerificationType κ υ) := ⟨width⟩

def tag : VerificationType κ υ → UInt8
  | top => 0
  | integer => 1
  | float => 2
  | double => 3
  | long => 4
  | null => 5
  | uninitializedThis => 6
  | object _ => 7
  | uninitialized _ => 8

/-- Rename classes and sites, stopping where that fails. -/
def mapM {m : Type → Type} [Monad m] (cls : κ → m κ') (site : υ → m υ') :
    VerificationType κ υ → m (VerificationType κ' υ')
  | top => return top
  | integer => return integer
  | float => return float
  | double => return double
  | long => return long
  | null => return null
  | uninitializedThis => return uninitializedThis
  | object name => return object (← cls name)
  | uninitialized place => return uninitialized (← site place)

/-- The type of a value of a field type, where small integers count as `int`. -/
def ofFieldType : FieldType → VerificationType String υ
  | .base .float => float
  | .base .double => double
  | .base .long => long
  | .base _ => integer
  | type => object type.internalName

/-- The type of what is loaded out of an array of references. -/
def arrayElement? : VerificationType String υ → Option (VerificationType String υ)
  | object name => do
    let array ← (FieldType.ofInternalName name).toOption
    let element ← array.element?
    if element.isReference then some (ofFieldType element) else none
  | _ => none

/-- The written form, where a class is a pool position and a site an offset. -/
def encode : VerificationType PoolIndex Nat → Except Fault Bytes
  | object cls => return 7 :: (← Encoding.index cls)
  | uninitialized offset => .ok (8 :: BigEndian.encode 2 offset)
  | type => .ok [type.tag]

end VerificationType
end ClassFile
