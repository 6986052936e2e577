import ClassFile.Class.Access
import ClassFile.Pool.Basic

namespace ClassFile

/-!
# Attributes and members

An attribute is a name and bytes that only its name gives a meaning to.  Fields
and methods have the same form, and differ in the flags they can have.
-/

structure Attribute where
  name : PoolIndex
  info : Bytes
deriving DecidableEq, Repr

namespace Attribute

def encode (attr : Attribute) : Except Fault Bytes :=
  return (← Encoding.index attr.name) ++ (← Encoding.payload attr.info)

def read : Reader Attribute := do
  let name ← Constant.readIndex
  let info ← Reader.take (← Reader.word 4)
  return ⟨name, info⟩

def readAll : Reader (List Attribute) := do
  Reader.many (← Reader.word 2) read

/-! The names of the attributes whose bytes have a meaning here. -/

def constantValue : String := "ConstantValue"
def code : String := "Code"
def stackMapTable : String := "StackMapTable"
def bootstrapMethods : String := "BootstrapMethods"

end Attribute

/-- A field or a method. -/
structure Member (kind : AccessKind) where
  access : Access kind
  name : PoolIndex
  descriptor : PoolIndex
  attributes : List Attribute
deriving DecidableEq, Repr

namespace Member

variable {kind : AccessKind}

def encode (member : Member kind) : Except Fault Bytes :=
  return member.access.encode ++ (← Encoding.index member.name) ++
    (← Encoding.index member.descriptor) ++
    (← Encoding.sequence Attribute.encode member.attributes)

def read : Reader (Member kind) := do
  let access ← Access.ofBits <$> Reader.u2
  let name ← Constant.readIndex
  let descriptor ← Constant.readIndex
  return ⟨access, name, descriptor, ← Attribute.readAll⟩

def readAll : Reader (List (Member kind)) := do
  Reader.many (← Reader.word 2) read

end Member

abbrev Field := Member .field

abbrev Method := Member .method

end ClassFile
