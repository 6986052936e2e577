import ClassFile.Class.Attribute
import ClassFile.Code.Limits

namespace ClassFile

/-!
# Code as it is written

The contents of a `Code` attribute: the limits, the bytes of the instructions,
the exception table and attributes, of which only the stack map has a meaning
here.
-/

/-- An exception handler by code offsets. -/
structure ExceptionEntry where
  start : Nat
  stop : Nat
  entry : Nat
  /-- The class of what is caught, or zero to catch everything. -/
  catches : PoolIndex
deriving DecidableEq, Repr

namespace ExceptionEntry

def encode (exception : ExceptionEntry) : Except Fault Bytes :=
  return BigEndian.encode 2 exception.start ++ BigEndian.encode 2 exception.stop ++
    BigEndian.encode 2 exception.entry ++ (← Encoding.index exception.catches)

end ExceptionEntry

structure CodeImage where
  limits : Limits
  bytes : Bytes
  exceptions : List ExceptionEntry
  attributes : List Attribute
deriving DecidableEq, Repr

namespace CodeImage

def encode (code : CodeImage) : Except Fault Bytes :=
  return BigEndian.encode 2 code.limits.stack ++ BigEndian.encode 2 code.limits.locals ++
    (← Encoding.payload code.bytes) ++
    (← Encoding.sequence ExceptionEntry.encode code.exceptions) ++
    (← Encoding.sequence Attribute.encode code.attributes)

end CodeImage
end ClassFile
