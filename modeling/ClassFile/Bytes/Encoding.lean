import ClassFile.Bytes.BigEndian
import ClassFile.Fault

namespace ClassFile

/-!
# Writing bytes

Parts of a class file are written one after the other, and the first part that
does not fit its field is the failure.  Sequences are preceded by their number
of elements in 16 bits and payloads by their number of bytes in 32.  The words
`u1` to `u8` are unsigned and `s1` to `s8` signed, each named by its width in
bytes.
-/

namespace Encoding

variable {α : Type}

def u1 (value : UInt8) : Bytes := [value]
def s1 (value : Int8) : Bytes := [value.toUInt8]
def u2 (value : UInt16) : Bytes := BigEndian.encode 2 value.toNat
def s2 (value : Int16) : Bytes := u2 value.toUInt16
def u4 (value : UInt32) : Bytes := BigEndian.encode 4 value.toNat
def s4 (value : Int32) : Bytes := u4 value.toUInt32
def u8 (value : UInt64) : Bytes := BigEndian.encode 8 value.toNat
def s8 (value : Int64) : Bytes := u8 value.toUInt64

/-- One part after the other. -/
def each (one : α → Except Fault Bytes) (parts : List α) : Except Fault Bytes :=
  List.flatten <$> parts.mapM one

/-- The parts after their number. -/
def sequence (one : α → Except Fault Bytes) (parts : List α) : Except Fault Bytes := do
  if parts.length < 65536 then
    return BigEndian.encode 2 parts.length ++ (← each one parts)
  else throw (.codec (.sequenceTooLong parts.length))

/-- Bytes after their number. -/
def payload (bytes : Bytes) : Except Fault Bytes :=
  if bytes.length < 4294967296 then .ok (BigEndian.encode 4 bytes.length ++ bytes)
  else .error (.codec .longAttribute)

/-- A position in the constant pool, which must fit in 16 bits. -/
def index (index : PoolIndex) : Except Fault Bytes :=
  if index < 65536 then .ok (BigEndian.encode 2 index)
  else .error (.codec (.wideIndex index))

end Encoding
end ClassFile
