import ClassFile.Bytes.Cursor
import ClassFile.Bytes.Encoding
import ClassFile.SlotVector
import ClassFile.Text.ModifiedUtf8

namespace ClassFile

/-!
# Constant pool entries

An entry holds plain data or the positions of the entries it is made of.
Floating point numbers are kept as their bits, so that equality of entries is
equality of what is written.
-/

/-- What a method handle does with its member. -/
inductive HandleKind
  | getField | getStatic | putField | putStatic
  | invokeVirtual | invokeStatic | invokeSpecial | newInvokeSpecial | invokeInterface
deriving DecidableEq, Repr, Hashable

namespace HandleKind

def code : HandleKind → UInt8
  | getField => 1
  | getStatic => 2
  | putField => 3
  | putStatic => 4
  | invokeVirtual => 5
  | invokeStatic => 6
  | invokeSpecial => 7
  | newInvokeSpecial => 8
  | invokeInterface => 9

def ofCode? : UInt8 → Option HandleKind
  | 1 => some getField
  | 2 => some getStatic
  | 3 => some putField
  | 4 => some putStatic
  | 5 => some invokeVirtual
  | 6 => some invokeStatic
  | 7 => some invokeSpecial
  | 8 => some newInvokeSpecial
  | 9 => some invokeInterface
  | _ => none

theorem ofCode_code (kind : HandleKind) : ofCode? kind.code = some kind := by
  cases kind <;> rfl

/-- Kinds whose member is a field. -/
def isField : HandleKind → Bool
  | getField | getStatic | putField | putStatic => true
  | _ => false

end HandleKind

inductive Constant
  | utf8 (text : String)
  | integer (value : Int32)
  | float (bits : UInt32)
  | long (value : Int64)
  | double (bits : UInt64)
  /-- The name of a class, or the descriptor of an array type. -/
  | cls (name : PoolIndex)
  | string (text : PoolIndex)
  | fieldRef (owner signature : PoolIndex)
  | methodRef (owner signature : PoolIndex) (ownerIsInterface : Bool)
  | nameAndType (name descriptor : PoolIndex)
  | methodHandle (kind : HandleKind) (member : PoolIndex)
  | methodType (descriptor : PoolIndex)
  /-- A constant computed by the bootstrap method at a position of its table. -/
  | dynamic (bootstrap : Nat) (signature : PoolIndex)
  /-- A call site linked by a bootstrap method. -/
  | invokeDynamic (bootstrap : Nat) (signature : PoolIndex)
  | module (name : PoolIndex)
  | package (name : PoolIndex)
deriving DecidableEq, Repr, Hashable

namespace Constant

def tag : Constant → UInt8
  | utf8 _ => 1
  | integer _ => 3
  | float _ => 4
  | long _ => 5
  | double _ => 6
  | cls _ => 7
  | string _ => 8
  | fieldRef .. => 9
  | methodRef _ _ ownerIsInterface => if ownerIsInterface then 11 else 10
  | nameAndType .. => 12
  | methodHandle .. => 15
  | methodType _ => 16
  | dynamic .. => 17
  | invokeDynamic .. => 18
  | module _ => 19
  | package _ => 20

/-- The second slot of a `long` or a `double` is never referred to. -/
def width : Constant → Nat
  | long _ | double _ => 2
  | _ => 1

instance : Wide Constant := ⟨width⟩

theorem width_pos (constant : Constant) : 0 < constant.width := by
  cases constant <;> exact Nat.succ_pos _

/-- The bytes after the tag. -/
def encodeBody : Constant → Except Fault Bytes
  | utf8 text =>
    let bytes := ModifiedUtf8.encode text
    if bytes.length < 65536 then .ok (BigEndian.encode 2 bytes.length ++ bytes)
    else .error (.codec (.longText bytes.length))
  | integer value => .ok (Encoding.s4 value)
  | float bits => .ok (Encoding.u4 bits)
  | long value => .ok (Encoding.s8 value)
  | double bits => .ok (Encoding.u8 bits)
  | cls index | string index | methodType index | module index | package index =>
    Encoding.index index
  | fieldRef first second | methodRef first second _ | nameAndType first second =>
    return (← Encoding.index first) ++ (← Encoding.index second)
  | methodHandle kind member => return Encoding.u1 kind.code ++ (← Encoding.index member)
  | dynamic bootstrap signature | invokeDynamic bootstrap signature =>
    return BigEndian.encode 2 bootstrap ++ (← Encoding.index signature)

def encode (constant : Constant) : Except Fault Bytes :=
  return constant.tag :: (← constant.encodeBody)

/-- A position in the pool, as it stands in 16 bits. -/
def readIndex : Reader PoolIndex := Reader.word 2

def readText : Reader String := do
  let length ← Reader.word 2
  match ModifiedUtf8.decode (← Reader.take length) with
  | .ok text => return text
  | .error position => Reader.fail (.text position)

def readHandleKind : Reader HandleKind := do
  let code ← Reader.u1
  match HandleKind.ofCode? code with
  | some kind => return kind
  | none => Reader.fail (.referenceKind code)

def read : Reader Constant := do
  match ← Reader.u1 with
  | 1 => return utf8 (← readText)
  | 3 => return integer (← Reader.s4)
  | 4 => return float (← Reader.u4)
  | 5 => return long (← Reader.s8)
  | 6 => return double (← Reader.u8)
  | 7 => return cls (← readIndex)
  | 8 => return string (← readIndex)
  | 9 => return fieldRef (← readIndex) (← readIndex)
  | 10 => return methodRef (← readIndex) (← readIndex) false
  | 11 => return methodRef (← readIndex) (← readIndex) true
  | 12 => return nameAndType (← readIndex) (← readIndex)
  | 15 => return methodHandle (← readHandleKind) (← readIndex)
  | 16 => return methodType (← readIndex)
  | 17 => return dynamic (← Reader.word 2) (← readIndex)
  | 18 => return invokeDynamic (← Reader.word 2) (← readIndex)
  | 19 => return module (← readIndex)
  | 20 => return package (← readIndex)
  | tag => Reader.fail (.constantTag tag)

end Constant
end ClassFile
