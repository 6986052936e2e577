import ClassFile.Bytes.BigEndian
import ClassFile.Fault

namespace ClassFile

/-!
# Reading bytes

A `Cursor` is a position in a run of bytes together with what is left there.  A
`Reader` takes bytes off the front of the rest, or fails with the number of
bytes it needed and where, and then has read nothing.  The position may be set
past the end, where every read fails.  The words `u1` to `u8` are unsigned and
`s1` to `s8` signed, each named by its width in bytes.
-/

structure Cursor where
  position : Nat
  /-- The number of bytes before and after the position. -/
  size : Nat
  rest : Bytes
  length_rest : rest.length = size - position

namespace Cursor

def ofBytes (bytes : Bytes) : Cursor :=
  ⟨0, bytes.length, bytes, rfl⟩

/-- The cursor at a position of a run of bytes. -/
def seek (bytes : Bytes) (position : Nat) : Cursor :=
  ⟨position, bytes.length, bytes.drop position, List.length_drop⟩

def remaining (cursor : Cursor) : Nat :=
  cursor.size - cursor.position

def atEnd (cursor : Cursor) : Bool :=
  cursor.size ≤ cursor.position

end Cursor

abbrev Reader := StateT Cursor (Except Fault)

namespace Reader

variable {α : Type}

/-- Take the next `count` bytes. -/
def take (count : Nat) : Reader Bytes := fun cursor =>
  if cursor.position + count ≤ cursor.size then
    .ok (cursor.rest.take count, {
      position := cursor.position + count
      size := cursor.size
      rest := cursor.rest.drop count
      length_rest := by rw [List.length_drop, cursor.length_rest, Nat.sub_sub] })
  else .error (.codec (.shortage count cursor.position))

/-- The number in the next `width` bytes. -/
def word (width : Nat) : Reader Nat :=
  BigEndian.decode <$> take width

def u1 : Reader UInt8 := UInt8.ofNat <$> word 1
def s1 : Reader Int8 := UInt8.toInt8 <$> u1
def u2 : Reader UInt16 := UInt16.ofNat <$> word 2
def s2 : Reader Int16 := UInt16.toInt16 <$> u2
def u4 : Reader UInt32 := UInt32.ofNat <$> word 4
def s4 : Reader Int32 := UInt32.toInt32 <$> u4
def u8 : Reader UInt64 := UInt64.ofNat <$> word 8
def s8 : Reader Int64 := UInt64.toInt64 <$> u8

def position : Reader Nat := Cursor.position <$> get

def fail (cause : Malformation) : Reader α :=
  throw (.malformed cause)

/-- Read one thing after the other onto those already read. -/
def manyOnto (one : Reader α) (already : Array α) : Nat → Reader (Array α)
  | 0 => return already
  | count + 1 => do
    let next ← one
    manyOnto one (already.push next) count

def many (count : Nat) (one : Reader α) : Reader (List α) :=
  Array.toList <$> manyOnto one #[] count

/-- Read from a run of bytes, which need not be used up. -/
def runOn (reader : Reader α) (bytes : Bytes) : Except Fault α :=
  Prod.fst <$> reader.run (Cursor.ofBytes bytes)

end Reader
end ClassFile
