import ClassFile.Bytes.Encoding

namespace ClassFile

/-!
# Access flags and versions

Classes, fields and methods have flags of their own.  Bits without a meaning are
dropped where flags are read, so an `Access` never holds any.
-/

inductive AccessKind
  | cls | field | method
deriving DecidableEq, Repr

/-- The bits with a meaning. -/
def AccessKind.known : AccessKind → UInt16
  | cls => 0xF631
  | field => 0x50DF
  | method => 0x1DFF

structure Access (kind : AccessKind) where
  bits : UInt16
  bits_known : bits &&& kind.known = bits
deriving DecidableEq

namespace Access

variable {kind : AccessKind}

instance : Repr (Access kind) :=
  ⟨fun access precedence => reprPrec access.bits precedence⟩

/-- Keep the bits that have a meaning. -/
def ofBits (bits : UInt16) : Access kind :=
  ⟨bits &&& kind.known, by rw [UInt16.and_assoc, UInt16.and_self]⟩

theorem ofBits_bits (access : Access kind) : ofBits access.bits = access := by
  cases access with
  | mk bits known => simp only [ofBits, known]

def encode (access : Access kind) : Bytes :=
  Encoding.u2 access.bits

/-- A method without a receiver. -/
def isStatic (access : Access .method) : Bool :=
  access.bits &&& 0x0008 != 0

def isInterface (access : Access .cls) : Bool :=
  access.bits &&& 0x0200 != 0

end Access

structure Version where
  minor : UInt16
  major : UInt16
deriving DecidableEq, Repr

namespace Version

def encode (version : Version) : Bytes :=
  Encoding.u2 version.minor ++ Encoding.u2 version.major

/-- Classes since version 50 carry stack map frames. -/
def supportsFrames (version : Version) : Bool :=
  50 ≤ version.major.toNat

/-- The version of a class that does not state one. -/
def standard : Version := ⟨0, 52⟩

end Version
end ClassFile
