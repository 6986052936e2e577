import ClassFile.Code.Rendering

namespace ClassFile

/-!
# Causes of failure

Reading, writing and analysing a class fail for the reasons listed here, each a
constructor with the values at fault.  The wording is in `message` alone.
-/

/-- A value that does not fit its encoding, or bytes that run out. -/
inductive CodecFault
  | shortage (needed position : Nat)
  | sequenceTooLong (length : Nat)
  | wideIndex (index : PoolIndex)
  | badChop (count : Nat)
  | badAppend (count : Nat)
  | longText (bytes : Nat)
  | longAttribute
  | manyBootstraps
  | longPool
deriving DecidableEq, Repr

/-- Bytes that have no meaning as a class file, or a class that has none as
bytes. -/
inductive Malformation
  | noMagic
  | trailingBytes
  | poolOverrun
  | referenceKind (kind : UInt8)
  | constantTag (tag : UInt8)
  | text (position : Nat)
  | noLabel (offset : Nat)
  | chopUnderflow
  | frameType (type : UInt8)
  | typeTag (tag : UInt8)
  | noBootstrap (index : Nat)
  | jumpOutside (position : Nat)
  | emptyTable (position : Nat)
  | arrayCode (code : UInt8)
  | wideOpcode (code : UInt8) (position : Nat)
  | opcode (code : UInt8) (position : Nat)
  | noHeader
  | misplacedClass (path found expected : String)
  | notFromNew (block : Nat)
  | noOffset (block : Nat)
deriving DecidableEq, Repr

/-- What took more from the operand stack than there was. -/
inductive UnderflowSite
  | instruction (blamed : Instruction)
  | branch (blamed : Branch Nat Nat Nat)
deriving DecidableEq, Repr

/-- Why the file at the end of a path cannot be read, other than that there is
none. -/
inductive PathFault
  /-- A file has no name with a zero character in it. -/
  | nul
  | tooLong
  /-- The path leads through a file as if it were a directory. -/
  | throughFile
  | isDirectory
deriving DecidableEq, Repr

inductive Fault
  | invalidConstant (what : String)
  | poolOverflow (slots : Nat)
  | missingConstant (index : PoolIndex)
  | unexpectedConstant (index : PoolIndex) (expected : String)
  | codec (cause : CodecFault)
  | unreadable (cause : PathFault)
  | maxStackOverflow (slots : Nat)
  | maxLocalsOverflow (slots : Nat)
  | codeOverflow (bytes : Nat)
  | undefinedLabel (label : Nat)
  | duplicateLabel (label : Nat)
  | subroutineWithFrames
  | typeNotPresent (name : String)
  | invalidDescriptor (text : String)
  | invalidName (defect : NameDefect)
  | incompatibleHeights (block expected found : Nat)
  | stackUnderflow (site : UnderflowSite)
  | invalidLocal (slot : Nat)
  | malformed (cause : Malformation)
  /-- There is no answer, because what has to be followed (a superclass chain or
  a dynamic constant) leads back to itself. -/
  | endless (what : String)
  /-- There is no answer, because a 32 bit sum on the way leaves its range. -/
  | overflow
deriving DecidableEq, Repr

namespace CodecFault

def message : CodecFault → String
  | shortage needed position => s!"needed {needed} bytes at position {position}"
  | sequenceTooLong length => s!"sequence of {length} elements exceeds u16 length"
  | wideIndex index => s!"constant index {index} does not fit in 16 bits"
  | badChop count => s!"cannot chop {count} locals"
  | badAppend count => s!"cannot append {count} locals"
  | longText bytes => s!"UTF8 constant of {bytes} bytes is too large"
  | longAttribute => "attribute too long"
  | manyBootstraps => "too many bootstrap methods"
  | longPool => "constant pool count overflow"

end CodecFault

namespace Malformation

/-- A byte in hexadecimal, without leading zeros. -/
def hexByte (byte : UInt8) : String :=
  "0x" ++ String.ofList (Nat.toDigits 16 byte.toNat)

def message : Malformation → String
  | noMagic => "missing magic number"
  | trailingBytes => "trailing bytes after the class attributes"
  | poolOverrun => "last constant overflows the constant pool"
  | referenceKind kind => s!"bad reference kind {kind}"
  | constantTag tag => s!"bad constant tag {tag}"
  | text position => s!"bad modified UTF-8 at byte {position}"
  | noLabel offset => s!"no label at offset {offset}"
  | chopUnderflow => "chop frame removes too many locals"
  | frameType type => s!"reserved frame type {type}"
  | typeTag tag => s!"bad verification type tag {tag}"
  | noBootstrap index => s!"no bootstrap method {index}"
  | jumpOutside position => s!"jump at {position} leaves the method"
  | emptyTable position => s!"tableswitch at {position} has no range"
  | arrayCode code => s!"bad newarray type {code}"
  | wideOpcode code position => "bad wide opcode " ++ hexByte code ++ s!" at {position}"
  | opcode code position => "bad opcode " ++ hexByte code ++ s!" at {position}"
  | noHeader => "class header was never visited"
  | misplacedClass path found expected => s!"{path} defines {found} instead of {expected}"
  | notFromNew block => s!"uninitialized value from b{block} is not created by `new`"
  | noOffset block => s!"no offset for b{block}"

end Malformation

def PathFault.message : PathFault → String
  | nul => "file name contained an unexpected NUL byte"
  | tooLong => "File name too long (os error 36)"
  | throughFile => "Not a directory (os error 20)"
  | isDirectory => "Is a directory (os error 21)"

def UnderflowSite.text : UnderflowSite → String
  | instruction blamed => blamed.text
  | branch blamed => blamed.textOfBlocks

namespace Fault

def message : Fault → String
  | invalidConstant what => s!"invalid constant: {what}"
  | poolOverflow slots => s!"constant pool too large ({slots} slots)"
  | missingConstant index => s!"no constant at index {index}"
  | unexpectedConstant index expected => s!"constant {index} is not a {expected}"
  | codec cause => "I/O error: " ++ cause.message
  | unreadable cause => "I/O error: " ++ cause.message
  | maxStackOverflow slots => s!"max stack {slots} does not fit in 16 bits"
  | maxLocalsOverflow slots => s!"max locals {slots} does not fit in 16 bits"
  | codeOverflow bytes => s!"method code too large ({bytes} bytes)"
  | undefinedLabel label => s!"label l{label} is never placed"
  | duplicateLabel label => s!"label l{label} is placed twice"
  | subroutineWithFrames => "jsr/ret instructions cannot be used with frame computation"
  | typeNotPresent name => s!"type not present: {name}"
  | invalidDescriptor text => s!"invalid descriptor: {text}"
  | invalidName defect => "invalid name: " ++ defect.message
  | incompatibleHeights block expected found =>
    s!"block {block} reached with stack heights {expected} and {found}"
  | stackUnderflow site => "stack underflow at " ++ site.text
  | invalidLocal slot => s!"invalid local variable {slot}"
  | malformed cause => "malformed class file: " ++ cause.message
  | endless what => s!"{what} leads back to itself"
  | overflow => "arithmetic overflow"

end Fault

end ClassFile
