import ClassFile.Bytes.Cursor
import ClassFile.Code.OpcodeTable
import ClassFile.Pool.Constant

namespace ClassFile

/-!
# Decoding code

Bytes decode to instructions beside their offsets, with targets by offset too.
Local variables and small constants are read in all their encodings, and the
modifier of a wide one disappears.  A target may be anywhere but before the
first byte, so whether an instruction starts there is for later.
-/

inductive Operation
  | instruction (instruction : Instruction)
  /-- A branch with targets by code offset. -/
  | branch (branch : Branch Nat Nat Unit)
deriving DecidableEq, Repr

namespace Operation

/-- The offset of a target, given its distance. -/
def target (start : Nat) (distance : Int) : Reader Nat :=
  let offset := start + distance
  if 0 ≤ offset then return offset.toNat else Reader.fail (.jumpOutside start)

def shortTarget (start : Nat) : Reader Nat := do
  target start (← Reader.s2).toInt

def wideTarget (start : Nat) : Reader Nat := do
  target start (← Reader.s4).toInt

def readSlot (width : Nat) : Reader UInt16 :=
  UInt16.ofNat <$> Reader.word width

def readIncrement : Reader Operation := do
  let slot ← readSlot 1
  return instruction (.increment slot (← Reader.s1).toInt16)

def readWideIncrement : Reader Operation := do
  let slot ← readSlot 2
  return instruction (.increment slot (← Reader.s2))

def readNewArray : Reader Operation := do
  let code ← Reader.u1
  match BaseType.ofArrayCode? code with
  | some element => return instruction (.newArray element)
  | none => Reader.fail (.arrayCode code)

/-- An interface call, whose last byte means nothing. -/
def readInterfaceCall : Reader Operation := do
  let method ← Constant.readIndex
  let trailer ← Reader.take 2
  return instruction (.invoke (.interface (trailer.headD 0)) method)

/-- A call site, whose last two bytes mean nothing. -/
def readDynamicCall : Reader Operation := do
  let callSite ← Constant.readIndex
  let _ ← Reader.take 2
  return instruction (.invokeDynamic callSite)

def readNewMultiArray : Reader Operation := do
  let cls ← Constant.readIndex
  return instruction (.newMultiArray cls (← Reader.u1))

def readPadding (start : Nat) : Reader Nat :=
  List.length <$> Reader.take (Branch.paddingAt start)

def readTableSwitch (start : Nat) : Reader Operation := do
  let padding ← readPadding start
  let otherwise ← wideTarget start
  let low ← Reader.s4
  let high ← Reader.s4
  if high < low then Reader.fail (.emptyTable start)
  let count := (high.toInt - low.toInt + 1).toNat
  return branch (.tableSwitch padding otherwise low (← Reader.many count (wideTarget start)))

/-- A switch by key.  A negative number of pairs counts as none. -/
def readLookupSwitch (start : Nat) : Reader Operation := do
  let padding ← readPadding start
  let otherwise ← wideTarget start
  let count ← Reader.s4
  let pairs ← Reader.many count.toInt.toNat do
    let key ← Reader.s4
    return (key, ← wideTarget start)
  return branch (.lookupSwitch padding otherwise pairs)

/-- An instruction after the `wide` modifier. -/
def readModified (start : Nat) : Reader Operation := do
  let opcode ← Reader.u1
  match Instruction.ofSlotOpcode? opcode with
  | some access => return instruction (access (← readSlot 2))
  | none =>
    if opcode = 0x84 then readWideIncrement
    else if opcode = 0xA9 then return branch (.ret (← readSlot 2))
    else Reader.fail (.wideOpcode opcode start)

/-- The operands after an opcode that has operands of its own kind. -/
def readOwn (start : Nat) (opcode : UInt8) : Reader Operation := do
  match opcode with
  | 0x10 => return instruction (.pushByte (← Reader.s1))
  | 0x11 => return instruction (.pushShort (← Reader.s2))
  | 0x12 => return instruction (.loadConstant (← Reader.word 1))
  | 0x84 => readIncrement
  | 0xA9 => return branch (.ret (← readSlot 1))
  | 0xAA => readTableSwitch start
  | 0xAB => readLookupSwitch start
  | 0xB9 => readInterfaceCall
  | 0xBA => readDynamicCall
  | 0xBC => readNewArray
  | 0xC4 => readModified start
  | 0xC5 => readNewMultiArray
  | _ => Reader.fail (.opcode opcode start)

/-- The branch of an opcode, or an instruction with operands of its own. -/
def readBranch (start : Nat) (opcode : UInt8) : Reader Operation := do
  match Branch.ofOpcode? opcode, Branch.ofShortOpcode? opcode, Branch.ofWideOpcode? opcode with
  | some found, _, _ => return branch found
  | none, some jump, _ => return branch (jump (← shortTarget start))
  | none, none, some jump => return branch (jump (← wideTarget start))
  | none, none, none => readOwn start opcode

def read : Reader Operation := do
  let start ← Reader.position
  let opcode ← Reader.u1
  match Instruction.ofOpcode? opcode with
  | some found => return instruction found
  | none =>
    match Instruction.ofSlotOpcode? opcode, Instruction.ofPoolOpcode? opcode with
    | some access, _ => return instruction (access (← readSlot 1))
    | none, some found => return instruction (found (← Constant.readIndex))
    | none, none => readBranch start opcode

/-- Read operations onto those already read until the bytes end.  No operation
is shorter than one byte. -/
def readOnto (operations : Array (Nat × Operation)) :
    (bytes : Nat) → Reader (Array (Nat × Operation))
  | 0 => return operations
  | bytes + 1 => do
    if (← get).atEnd then return operations
    let start ← Reader.position
    readOnto (operations.push (start, ← read)) bytes

/-- The operations of some code beside their offsets. -/
def decode (code : Bytes) : Except Fault (List (Nat × Operation)) :=
  Array.toList <$> (readOnto #[] code.length).runOn code

/-- The targets of an operation. -/
def targets : Operation → List Nat
  | instruction _ => []
  | branch found => found.targets

end Operation
end ClassFile
