import ClassFile.Frame.Entry
import ClassFile.Pool.Lookup

namespace ClassFile

/-!
# Stack maps

A stack map lists frames by increasing code offsets.  The first offset is given
as it is and every other one by the bytes since the frame before, less one.  An
entry says only how a frame differs from the one before it, if it differs in one
of a few ways, and otherwise all of it.
-/

inductive StackMapEntry
  /-- The same locals and no operands. -/
  | same (delta : Nat)
  /-- The same locals and one operand. -/
  | sameOne (delta : Nat) (operand : VerificationType PoolIndex Nat)
  /-- Fewer locals and no operands. -/
  | chop (delta count : Nat)
  /-- More locals and no operands. -/
  | append (delta : Nat) (locals : List (VerificationType PoolIndex Nat))
  | full (delta : Nat) (locals operands : List (VerificationType PoolIndex Nat))
deriving DecidableEq, Repr

namespace StackMapEntry

def encodeDelta (delta : Nat) : Bytes := BigEndian.encode 2 delta

def encode : StackMapEntry → Except Fault Bytes
  | same delta => .ok (if delta < 64 then [.ofNat delta] else 251 :: encodeDelta delta)
  | sameOne delta operand => do
    let type ← operand.encode
    return (if delta < 64 then [.ofNat (64 + delta)] else 247 :: encodeDelta delta) ++ type
  | chop delta count =>
    if 1 ≤ count ∧ count ≤ 3 then .ok (.ofNat (251 - count) :: encodeDelta delta)
    else .error (.codec (.badChop count))
  | append delta locals => do
    if 1 ≤ locals.length ∧ locals.length ≤ 3 then
      return .ofNat (251 + locals.length) :: encodeDelta delta ++
        (← Encoding.each VerificationType.encode locals)
    else throw (.codec (.badAppend locals.length))
  | full delta locals operands => do
    let locals ← Encoding.sequence VerificationType.encode locals
    let operands ← Encoding.sequence VerificationType.encode operands
    return 255 :: encodeDelta delta ++ locals ++ operands

/-- The contents of a stack map. -/
def encodeTable (entries : List StackMapEntry) : Except Fault Bytes :=
  Encoding.sequence encode entries

end StackMapEntry

namespace Frame

/-- All of a frame. -/
def fullEntry (frame : WrittenFrame) (delta : Nat) : StackMapEntry :=
  .full delta frame.entries frame.operands

/-- The shortest entry for a frame after another one. -/
def entryAfter (frame previous : WrittenFrame) (delta : Nat) : StackMapEntry :=
  let now := frame.entries
  let before := previous.entries
  match frame.stack with
  | [] =>
    if now = before then .same delta
    else if now.length < before.length ∧ before.length < now.length + 4 ∧ now.isPrefixOf before
      then .chop delta (before.length - now.length)
    else if before.length < now.length ∧ now.length < before.length + 4 ∧ before.isPrefixOf now
      then .append delta (now.drop before.length)
    else frame.fullEntry delta
  | [operand] => if now = before then .sameOne delta operand else frame.fullEntry delta
  | _ => frame.fullEntry delta

end Frame

/-- Locals by value and operands from the bottom up, as a stack map gives them,
with classes by name and sites by offset. -/
structure DecodedFrame where
  locals : List (VerificationType String Nat)
  operands : List (VerificationType String Nat)
deriving DecidableEq, Repr

namespace DecodedFrame

def readType (pool : Pool) : Reader (VerificationType String Nat) := do
  match ← Reader.u1 with
  | 0 => return .top
  | 1 => return .integer
  | 2 => return .float
  | 3 => return .double
  | 4 => return .long
  | 5 => return .null
  | 6 => return .uninitializedThis
  | 7 => return .object (← pool.className (← Constant.readIndex))
  | 8 => return .uninitialized (← Reader.word 2)
  | tag => Reader.fail (.typeTag tag)

/-- Read an entry, given the locals of the frame before it.  The answer is its
delta and the frame. -/
def readEntry (pool : Pool) (locals : List (VerificationType String Nat)) :
    Reader (Nat × DecodedFrame) := do
  let type ← Reader.u1
  let code := type.toNat
  if code < 64 then return (code, ⟨locals, []⟩)
  else if code < 128 then return (code - 64, ⟨locals, [← readType pool]⟩)
  else if code < 247 then Reader.fail (.frameType type)
  else
    let delta ← Reader.word 2
    if code = 247 then return (delta, ⟨locals, [← readType pool]⟩)
    else if code < 251 then
      let count := 251 - code
      if locals.length < count then Reader.fail .chopUnderflow
      else return (delta, ⟨locals.take (locals.length - count), []⟩)
    else if code < 255 then
      let more ← Reader.many (code - 251) (readType pool)
      return (delta, ⟨locals ++ more, []⟩)
    else
      let locals ← Reader.many (← Reader.word 2) (readType pool)
      let operands ← Reader.many (← Reader.word 2) (readType pool)
      return (delta, ⟨locals, operands⟩)

/-- The place of a frame from the place of the one before it. -/
def offsetAfter (previous? : Option Nat) (delta : Nat) : Nat :=
  match previous? with
  | none => delta
  | some previous => previous + delta + 1

/-- Read frames onto those already read, given what is known of the last one. -/
def readOnto (pool : Pool) (frames : Array (Nat × DecodedFrame)) (previous? : Option Nat)
    (locals : List (VerificationType String Nat)) :
    (count : Nat) → Reader (Array (Nat × DecodedFrame))
  | 0 => return frames
  | count + 1 => do
    let (delta, frame) ← readEntry pool locals
    let offset := offsetAfter previous? delta
    readOnto pool (frames.push (offset, frame)) (some offset) frame.locals count

/-- Read a stack map, given the locals at the start of the method.  Frames stand
beside their offsets. -/
def readTable (pool : Pool) (locals : List (VerificationType String Nat)) :
    Reader (List (Nat × DecodedFrame)) := do
  return (← readOnto pool #[] none locals (← Reader.word 2)).toList

end DecodedFrame
end ClassFile
