import ClassFile.Code.Operation
import ClassFile.Code.Recording
import ClassFile.Frame.StackMap
import ClassFile.Pool.Value

namespace ClassFile

/-!
# Decoded code

The contents of a `Code` attribute with its instructions, handlers and frames
decoded.  Everything that refers to a place in the code does so by offset.
Recording it again gives every such offset a label.
-/

/-- An exception handler by code offsets, with what is caught by name. -/
structure DecodedHandler where
  start : Nat
  stop : Nat
  entry : Nat
  catches : Option String

structure DecodedCode where
  limits : Limits
  length : Nat
  operations : List (Nat × Operation)
  handlers : List DecodedHandler
  frames : List (Nat × DecodedFrame)

namespace DecodedCode

def readHandler (pool : Pool) : Reader DecodedHandler := do
  let start ← Reader.word 2
  let stop ← Reader.word 2
  let entry ← Reader.word 2
  let catches ← Constant.readIndex
  return ⟨start, stop, entry, ← if catches = 0 then pure none else some <$> pool.className catches⟩

/-- Read attributes of code, of which only the last stack map counts. -/
def readFrames (pool : Pool) (method : MethodContext) (wantsFrames : Bool) :
    (count : Nat) → List (Nat × DecodedFrame) → Reader (List (Nat × DecodedFrame))
  | 0, frames => return frames
  | count + 1, frames => do
    let attr ← Attribute.read
    let name ← pool.utf8 attr.name
    if name = Attribute.stackMapTable && wantsFrames then
      let table := DecodedFrame.readTable pool method.entryFrame.entries
      readFrames pool method wantsFrames count (← table.runOn attr.info)
    else readFrames pool method wantsFrames count frames

/-- Read the code of a method, its frames only if they are wanted. -/
def read (pool : Pool) (method : MethodContext) (wantsFrames : Bool) : Reader DecodedCode := do
  let stack ← Reader.word 2
  let locals ← Reader.word 2
  let length ← Reader.word 4
  let operations ← Operation.decode (← Reader.take length)
  let handlers ← Reader.many (← Reader.word 2) (readHandler pool)
  let frames ← readFrames pool method wantsFrames (← Reader.word 2) []
  return ⟨⟨stack, locals⟩, length, operations, handlers, frames⟩

/-! ## Labels -/

/-- The sites that a frame refers to. -/
def sites (frame : DecodedFrame) : List Nat :=
  (frame.locals ++ frame.operands).filterMap fun
    | .uninitialized site => some site
    | _ => none

/-- Every offset that something refers to, in any order. -/
def references (code : DecodedCode) : List Nat :=
  code.operations.flatMap (fun operation => operation.2.targets) ++
    code.handlers.flatMap (fun handler => [handler.start, handler.stop, handler.entry]) ++
    code.frames.flatMap fun frame => sites frame.2

/-- Leave out repetitions from a list in order. -/
def distinct : List Nat → Array Nat :=
  List.foldl (fun kept offset => if kept.back? = some offset then kept else kept.push offset) #[]

/-- The offsets that need labels, in increasing order. -/
def labelled (code : DecodedCode) : Array Nat :=
  distinct (code.references.mergeSort (· ≤ ·))

/-- Labels by offset. -/
abbrev Labels := Std.HashMap Nat Nat

/-- Number the labels of offsets from a first one on. -/
def labelsFrom (first : Nat) (offsets : Array Nat) : Labels :=
  offsets.zipIdx.foldl (fun labels (offset, position) => labels.insert offset (first + position)) ∅

/-- The label of an offset. -/
def labelAt (labels : Labels) (offset : Nat) : Except Fault Nat :=
  match labels[offset]? with
  | some label => .ok label
  | none => .error (.malformed (.noLabel offset))

/-! ## Recording again -/

/-- Record an instruction, its constants moved from another pool.  Constants are
loaded by value, and the arguments of interface calls counted anew. -/
def recordInstruction (pool : Pool) : Instruction → Record Unit
  | .loadConstant index | .loadWideConstant index => do
    Record.load (← pool.value index)
  | .accessField access index => do
    let ⟨owner, name, descriptor⟩ ← pool.member index
    Record.accessField access owner name descriptor
  | .invoke mode index => do
    let ownerIsInterface ← pool.ownerIsInterface index
    let ⟨owner, name, descriptor⟩ ← pool.member index
    Record.invoke mode.kind owner name descriptor ownerIsInterface
  | .invokeDynamic index => do
    match ← pool.entry index with
    | .invokeDynamic position signature =>
      let ⟨name, descriptor⟩ ← pool.signature signature
      let (bootstrap, arguments) ← pool.bootstrap position
      Record.invokeDynamic name descriptor bootstrap arguments
    | _ => throw (.unexpectedConstant index "InvokeDynamic")
  | .withClass op index => do
    Record.withClass op (← pool.className index)
  | .newMultiArray index dimensions => do
    Record.newMultiArray (← pool.className index) dimensions
  | instruction => Record.instruction instruction

/-- A branch by labels. -/
def relabelBranch (labels : Labels) (branch : Branch Nat Nat Unit) :
    Except Fault (Branch Nat Nat Unit) :=
  branch.mapM (labelAt labels) (labelAt labels) pure

/-- Types by labels. -/
def relabelTypes (labels : Labels) (types : List BlockType) : Except Fault (List BlockType) :=
  types.mapM fun type => type.mapM pure (labelAt labels)

/-- Record a branch.  Wide jumps become short ones, padding is left to the
layout, and returns follow the descriptor. -/
def recordBranch (labels : Labels) (branch : Branch Nat Nat Unit) : Record Unit := do
  match ← relabelBranch labels (branch.withPadding 0) with
  | .gotoWide target => Record.branch (.goto target)
  | .jsrWide target next => Record.branch (.jsr target next)
  | .lookupSwitch _ otherwise pairs => Record.lookupSwitch otherwise pairs
  | .returns _ => Record.returnResult
  | branch => Record.branch branch

def recordOperation (pool : Pool) (labels : Labels) : Operation → Record Unit
  | .instruction found => recordInstruction pool found
  | .branch found => recordBranch labels found

/-- Place the label of an offset, if it has one. -/
def placeLabel (labels : Labels) (offset : Nat) : Record Unit :=
  match labels[offset]? with
  | some label => Record.label label
  | none => return ()

def recordFrame (labels : Labels) (frame : DecodedFrame) : Record Unit := do
  Record.frame (← relabelTypes labels frame.locals) (← relabelTypes labels frame.operands)

def recordHandler (labels : Labels) (handler : DecodedHandler) : Record Unit := do
  let start ← labelAt labels handler.start
  let stop ← labelAt labels handler.stop
  let entry ← labelAt labels handler.entry
  Record.handler start stop entry handler.catches

/-- Record all of the code, its constants moved from the given pool. -/
def record (code : DecodedCode) (pool : Pool) : Record Unit := do
  let offsets := code.labelled
  let labels := labelsFrom (← Record.newLabels offsets.size) offsets
  let frames : Std.HashMap Nat DecodedFrame := .ofList code.frames
  for (offset, operation) in code.operations do
    placeLabel labels offset
    if let some frame := frames[offset]? then recordFrame labels frame
    recordOperation pool labels operation
  placeLabel labels code.length
  for handler in code.handlers do
    recordHandler labels handler
  Record.limits code.limits

end DecodedCode
end ClassFile
