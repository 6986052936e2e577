import Std.Data.HashMap
import ClassFile.Code.BranchEncoding
import ClassFile.Frame.Basic
import ClassFile.SlotVector

namespace ClassFile

/-!
# Control flow graphs

The code of a method is recorded as a stream of labels, frames, instructions and
branches.  `FlowGraph.ofItems` cuts the stream into blocks.  A block starts at a
label or a frame and at every `new`, unless the block before is still empty, and
after every branch.  So the site of an uninitialized object is the first
instruction of a block, and control enters blocks at their start only.  The last
block is always there, even without instructions, since labels may stand at the
very end.
-/

/-- An element of the code of a method as it is recorded.  What a branch falls
into is whatever comes next. -/
inductive Item
  | label (label : Nat)
  | frame (frame : Frame String Nat)
  | instruction (instruction : Instruction)
  | branch (branch : Branch Nat Nat Unit)
deriving DecidableEq, Repr

/-- An exception handler for the code from `start` up to but not including
`stop`. -/
structure Handler where
  start : Nat
  stop : Nat
  entry : Nat
  /-- The class of what is caught, or nothing to catch everything. -/
  catches : Option PoolIndex
deriving DecidableEq, Repr

structure Block (φ ι : Type) where
  frame : φ
  instructions : Array ι
  branch : Branch Nat Nat Nat
deriving DecidableEq, Repr

/-- A block with the frame that was recorded for it, if any. -/
abbrev CodeBlock := Block (Option BlockFrame) Instruction

instance : Wide Instruction := ⟨Instruction.width⟩

namespace Block

variable {φ ι : Type} [Wide ι]

/-- Bytes before the branch. -/
def bodyWidth (block : Block φ ι) : Nat :=
  Wide.total block.instructions.toList

def width (block : Block φ ι) : Nat :=
  block.bodyWidth + block.branch.width

/-- Where control goes from the end of the block. -/
def successors {φ ι : Type} (block : Block φ ι) : List Nat :=
  block.branch.targets ++ block.branch.next?.toList

end Block

namespace FlowGraph

/-- A block whose labels are not resolved yet.  Its branch is missing if control
falls out of it. -/
structure Draft where
  frame : Option (Frame String Nat)
  instructions : Array Instruction
  branch : Option (Branch Nat Nat Unit)

def Draft.empty : Draft := ⟨none, #[], none⟩

/-- The blocks that are closed, the block that each label stands at, and the
block that is open. -/
structure Drafts where
  closed : Array Draft
  labels : Std.HashMap Nat Nat
  open_ : Draft

namespace Drafts

def empty : Drafts := ⟨#[], ∅, .empty⟩

/-- Close the open block. -/
def cut (drafts : Drafts) : Drafts :=
  { drafts with closed := drafts.closed.push drafts.open_, open_ := .empty }

/-- Close the open block unless it has no instructions. -/
def split (drafts : Drafts) : Drafts :=
  if drafts.open_.instructions.isEmpty then drafts else drafts.cut

def addInstruction (drafts : Drafts) (instruction : Instruction) : Drafts :=
  let ⟨closed, labels, ⟨frame, instructions, branch⟩⟩ := drafts
  ⟨closed, labels, ⟨frame, instructions.push instruction, branch⟩⟩

def addFrame (drafts : Drafts) (frame : Frame String Nat) : Drafts :=
  { drafts with open_ := { drafts.open_ with frame := some frame } }

def addBranch (drafts : Drafts) (branch : Branch Nat Nat Unit) : Drafts :=
  { drafts with open_ := { drafts.open_ with branch := some branch } }.cut

/-- Place a label at the open block, unless it is placed already. -/
def addLabel (drafts : Drafts) (label : Nat) : Except Fault Drafts :=
  if label ∈ drafts.labels then .error (.duplicateLabel label)
  else .ok { drafts with labels := drafts.labels.insert label drafts.closed.size }

def add (subroutines : Bool) (drafts : Drafts) : Item → Except Fault Drafts
  | .label label => drafts.split.addLabel label
  | .frame frame => .ok (drafts.split.addFrame frame)
  | .instruction instruction =>
    .ok ((if instruction.isNew then drafts.split else drafts).addInstruction instruction)
  | .branch branch =>
    if branch.isSubroutine && !subroutines then .error .subroutineWithFrames
    else .ok (drafts.addBranch branch)

def ofItems (subroutines : Bool) (items : List Item) : Except Fault Drafts := do
  return (← items.foldlM (add subroutines) empty).cut

end Drafts
end FlowGraph

/-- The blocks of a method in the order they were recorded.  Blocks, handlers
and labels refer to blocks by position. -/
structure FlowGraph where
  blocks : Array CodeBlock
  handlers : List Handler
  labels : Std.HashMap Nat Nat

namespace FlowGraph

variable (labels : Std.HashMap Nat Nat)

/-- The block that a label stands at. -/
def resolve (label : Nat) : Except Fault Nat :=
  match labels[label]? with
  | some block => .ok block
  | none => .error (.undefinedLabel label)

/-- Resolve the labels of a block, given the position after it and whether it
is the last one. -/
def Draft.resolve (draft : Draft) (next : Nat) (isLast : Bool) : Except Fault CodeBlock := do
  let branch ← match draft.branch with
    | some branch =>
      branch.mapM (FlowGraph.resolve labels) (FlowGraph.resolve labels) fun _ => return next
    | none => pure (if isLast then .stop else .fallThrough next)
  let frame ← draft.frame.mapM fun frame => frame.mapM pure (FlowGraph.resolve labels)
  return ⟨frame, draft.instructions, branch⟩

def resolveHandler (handler : Handler) : Except Fault Handler :=
  return {
    start := ← resolve labels handler.start
    stop := ← resolve labels handler.stop
    entry := ← resolve labels handler.entry
    catches := handler.catches }

/-- Cut recorded code into blocks.  The first label used but never placed is the
fault, in the order of the blocks and then of the handlers. -/
def ofItems (items : List Item) (handlers : List Handler) (subroutines : Bool) :
    Except Fault FlowGraph := do
  let drafts ← Drafts.ofItems subroutines items
  let blocks ← drafts.closed.toList.zipIdx.mapM fun (draft, position) =>
    draft.resolve drafts.labels (position + 1) (position + 1 = drafts.closed.size)
  let handlers ← handlers.mapM (resolveHandler drafts.labels)
  return ⟨blocks.toArray, handlers, drafts.labels⟩

/-- Where control goes from the end of a block, exceptions apart. -/
def successors (graph : FlowGraph) (block : Nat) : List Nat :=
  match graph.blocks[block]? with
  | some code => code.successors
  | none => []

/-- The handlers of exceptions in a block, in the order they are tried. -/
def handlersOf (graph : FlowGraph) (block : Nat) : List Handler :=
  graph.handlers.filter fun handler => handler.start ≤ block && block < handler.stop

def hasSubroutines (graph : FlowGraph) : Bool :=
  graph.blocks.any fun block => block.branch.isSubroutine

end FlowGraph
end ClassFile
