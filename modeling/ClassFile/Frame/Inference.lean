import ClassFile.Frame.Join

namespace ClassFile

/-!
# Inferring frames

The frame at the start of every block that control reaches is the join of the
frames at the ends of the paths there.  It is found by visiting blocks until no
frame changes any more.  A visit takes the frame of a block through its
instructions and joins it into the frames of the successors.  A handler is
joined with the locals before every instruction that it covers, and with those
after the last one.  Of the blocks whose frame has changed, the first in the
code is visited next.

Joining only ever moves a type up, and no type moves up more often than there
are classes and dimensions of arrays, which bounds the number of visits.
-/

namespace Inference

/-- The frames found so far, and the blocks to visit in increasing order. -/
structure Progress where
  frames : Array (Option BlockFrame)
  waiting : List Nat

/-- Add a block to those that wait, unless it does already. -/
def enqueue (block : Nat) : List Nat → List Nat
  | [] => [block]
  | next :: rest =>
    if block < next then block :: next :: rest
    else if block = next then next :: rest
    else next :: enqueue block rest

/-- Join a frame into that of a block, which then has to be visited if its frame
has changed. -/
def reach (block : Nat) (incoming : BlockFrame) (progress : Progress) :
    Hierarchy.Query Progress := do
  match progress.frames[block]? with
  | some (some known) =>
    let joined ← Hierarchy.joinFrames block known incoming
    if joined = known then return progress
    else
      return ⟨progress.frames.setIfInBounds block (some joined), enqueue block progress.waiting⟩
  | _ =>
    return ⟨progress.frames.setIfInBounds block (some incoming), enqueue block progress.waiting⟩

/-- The frame at the start of a handler when an exception is thrown. -/
def caught (pool : Pool) (handler : Handler) (frame : BlockFrame) : Except Fault BlockFrame := do
  let cls ← match handler.catches with
    | some cls => pool.className cls
    | none => pure ClassName.throwable.text
  return { frame with stack := [.object cls] }

def reachHandlers (pool : Pool) (handlers : List Handler) (frame : BlockFrame)
    (progress : Progress) : Hierarchy.Query Progress :=
  handlers.foldlM (fun progress handler => do
    reach handler.entry (← caught pool handler frame) progress) progress

/-- Take the frame of a block through it. -/
def visit (context : CodeContext) (block : Nat) (code : CodeBlock) (frame : BlockFrame)
    (progress : Progress) : Hierarchy.Query Progress := do
  let handlers := context.graph.handlersOf block
  let (frame, progress) ← code.instructions.toList.foldlM (fun (frame, progress) instruction => do
    let progress ← reachHandlers context.pool handlers frame progress
    return (← context.step block frame instruction, progress)) (frame, progress)
  let progress ← reachHandlers context.pool handlers frame progress
  let frame ← CodeContext.stepBranch frame code.branch
  code.successors.foldlM (fun progress target => reach target frame progress) progress

/-- Visit blocks until none waits. -/
def run (context : CodeContext) : (visits : Nat) → Progress →
    Hierarchy.Query (Array (Option BlockFrame))
  | _, ⟨frames, []⟩ => return frames
  | 0, _ => throw (.endless "frame")
  | visits + 1, ⟨frames, block :: waiting⟩ => do
    match context.graph.blocks[block]?, frames[block]? with
    | some code, some (some frame) =>
      run context visits (← visit context block code frame ⟨frames, waiting⟩)
    | _, _ => run context visits ⟨frames, waiting⟩

/-- The length of the longest text that can name a type of the method. -/
def longestText (context : CodeContext) : Nat :=
  context.pool.entries.foldl (fun most entry =>
    match entry.2 with
    | .utf8 text => max most text.length
    | _ => most) (context.method.thisClass.length + context.method.descriptor.chars.length)

/-- A bound on the number of visits, given the number of local variable slots
and of classes.  A frame has a type for every slot and at most two for every
instruction. -/
def visitBound (context : CodeContext) (locals classes : Nat) : Nat :=
  let instructions := context.graph.blocks.foldl
    (fun total code => total + code.instructions.size) 0
  let changes := (locals + 2 * instructions + 2) * (classes + longestText context + 4)
  context.graph.blocks.size * (changes + 1) + 1

end Inference

/-- The frame at the start of every block, with a number of local variable
slots, or nothing for a block that control never reaches. -/
def CodeContext.inferFrames (context : CodeContext) (locals : Nat) :
    Hierarchy.Query (Array (Option BlockFrame)) := do
  let entry := context.method.entryFrame
  if locals < entry.locals.length then throw (.invalidLocal (entry.locals.length - 1))
  let nothing := ⟨Array.replicate context.graph.blocks.size none, []⟩
  let start ← Inference.reach 0 (entry.resize locals) nothing
  Inference.run context (Inference.visitBound context locals (← get).classCount) start

end ClassFile
