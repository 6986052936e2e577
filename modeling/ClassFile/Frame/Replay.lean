import ClassFile.Frame.Transfer

namespace ClassFile
namespace CodeContext

/-!
# Frames between recorded ones

Code that records a frame wherever control joins needs none in between, since
the frame there follows from the last recorded one.
-/

/-- Take a frame through a block. -/
def stepBlock (context : CodeContext) (frame : BlockFrame) (block : Nat) :
    Except Fault BlockFrame := do
  match context.graph.blocks[block]? with
  | some code =>
    stepBranch (← code.instructions.toList.foldlM (context.step block) frame) code.branch
  | none => return frame

/-- The last block up to the given one that has a frame, and that frame.  The
method starts with a frame of its own. -/
def lastRecorded (context : CodeContext) (block : Nat) : Nat × BlockFrame :=
  let recorded? := (List.range (block + 1)).reverse.findSome? fun earlier => do
    return (earlier, ← (← context.graph.blocks[earlier]?).frame)
  recorded?.getD (0, context.method.entryFrame)

/-- The frame with which control falls out of a block, when all blocks since the
last recorded frame fall into each other. -/
def replay (context : CodeContext) (locals block : Nat) : Except Fault BlockFrame :=
  let (first, frame) := context.lastRecorded block
  (List.range' first (block + 1 - first)).foldlM context.stepBlock
    (frame.resize (max locals frame.locals.length))

end CodeContext
end ClassFile
