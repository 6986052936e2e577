import ClassFile.Code.FramePlaces
import ClassFile.Code.Image
import ClassFile.Code.Mode
import ClassFile.Code.Widening
import ClassFile.Frame.Inference
import ClassFile.Frame.Replay

namespace ClassFile

/-!
# Assembling code

A recorded method body becomes bytes in these steps: its items are cut into
blocks, limits and frames are computed or taken as they were recorded, switches
are padded, blocks that control never reaches are replaced, jumps that are out
of range are widened, and the blocks are written in order with their stack map
and exception table.
-/

/-- A method body as it was recorded. -/
structure MethodBody where
  items : List Item
  handlers : List Handler
  /-- Used where limits are not computed. -/
  limits : Option Limits

namespace Assembly

/-- Pad the switches of blocks that are written one after the other. -/
def alignSwitches (blocks : Array CodeBlock) : Array CodeBlock :=
  (blocks.foldl (fun (aligned, offset) code =>
    let padding := Branch.paddingAt (offset + code.bodyWidth)
    let code := { code with branch := code.branch.withPadding padding }
    (aligned.push code, offset + code.width)) (#[], 0)).1

/-- A block of the same width that only throws.  What it throws is on the stack
by its frame. -/
def bury (code : CodeBlock) : CodeBlock where
  frame := some ⟨[], [.object ClassName.throwable.text]⟩
  instructions := Array.replicate (code.width - 1) .nop
  branch := .throws

/-- The block that a widened branch used to fall into.  It is reached through
a block that was added after the first `count` ones. -/
def widenedNext? (count : Nat) (blocks : Array CodeBlock) (block : Nat) : Option Nat := do
  let added ← (← blocks[block]?).branch.next?
  if added < count then none
  match (← blocks[added]?).branch with
  | .goto next => some next
  | _ => none

/-- Give a frame to every block that a widened branch used to fall into.  It now
follows a jump, and so needs one. -/
def addWidenedFrames (context : CodeContext) (locals : Nat) (blocks : Array CodeBlock) :
    Except Fault (Array CodeBlock) :=
  let count := context.graph.blocks.size
  (List.range count).foldlM (fun blocks block => do
    match widenedNext? count blocks block with
    | none => return blocks
    | some next =>
      match blocks[next]? with
      | some ⟨none, instructions, branch⟩ =>
        let frame ← context.replay locals block
        return blocks.setIfInBounds next ⟨some frame, instructions, branch⟩
      | _ => return blocks) blocks

/-- The distance of a block from a branch, if it is within range. -/
def distance (laid : LaidCode) (origin : Nat) (range : Widening.Range) (block : Nat) :
    Except Fault Int :=
  let bytes : Int := laid.offset block - origin
  if range.contains bytes then .ok bytes else .error (.codeOverflow origin)

/-- A branch at an offset with relative targets. -/
def relative (laid : LaidCode) (origin : Nat) (branch : Branch Nat Nat Nat) :
    Except Fault (Branch Int16 Int32 Unit) :=
  branch.mapM (fun block => Int16.ofInt <$> distance laid origin .short block)
    (fun block => Int32.ofInt <$> distance laid origin .wide block) fun _ => return ()

def encodeBlock (laid : LaidCode) (block : Nat) : Except Fault Bytes := do
  match laid.blocks[block]? with
  | none => return []
  | some code =>
    let instructions ← Encoding.each Instruction.encode code.instructions.toList
    let branch ← relative laid (laid.offset block + code.bodyWidth) code.branch
    return instructions ++ (← branch.encode)

/-- A run of offsets, the last one excluded. -/
abbrev OffsetRange := Nat × Nat

/-- Runs of live code: those that are complete and the one that may go on. -/
structure LiveRuns where
  complete : Array OffsetRange
  current : Option OffsetRange

namespace LiveRuns

def cut (runs : LiveRuns) : LiveRuns :=
  ⟨runs.complete ++ runs.current.toList, none⟩

/-- Add code from `start` to `stop`, which prolongs a run that ends there. -/
def add (runs : LiveRuns) (start stop : Nat) : LiveRuns :=
  match runs.current with
  | some (first, last) =>
    if last = start then { runs with current := some (first, stop) }
    else ⟨runs.complete.push (first, last), some (start, stop)⟩
  | none => { runs with current := some (start, stop) }

end LiveRuns

/-- The live code between two offsets. -/
def liveRuns (laid : LaidCode) (start stop : Nat) : List OffsetRange :=
  let runs := laid.order.foldl (fun runs block =>
    let first := laid.offset block
    let last := first + Layout.blockWidth laid.blocks block
    if first < start || stop < last || first = last then runs
    else if laid.isDead block then runs.cut
    else runs.add first last) (LiveRuns.mk #[] none)
  runs.cut.complete.toList

/-- Handlers by offset, each once for every run of live code that it covers. -/
def exceptionTable (laid : LaidCode) (handlers : List Handler) : List ExceptionEntry :=
  handlers.flatMap fun handler =>
    (liveRuns laid (laid.offset handler.start) (laid.offset handler.stop)).map
      fun (start, stop) =>
        ⟨start, stop, laid.offset handler.entry, handler.catches.getD 0⟩

/-- The attribute of a stack map, its name added to the pool. -/
def stackMapAttribute (entries : List StackMapEntry) : Assembler Attribute := do
  let name ← Assembler.symbol (Pool.addUtf8 Attribute.stackMapTable)
  return ⟨name, ← StackMapEntry.encodeTable entries⟩

end Assembly

namespace MethodBody

/-- Lay out and encode a method body.  A stack map is written if there are
frames for it, but a computed one only where it is wanted. -/
def assemble (body : MethodBody) (method : MethodContext) (mode : ComputeMode)
    (wantsFrames : Bool) : Assembler CodeImage := do
  let graph ← FlowGraph.ofItems body.items body.handlers (!mode.computesFrames)
  let context : CodeContext := ⟨graph, method, (← get).pool⟩
  let limits ←
    if mode.computesLimits then Limits.compute graph context.pool method.parameterWidth
    else pure (body.limits.getD ⟨0, 0⟩)
  let frames ←
    if mode.computesFrames then Assembler.query (context.inferFrames limits.locals)
    else pure (graph.blocks.map Block.frame)
  let aligned := Assembly.alignSwitches
    (Array.zipWith (fun code frame => { code with frame }) graph.blocks frames)
  let dead := aligned.map fun code =>
    mode.computesFrames && code.frame.isNone && 0 < code.width
  let limits := if dead.contains true then { limits with stack := max limits.stack 1 } else limits
  let live := Array.zipWith (fun code isDead => if isDead then Assembly.bury code else code)
    aligned dead
  let widened := Widening.widen .short Instruction.nop none live (List.range live.size)
  let blocks ←
    if !mode.computesFrames && graph.blocks.any fun code => code.frame.isSome then
      Assembly.addWidenedFrames context limits.locals widened.blocks
    else pure widened.blocks
  let laid : LaidCode := ⟨blocks, widened.order, Layout.offsets blocks widened.order, dead⟩
  let length := Layout.length blocks widened.order
  if 65536 ≤ length then throw (.codeOverflow length)
  let bytes ← Encoding.each (Assembly.encodeBlock laid) laid.order
  let frames :=
    if mode.computesFrames then laid.neededFrames graph.handlers else laid.recordedFrames
  let attributes ←
    if !frames.isEmpty && (wantsFrames || !mode.computesFrames) then
      pure [← Assembly.stackMapAttribute (← StackMap.ofFrames method laid.offsets frames)]
    else pure []
  return ⟨limits, bytes, Assembly.exceptionTable laid graph.handlers, attributes⟩

end MethodBody
end ClassFile
