import ClassFile.Class.Attribute
import ClassFile.Code.Assembler
import ClassFile.Code.Layout
import ClassFile.Frame.StackMap

namespace ClassFile

/-!
# Where frames go

A stack map has a frame wherever control arrives other than from the instruction
before: at targets of jumps, at handlers, after instructions that never fall
through, and at code that is never reached.  Frames that were recorded are all
kept.  A block without bytes starts where the next one does, which takes its
frame, and nothing stands at the end of the code.
-/

/-- Blocks in the order they are written, beside their offsets. -/
structure LaidCode where
  blocks : Array CodeBlock
  order : List Nat
  offsets : Array Nat
  /-- The blocks that control never reaches. -/
  dead : Array Bool

namespace LaidCode

def offset (laid : LaidCode) (block : Nat) : Nat :=
  laid.offsets.getD block 0

def isDead (laid : LaidCode) (block : Nat) : Bool :=
  laid.dead.getD block false

/-- Mark blocks. -/
def mark (marks : Array Bool) (blocks : List Nat) : Array Bool :=
  blocks.foldl (fun marks block => marks.setIfInBounds block true) marks

/-- The blocks where control arrives other than by falling in. -/
def arrivals (laid : LaidCode) (handlers : List Handler) : Array Bool :=
  let caught := mark (Array.replicate laid.blocks.size false) (handlers.map Handler.entry)
  laid.blocks.zipIdx.foldl (fun marks (code, block) =>
    mark marks (if laid.isDead block then block :: code.branch.targets else code.branch.targets))
    caught

/-- The placed frames so far, and whether the next bytes need one. -/
structure Needs where
  placed : Array (Nat × BlockFrame)
  isNeeded : Bool

/-- Place the frame of a block where one is needed. -/
def placeNeeded (laid : LaidCode) (arrivals : Array Bool) (needs : Needs) (block : Nat) :
    Needs :=
  match laid.blocks[block]? with
  | none => needs
  | some code =>
    let isNeeded := needs.isNeeded || arrivals.getD block false
    if code.width = 0 then { needs with isNeeded }
    else
      let placed := match isNeeded, code.frame with
        | true, some frame => needs.placed.push (laid.offset block, frame)
        | _, _ => needs.placed
      ⟨placed, code.branch.next?.isNone⟩

/-- The computed frames that a stack map needs, beside their offsets. -/
def neededFrames (laid : LaidCode) (handlers : List Handler) : List (Nat × BlockFrame) :=
  let needs := laid.order.foldl (laid.placeNeeded (laid.arrivals handlers)) ⟨#[], false⟩
  needs.placed.toList

/-- The placed frames so far, and the frame of blocks without bytes just
before. -/
structure Recorded where
  placed : Array (Nat × BlockFrame)
  pending : Option BlockFrame

def placeRecorded (laid : LaidCode) (recorded : Recorded) (block : Nat) : Recorded :=
  match laid.blocks[block]? with
  | none => recorded
  | some code =>
    let frame? := code.frame.or recorded.pending
    if code.width = 0 then { recorded with pending := frame? }
    else
      let placed := match frame? with
        | some frame => recorded.placed.push (laid.offset block, frame)
        | none => recorded.placed
      ⟨placed, none⟩

/-- The frames that were recorded, one for every offset. -/
def recordedFrames (laid : LaidCode) : List (Nat × BlockFrame) :=
  (laid.order.foldl laid.placeRecorded ⟨#[], none⟩).placed.toList

end LaidCode

namespace StackMap

/-- The code offset of the `new` at the start of a block. -/
def siteOffset (offsets : Array Nat) (site : Nat) : Except Fault Nat :=
  match offsets[site]? with
  | some offset => if offset < 65536 then .ok offset else .error (.codeOverflow offset)
  | none => .error (.malformed (.noOffset site))

/-- A frame as it is written, its classes added to the pool. -/
def written (offsets : Array Nat) (frame : BlockFrame) : Assembler WrittenFrame :=
  frame.mapM (fun name => Assembler.symbol (Pool.addClass name)) fun site =>
    siteOffset offsets site

/-- A frame as it is compared with, its unknown classes given the position zero,
which no written frame has. -/
def compared (pool : Pool) (offsets : Array Nat) (frame : BlockFrame) :
    Except Fault WrittenFrame :=
  frame.mapM (fun name => return (pool.classOf? name).getD 0) (siteOffset offsets)

/-- Entries after those already made, each saying how its frame differs from the
one before. -/
def entriesAfter (made : Array StackMapEntry) (previous? : Option Nat)
    (previousFrame : WrittenFrame) : List (Nat × WrittenFrame) →
    Except Fault (Array StackMapEntry)
  | [] => .ok made
  | (offset, frame) :: rest =>
    let delta := match previous? with
      | none => offset
      | some previous => offset - previous - 1
    if delta < 65536 then
      entriesAfter (made.push (frame.entryAfter previousFrame delta)) (some offset) frame rest
    else .error (.codeOverflow offset)

/-- The stack map of frames by increasing offsets.  The first of them is
compared with the frame at the start of the method, for which no class is
added. -/
def ofFrames (method : MethodContext) (offsets : Array Nat) (frames : List (Nat × BlockFrame)) :
    Assembler (List StackMapEntry) := do
  let placed ← frames.mapM fun (offset, frame) => return (offset, ← written offsets frame)
  let entry ← compared (← get).pool offsets method.entryFrame
  return (← entriesAfter #[] none entry placed).toList

end StackMap
end ClassFile
