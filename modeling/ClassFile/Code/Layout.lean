import ClassFile.Code.FlowGraph

namespace ClassFile

/-!
# Where blocks start

A layout is the order in which blocks are written.  A block starts where the
blocks before it end.
-/

namespace Layout

variable {φ ι : Type} [Wide ι]

/-- The block at a position of the arena, as laid out after others. -/
def blockWidth (blocks : Array (Block φ ι)) (block : Nat) : Nat :=
  match blocks[block]? with
  | some code => code.width
  | none => 0

/-- Every block of a layout beside the offset it starts at. -/
def startsFrom (blocks : Array (Block φ ι)) (offset : Nat) : List Nat → List (Nat × Nat)
  | [] => []
  | block :: order => (block, offset) :: startsFrom blocks (offset + blockWidth blocks block) order

def starts (blocks : Array (Block φ ι)) (order : List Nat) : List (Nat × Nat) :=
  startsFrom blocks 0 order

/-- The offset of every block by its position in the arena.  Blocks that are not
laid out count as starting at zero. -/
def offsets (blocks : Array (Block φ ι)) (order : List Nat) : Array Nat :=
  (starts blocks order).foldl (fun offsets start => offsets.setIfInBounds start.1 start.2)
    (Array.replicate blocks.size 0)

/-- Bytes of all blocks of a layout. -/
def length (blocks : Array (Block φ ι)) (order : List Nat) : Nat :=
  Wide.total (order.map (blockWidth blocks))

end Layout
end ClassFile
