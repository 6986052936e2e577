import ClassFile.Code.FlowGraph
import ClassFile.Code.StackEffect

namespace ClassFile

/-!
# Maximum stack height and number of locals

The code of a method states how high its operand stack grows and how many local
variable slots it uses.  The height is found by walking the blocks that control
reaches, each from the height at which it is reached first.  A handler starts
with the exception on the stack and a subroutine with its return address.  Local
variables are counted in all blocks, reached or not.
-/

structure Limits where
  stack : Nat
  locals : Nat
deriving DecidableEq, Repr

namespace Limits

/-- The height of the stack at a point, and the greatest height up to there. -/
structure Level where
  height : Nat
  peak : Nat

namespace Level

def ofHeight (height : Nat) : Level := ⟨height, height⟩

/-- The level after an instruction. -/
def step (pool : Pool) (level : Level) (instruction : Instruction) : Except Fault Level := do
  let effect ← instruction.stackEffect pool
  if effect.pops ≤ level.height then
    let height := level.height - effect.pops + effect.pushes
    return ⟨height, max level.peak height⟩
  else throw (.stackUnderflow (.instruction instruction))

/-- The height after a branch, its operands taken. -/
def finish (level : Level) (branch : Branch Nat Nat Nat) : Except Fault Nat :=
  if branch.pops ≤ level.height then .ok (level.height - branch.pops)
  else .error (.stackUnderflow (.branch branch))

end Level

/-- A block to be walked, and the height at its start. -/
abbrev Entry := Nat × Nat

/-- Where control goes after a branch that leaves the stack at a height. -/
def exits (height : Nat) : Branch Nat Nat Nat → List Entry
  | .jsr target next | .jsrWide target next => [(target, height + 1), (next, height)]
  | branch => (branch.targets ++ branch.next?.toList).map (·, height)

/-- The blocks that one block leads to, and the greatest height on the way.
Handlers come before the targets of the branch. -/
def leave (graph : FlowGraph) (pool : Pool) (block height : Nat) (code : CodeBlock) :
    Except Fault (Nat × List Entry) := do
  let level ← code.instructions.toList.foldlM (Level.step pool) (.ofHeight height)
  let height ← level.finish code.branch
  let caught := (graph.handlersOf block).map fun handler => (handler.entry, 1)
  let after := exits height code.branch
  return (((caught ++ after).map Prod.snd).foldl max level.peak, caught ++ after)

theorem countP_set_lt {heights : Array (Option Nat)} {block height : Nat}
    (fresh : heights[block]? = some none) :
    (heights.setIfInBounds block (some height)).countP Option.isNone <
      heights.countP Option.isNone := by
  obtain ⟨inside, same⟩ := Array.getElem?_eq_some_iff.1 fresh
  have present : 0 < heights.countP Option.isNone :=
    Array.countP_pos_iff.2 ⟨none, Array.mem_of_getElem? fresh, rfl⟩
  rw [Array.setIfInBounds, dif_pos inside, Array.countP_set, same]
  simp only [Option.isNone_none, Option.isNone_some, if_true, Bool.false_eq_true, if_false]
  omega

/-- Walk blocks from the last one found back, given the heights at which blocks
were reached already.  The answer is the greatest height. -/
def walk (graph : FlowGraph) (pool : Pool) (heights : Array (Option Nat)) (peak : Nat) :
    List Entry → Except Fault Nat
  | [] => .ok peak
  | (block, height) :: waiting =>
    match _fresh : heights[block]?, graph.blocks[block]? with
    | some none, some code => do
      let (reached, next) ← leave graph pool block height code
      walk graph pool (heights.setIfInBounds block (some height)) (max peak reached)
        (next.reverse ++ waiting)
    | _, _ => walk graph pool heights peak waiting
termination_by waiting => (heights.countP Option.isNone, waiting.length)
decreasing_by
  · exact Prod.Lex.left _ _ (countP_set_lt _fresh)
  · exact Prod.Lex.right _ (Nat.lt_succ_self _)

/-- Local variable slots that a block needs. -/
def blockLocals (code : CodeBlock) : Nat :=
  let used := code.instructions.foldl (fun most instruction =>
    match instruction.localAccess? with
    | some (slot, width) => max most (slot.toNat + width)
    | none => most) 0
  match code.branch with
  | .ret slot => max used (slot.toNat + 1)
  | _ => used

/-- The limits of code whose parameters take a number of slots, the receiver
included. -/
def compute (graph : FlowGraph) (pool : Pool) (parameters : Nat) : Except Fault Limits := do
  let stack ← walk graph pool (Array.replicate graph.blocks.size none) 0 [(0, 0)]
  let locals := graph.blocks.foldl (fun most code => max most (blockLocals code)) parameters
  if 65536 ≤ stack then throw (.maxStackOverflow stack)
  else if 65536 ≤ locals then throw (.maxLocalsOverflow locals)
  else return ⟨stack, locals⟩

end Limits
end ClassFile
