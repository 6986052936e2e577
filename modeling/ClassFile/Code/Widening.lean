import Std.Data.HashSet
import ClassFile.Code.Layout
import ClassFile.IntervalTree

namespace ClassFile
namespace Widening

/-!
# Widening jumps that are out of range

A short jump reaches 32 kilobytes.  One that has to go further becomes a wide
jump, which makes the code longer there, and that can push other jumps out of
range.  A `goto` or `jsr` grows by four bytes,

    goto L2               nop
                          nop
                          goto_w L2

and a conditional branch by eight, with two new blocks after it.

    if* L2                if* L4
                          goto L1
                     L4:  goto_w L2
    L1: …            L1:  …

All growth is by multiples of four bytes, so the operands of a switch stay
aligned.  Jumps are widened one after the other from a stack.  Each of them
lengthens the jumps across it, and those that thereby leave the range join the
stack, so every jump is widened at most once.
-/

/-- The distances that a short jump can cover. -/
structure Range where
  low : Int
  high : Int
deriving DecidableEq, Repr

namespace Range

def contains (range : Range) (distance : Int) : Bool :=
  range.low ≤ distance && distance ≤ range.high

/-- The distances that fit in 16 bits. -/
def short : Range := ⟨-32768, 32767⟩

/-- The distances that fit in 32 bits. -/
def wide : Range := ⟨-2147483648, 2147483647⟩

end Range

/-- A short jump between two places of a layout. -/
structure Jump where
  block : Nat
  /-- The place in the layout right after the jump. -/
  origin : Nat
  /-- The place of the target block. -/
  target : Nat
  unconditional : Bool
  /-- Bytes from the jump to its target. -/
  distance : Int
  /-- The jump is out of range and to be widened. -/
  isFar : Bool
deriving DecidableEq, Repr

namespace Jump

/-- The first place at which growth lengthens the jump.  What grows at the end
of the block before a backward target is outside. -/
def low (jump : Jump) : Nat :=
  if jump.target < jump.origin then jump.target + 1 else jump.origin

/-- The last place at which growth lengthens the jump. -/
def high (jump : Jump) : Nat :=
  max jump.origin jump.target

/-- Jumps are ordered by the places they span. -/
def precedes (a b : Jump) : Bool :=
  a.low < b.low || (a.low == b.low && a.high ≤ b.high)

/-- Bytes that widening the jump adds. -/
def growth (jump : Jump) : Int :=
  if jump.unconditional then 4 else 8

def lengthen (bytes : Int) (jump : Jump) : Jump :=
  { jump with
    distance := if jump.distance < 0 then jump.distance - bytes else jump.distance + bytes }

end Jump

/-! ## Finding the jumps to widen -/

/-- Jumps that are still within range. -/
def near (jumps : Array Jump) : Nat :=
  jumps.countP fun jump => !jump.isFar

theorem near_set {jumps : Array Jump} {index : Nat} {old new : Jump}
    (found : jumps[index]? = some old) :
    near (jumps.setIfInBounds index new) =
      near jumps - (if !old.isFar then 1 else 0) + (if !new.isFar then 1 else 0) := by
  obtain ⟨inside, same⟩ := Array.getElem?_eq_some_iff.1 found
  rw [near, Array.setIfInBounds, dif_pos inside, Array.countP_set, same]
  rfl

theorem near_pos {jumps : Array Jump} {index : Nat} {jump : Jump}
    (found : jumps[index]? = some jump) (fits : jump.isFar = false) : 0 < near jumps :=
  Array.countP_pos_iff.2 ⟨jump, Array.mem_of_getElem? found, by rw [fits]; rfl⟩

/-- Lengthen the jumps at the given positions, and put those that leave the
range onto the stack. -/
def stretch (range : Range) (bytes : Int) (jumps : Array Jump) (stack : List Nat) :
    List Nat → Array Jump × List Nat
  | [] => (jumps, stack)
  | index :: rest =>
    match jumps[index]? with
    | none => stretch range bytes jumps stack rest
    | some jump =>
      if jump.isFar then stretch range bytes jumps stack rest
      else
        let longer := jump.lengthen bytes
        if range.contains longer.distance then
          stretch range bytes (jumps.setIfInBounds index longer) stack rest
        else
          stretch range bytes (jumps.setIfInBounds index { longer with isFar := true })
            (index :: stack) rest

/-- A jump on the stack is no longer within range. -/
theorem stretch_measure (range : Range) (bytes : Int) (jumps : Array Jump)
    (stack indices : List Nat) :
    near (stretch range bytes jumps stack indices).1 +
      (stretch range bytes jumps stack indices).2.length ≤ near jumps + stack.length := by
  induction indices generalizing jumps stack with
  | nil => exact Nat.le_refl _
  | cons index rest ih =>
    rw [stretch]
    split
    · exact ih jumps stack
    · next jump found =>
      by_cases far : jump.isFar = true
      · rw [if_pos far]; exact ih jumps stack
      · have fits : jump.isFar = false := Bool.eq_false_iff.2 far
        have some_near := near_pos found fits
        rw [if_neg far]
        dsimp only
        split
        · refine Nat.le_trans (ih _ _) ?_
          rw [near_set found, Jump.lengthen]
          simp only [fits, Bool.not_false, if_true]
          omega
        · refine Nat.le_trans (ih _ _) ?_
          rw [near_set found, Jump.lengthen]
          simp only [fits, Bool.not_false, Bool.not_true, if_true, Bool.false_eq_true, if_false,
            List.length_cons]
          omega

/-- The positions of the jumps across a place, in increasing order. -/
def across (spans : IntervalTree Nat Nat) (place : Nat) : List Nat :=
  ((spans.query place).map Interval.item).mergeSort (· ≤ ·)

/-- Widen the jumps on the stack and those that follow from them.  The answer
lists the widened jumps in the order they were taken from the stack. -/
def settle (range : Range) (spans : IntervalTree Nat Nat) (jumps : Array Jump)
    (widened : Array Jump) : List Nat → Array Jump
  | [] => widened
  | index :: stack =>
    match jumps[index]? with
    | none => settle range spans jumps widened stack
    | some jump =>
      let next := stretch range jump.growth jumps stack (across spans jump.origin)
      settle range spans next.1 (widened.push jump) next.2
termination_by stack => near jumps + stack.length
decreasing_by
  · exact Nat.add_lt_add_left (Nat.lt_succ_self _) _
  · exact Nat.lt_of_le_of_lt (stretch_measure ..) (Nat.add_lt_add_left (Nat.lt_succ_self _) _)

/-- The target of a jump encoded in 16 bits. -/
def shortTarget? : Branch Nat Nat Nat → Option (Nat × Bool)
  | .conditional _ target _ => some (target, false)
  | .goto target | .jsr target _ => some (target, true)
  | _ => none

variable {φ ι : Type} [Wide ι]

/-- The short jumps of a layout whose targets are laid out too. -/
def jumpsOf (range : Range) (blocks : Array (Block φ ι)) (order : List Nat) : List Jump :=
  let starts := Layout.starts blocks order
  let places : Std.HashMap Nat (Nat × Nat) := starts.zipIdx.foldl
    (fun places (start, place) => places.insert start.1 (place, start.2)) ∅
  order.filterMap fun block => do
    let code ← blocks[block]?
    let (target, unconditional) ← shortTarget? code.branch
    let (place, start) ← places[block]?
    let (targetPlace, targetStart) ← places[target]?
    let distance : Int := targetStart - (start + code.bodyWidth : Nat)
    return {
      block, unconditional, distance
      origin := place + 1
      target := targetPlace
      isFar := !range.contains distance }

/-- Leave out jumps of blocks that were seen before, unless they may be
repeated. -/
def withoutRepeats (repeatable : Jump → Bool) (seen : Std.HashSet Nat) : List Jump → List Jump
  | [] => []
  | jump :: rest =>
    if jump.block ∈ seen ∧ repeatable jump = false then withoutRepeats repeatable seen rest
    else jump :: withoutRepeats repeatable (seen.insert jump.block) rest

/-- Jumps of different blocks all stay. -/
theorem withoutRepeats_eq_self (repeatable : Jump → Bool) {seen : Std.HashSet Nat}
    {jumps : List Jump} (distinct : (jumps.map Jump.block).Nodup)
    (unseen : ∀ jump ∈ jumps, jump.block ∉ seen) :
    withoutRepeats repeatable seen jumps = jumps := by
  induction jumps generalizing seen with
  | nil => rfl
  | cons jump rest ih =>
    rw [List.map_cons, List.nodup_cons] at distinct
    rw [withoutRepeats, if_neg fun h => unseen jump List.mem_cons_self h.1]
    congr 1
    refine ih distinct.2 fun other member known => ?_
    rcases Std.HashSet.mem_insert.1 known with same | before
    · exact distinct.1 (eq_of_beq same ▸ List.mem_map_of_mem member)
    · exact unseen other (List.mem_cons_of_mem _ member) before

/-- The jumps to widen, in the order in which new blocks are made for them.  A
block that is laid out more than once counts as being at its last place.  A jump
of it that is out of range from the start is taken once for every time it is
laid out, and any other one once. -/
def farJumps (range : Range) (blocks : Array (Block φ ι)) (order : List Nat) : Array Jump :=
  let sorted := (jumpsOf range blocks order).mergeSort Jump.precedes
  let jumps := withoutRepeats Jump.isFar ∅ sorted
  let spans := jumps.zipIdx.map fun (jump, index) => Interval.mk jump.low jump.high index
  let stack := jumps.zipIdx.filterMap fun (jump, index) => if jump.isFar then some index else none
  match IntervalTree.ofList? spans with
  | some tree => settle range tree jumps.toArray #[] stack.reverse
  | none => #[]

/-! ## Rewriting the blocks -/

/-- A wide jump in place of a short one, behind padding. -/
def widenJump (pad : ι) (code : Block φ ι) : Block φ ι :=
  let padded := (code.instructions.push pad).push pad
  match code.branch with
  | .goto target => { code with instructions := padded, branch := .gotoWide target }
  | .jsr target next => { code with instructions := padded, branch := .jsrWide target next }
  | _ => code

/-- Redirect a conditional branch to the second of two new blocks, which jumps on
to the old target.  The first one jumps to what the branch fell into.  Both are
appended to the arena, and the branch names them by the numbers they were
promised. -/
def splitBranch (blank : φ) (first : Nat) (blocks : Array (Block φ ι)) (block : Nat) :
    Array (Block φ ι) :=
  match blocks[block]? with
  | some code =>
    match code.branch with
    | .conditional condition target next =>
      let targetFrame := (blocks[target]?.map Block.frame).getD blank
      ((blocks.setIfInBounds block
        { code with branch := .conditional condition (first + 1) first }).push
          ⟨blank, #[], .goto next⟩).push ⟨targetFrame, #[], .gotoWide target⟩
    | _ => blocks
  | none => blocks

/-- Place the new blocks of a widened branch right after it. -/
def spliceOrder (splits : Std.HashMap Nat Nat) (order : List Nat) : List Nat :=
  order.flatMap fun block =>
    match splits[block]? with
    | some first => [block, first, first + 1]
    | none => [block]

/-- A layout after widening and the number of widened jumps. -/
structure Result (φ ι : Type) where
  blocks : Array (Block φ ι)
  order : List Nat
  widened : Nat

/-- The last of the jumps of each block. -/
def lastOfEach (jumps : List Jump) : List Jump :=
  (withoutRepeats (fun _ => false) ∅ jumps.reverse).reverse

/-- Widen all jumps of a layout that are out of range.  New blocks get a blank
frame, or the frame of the target where they take its place.  Each time that a
conditional branch is taken from the stack, the next two numbers are promised to
its new blocks.  They are made once, in the order of the last promises, and so
stand where they were promised if no branch was taken twice. -/
def widen (range : Range) (pad : ι) (blank : φ) (blocks : Array (Block φ ι))
    (order : List Nat) : Result φ ι :=
  let taken := (farJumps range blocks order).toList
  let branches := taken.filter fun jump => !jump.unconditional
  let splits : Std.HashMap Nat Nat := branches.zipIdx.foldl
    (fun splits (jump, index) => splits.insert jump.block (blocks.size + 2 * index)) ∅
  let toPad := lastOfEach (taken.filter (·.unconditional))
  let toSplit := lastOfEach branches
  let padded := toPad.foldl (fun blocks jump => blocks.modify jump.block (widenJump pad)) blocks
  { blocks := toSplit.foldl (fun arena jump =>
      splitBranch blank (splits.getD jump.block blocks.size) arena jump.block) padded
    order := spliceOrder splits order
    widened := toPad.length + toSplit.length }

end Widening
end ClassFile
