import ClassFile.Proofs.Bytes.Sequences
import ClassFile.Proofs.Code.Assembled
import ClassFile.Proofs.Code.Images
import ClassFile.Proofs.Graph.Closed
import ClassFile.Proofs.Widening.Outcome

namespace ClassFile
namespace Assembly

/-!
# Where blocks are written

Aligned blocks are laid out in the order they were recorded, so widening rewrites
each of them in place.  What it writes for a block is as long as the block and
its growth, a multiple of four bytes, after which the padding of every switch is
still right.
-/

variable {graph : FlowGraph} {items : List Item} {segments : List (List Item)}

/-! ## Aligned blocks -/

theorem length_alignedFrom (offset : Nat) (blocks : List CodeBlock) :
    (alignedFrom offset blocks).length = blocks.length := by
  induction blocks generalizing offset with
  | nil => rfl
  | cons code rest ih => exact congrArg Nat.succ (ih _)

theorem size_alignSwitches (blocks : Array CodeBlock) :
    (alignSwitches blocks).size = blocks.size := by
  rw [← Array.length_toList, alignSwitches_eq, length_alignedFrom, Array.length_toList]

theorem exists_aligned {block : Nat} (inside : block < graph.blocks.size) :
    ∃ code, (alignSwitches graph.blocks)[block]? = some code := by
  rw [← size_alignSwitches] at inside
  exact ⟨_, Array.getElem?_eq_getElem inside⟩

/-- The order in which the blocks were recorded. -/
def recordedOrder (graph : FlowGraph) : List Nat :=
  List.range (alignSwitches graph.blocks).size

theorem mem_recordedOrder {block : Nat} :
    block ∈ recordedOrder graph ↔ block < graph.blocks.size := by
  rw [recordedOrder, List.mem_range, size_alignSwitches]

theorem exists_range_eq {block count : Nat} (below : block + 1 < count) :
    ∃ front back, List.range count = front ++ block :: (block + 1) :: back := by
  have inside : block + 1 < (List.range count).length := by rwa [List.length_range]
  refine ⟨(List.range count).take block, (List.range count).drop (block + 2), ?_⟩
  have two : (List.range count).drop block =
      block :: (block + 1) :: (List.range count).drop (block + 2) := by
    rw [List.drop_eq_getElem_cons (by omega), List.drop_eq_getElem_cons inside, List.getElem_range,
      List.getElem_range]
  rw [← two, List.take_append_drop]

/-- The offset of the branch of a block before anything is widened. -/
def branchOffset (graph : FlowGraph) (block : Nat) (code : CodeBlock) : Nat :=
  Layout.startOf (Layout.blockWidth (alignSwitches graph.blocks)) (recordedOrder graph) block +
    code.bodyWidth

theorem Ends.withPadding {labels : Std.HashMap Nat Nat} {block count : Nat}
    {recorded? : Option (Branch Nat Nat Unit)} {branch : Branch Nat Nat Nat}
    (ends : FlowGraph.Ends labels block count recorded? branch) (padding : Nat) :
    FlowGraph.Ends labels block count (recorded?.map (Branch.withPadding padding))
      (branch.withPadding padding) := by
  cases ends with
  | recorded inner renamed => exact .recorded inner (renamed.withPadding padding)
  | through inner => exact .through inner
  | stops last => exact .stops last

/-- An aligned block and the items that it was cut from. -/
theorem aligned_segment (segmented : FlowGraph.Segmented graph items segments) {block : Nat}
    {code : CodeBlock} {segment : List Item} (found : (alignSwitches graph.blocks)[block]? = some code)
    (there : segments[block]? = some segment) :
    ∃ marks, ∃ recorded? : Option (Branch Nat Nat Unit), segment = marks ++ code.instructions.toList.map Item.instruction ++
        recorded?.toList.map Item.branch ∧
      (∀ mark ∈ marks, FlowGraph.IsMark graph.labels block mark) ∧
        FlowGraph.Ends graph.labels block graph.blocks.size
          (recorded?.map (Branch.withPadding (Branch.paddingAt (branchOffset graph block code))))
          code.branch := by
  rcases alignSwitches_getElem? _ found with ⟨original, isOriginal, rfl⟩
  rcases segmented.each block original segment isOriginal there with
    ⟨marks, recorded?, spelled, areMarks, ends⟩
  exact ⟨marks, recorded?, spelled, areMarks, Ends.withPadding ends _⟩

/-- The blocks of a graph in the order they were recorded make a plain layout. -/
theorem plain_aligned (segmented : FlowGraph.Segmented graph items segments) :
    Widening.Plain (alignSwitches graph.blocks) (recordedOrder graph) := by
  have ends : ∀ block ∈ recordedOrder graph, ∀ code, (alignSwitches graph.blocks)[block]? = some code →
      ∃ recorded?, FlowGraph.Ends graph.labels block graph.blocks.size recorded? code.branch := by
    intro block placed code found
    have inside := mem_recordedOrder.1 placed
    rw [← segmented.length_eq] at inside
    rcases aligned_segment segmented found (List.getElem?_eq_getElem inside) with
      ⟨_, recorded?, -, -, ends⟩
    exact ⟨_, ends⟩
  constructor
  case distinct => exact List.nodup_range
  case inside => exact fun block placed => List.mem_range.1 placed
  case placed =>
    intro block placed code found target isTarget
    rcases ends block placed code found with ⟨recorded?, ends⟩
    exact mem_recordedOrder.2
      (ends.inside segmented.labels target (List.mem_append_left _ isTarget))
  case follows =>
    intro block placed code found condition target next branch
    rcases ends block placed code found with ⟨recorded?, ends⟩
    rw [branch] at ends
    cases ends with
    | recorded inner renamed =>
      cases renamed with
      | conditional _ _ same =>
        subst same
        rw [← size_alignSwitches] at inner
        exact exists_range_eq inner

theorem around_short : Widening.Range.short.Around :=
  ⟨by decide, by decide⟩

/-- All blocks are laid out, the new ones too. -/
theorem widened_covers (blocks : Array CodeBlock) :
    ∀ block < (widened blocks).blocks.size, block ∈ (widened blocks).order :=
  Widening.widen_covers (Widening.splitOnce_of_nodup .short blocks List.nodup_range) .nop none
    fun _ inside => List.mem_range.2 inside

/-- Blocks whose short jumps are all within range stay as they are. -/
theorem widened_eq_self_of_near {blocks : Array CodeBlock}
    (near : ∀ jump ∈ Widening.jumpsOf .short blocks (List.range blocks.size), jump.isFar = false) :
    widened blocks = ⟨blocks, List.range blocks.size, 0⟩ := by
  have far : Widening.farJumps .short blocks (List.range blocks.size) = #[] := by
    have kept : ∀ jump ∈ Widening.withoutRepeats Widening.Jump.isFar ∅
        ((Widening.jumpsOf .short blocks (List.range blocks.size)).mergeSort
          Widening.Jump.precedes), jump.isFar = false := fun jump member =>
      near jump ((List.mergeSort_perm _ _).mem_iff.1
        ((Widening.withoutRepeats_sublist _ _ _).subset member))
    unfold Widening.farJumps
    dsimp only
    rw [List.filterMap_eq_nil_iff.2 ?stays]
    · split
      · rw [List.reverse_nil, Widening.settle]
      · rfl
    · rintro ⟨jump, index⟩ member
      exact if_neg (Bool.eq_false_iff.1 (kept jump (List.fst_mem_of_mem_zipIdx member)))
  unfold widened Widening.widen
  rw [far]
  simp [Widening.lastOfEach, Widening.withoutRepeats, Widening.spliceOrder]

/-- Blocks without short jumps stay as they are. -/
theorem widened_eq_self {blocks : Array CodeBlock}
    (none : Widening.jumpsOf .short blocks (List.range blocks.size) = []) :
    widened blocks = ⟨blocks, List.range blocks.size, 0⟩ :=
  widened_eq_self_of_near fun _ member => absurd (none ▸ member) List.not_mem_nil

/-! ## Growth by multiples of four -/

section

variable {φ ι : Type}

theorem grownStart_eq_add_mul [Wide ι] (blocks : Array (Block φ ι)) (order : List Nat)
    (far : Finset Nat) (block : Nat) :
    ∃ growth, Widening.grownStart blocks order far block =
      Layout.startOf (Layout.blockWidth blocks) order block + 4 * growth := by
  have whole : Widening.grownStart blocks order far block =
      Layout.startOf (Layout.blockWidth blocks) order block +
        Layout.startOf (fun other => if other ∈ far then Widening.growthOf blocks other else 0)
          order block := by
    rw [← Layout.startOf_add]
    rfl
  have divides : 4 ∣ Layout.startOf
      (fun other => if other ∈ far then Widening.growthOf blocks other else 0) order block := by
    refine List.dvd_sum fun bytes member => ?_
    rcases List.mem_map.1 member with ⟨other, -, rfl⟩
    split
    · exact Widening.four_dvd_growthOf blocks other
    · exact Nat.dvd_zero 4
  rcases divides with ⟨growth, same⟩
  exact ⟨growth, whole.trans (congrArg _ same)⟩

theorem paddingAt_add_mul (offset growth : Nat) :
    Branch.paddingAt (offset + 4 * growth) = Branch.paddingAt offset := by
  rw [Branch.paddingAt, Branch.paddingAt]
  omega

end

/-! ## Pieces -/

section

variable {laid : LaidCode} {bytes piece : Bytes} {part origin : Nat} {branch : Branch Nat Nat Nat}
  {written : Branch Int16 Int32 Unit}

/-- A block is written as its instructions and then its branch. -/
theorem encodeBlock_eq_ok {code : CodeBlock} (there : laid.blocks[part]? = some code)
    (run : encodeBlock laid part = .ok piece) :
    ∃ front back written, Encoding.each Instruction.encode code.instructions.toList = .ok front ∧
      relative laid (laid.offset part + code.bodyWidth) code.branch = .ok written ∧
        written.encode = .ok back ∧ piece = front ++ back := by
  rw [encodeBlock, there] at run
  rcases bind_eq_ok.1 run with ⟨front, instructions, run⟩
  rcases bind_eq_ok.1 run with ⟨written, renamed, run⟩
  rcases bind_eq_ok.1 run with ⟨back, encoded, same⟩
  exact ⟨front, back, written, instructions, renamed, encoded, (pure_eq_ok.1 same).symm⟩

theorem distance_eq_ok {range : Widening.Range} {block : Nat} {distance : Int}
    (run : Assembly.distance laid origin range block = .ok distance) :
    range.contains distance = true ∧ Branch.Leads origin distance (laid.offset block) := by
  rw [Assembly.distance] at run
  split at run
  · next within =>
    cases run
    refine ⟨within, ?_⟩
    rw [Branch.Leads]
    omega
  · cases run

/-- The distances that are written lead to where the target blocks are. -/
theorem renamed_of_relative (run : relative laid origin branch = .ok written) :
    Branch.Renamed
      (fun block (distance : Int16) => Branch.Leads origin distance.toInt (laid.offset block))
      (fun block (distance : Int32) => Branch.Leads origin distance.toInt (laid.offset block))
      (fun _ _ => True) branch written := by
  refine (Branch.renamed_of_mapM run).mono ?_ ?_ fun _ _ _ => trivial
  · intro block distance short
    rcases map_eq_ok.1 short with ⟨bytes, within, rfl⟩
    rcases distance_eq_ok within with ⟨within, leads⟩
    rw [Widening.Range.contains_iff] at within
    simp only [Widening.Range.short] at within
    rwa [Int16.toInt_ofInt_of_le (by omega) (by omega)]
  · intro block distance wide
    rcases map_eq_ok.1 wide with ⟨bytes, within, rfl⟩
    rcases distance_eq_ok within with ⟨within, leads⟩
    rw [Widening.Range.contains_iff] at within
    simp only [Widening.Range.wide] at within
    rwa [Int32.toInt_ofInt_of_le (by omega) (by omega)]

/-- A block has as many bytes as it is wide. -/
theorem length_encodeBlock (run : encodeBlock laid part = .ok piece) :
    piece.length = Layout.blockWidth laid.blocks part := by
  cases there : laid.blocks[part]? with
  | none =>
    rw [encodeBlock, there] at run
    rw [Layout.blockWidth, there, ← pure_eq_ok.1 run]
    rfl
  | some code =>
    rcases encodeBlock_eq_ok there run with ⟨front, back, written, each, renamed, encoded, rfl⟩
    rw [List.length_append, Operation.length_each each, Branch.length_encode encoded,
      ← (renamed_of_relative renamed).width, Layout.blockWidth, there]
    rfl

/-- The pieces that the parts of a block are written as. -/
def Pieces (laid : LaidCode) (parts : List Nat) (pieces : List Bytes) : Prop :=
  List.Forall₂ (fun part piece => encodeBlock laid part = .ok piece) parts pieces

theorem Pieces.length_flatten {parts : List Nat} {pieces : List Bytes}
    (each : Pieces laid parts pieces) :
    pieces.flatten.length = (parts.map (Layout.blockWidth laid.blocks)).sum := by
  induction each with
  | nil => rfl
  | cons here _ ih =>
    rw [List.flatten_cons, List.length_append, ih, length_encodeBlock here, List.map_cons,
      List.sum_cons]

theorem opcode?_withPadding {σ ω ν : Type} (branch : Branch σ ω ν) (padding : Nat) :
    (branch.withPadding padding).opcode? = branch.opcode? := by
  cases branch <;> rfl

theorem width_eq_zero {σ ω ν : Type} {branch : Branch σ ω ν} (silent : branch.opcode? = none) :
    branch.width = 0 := by
  cases branch with
  | fallThrough | stop => rfl
  | returns kind => cases kind <;> cases silent
  | _ => cases silent

theorem nil_of_silent (run : relative laid origin branch = .ok written)
    (encoded : written.encode = .ok back) (silent : branch.opcode? = none) : back = [] := by
  rw [← List.length_eq_zero_iff, Branch.length_encode encoded, ← (renamed_of_relative run).width,
    width_eq_zero silent]

/-- A branch whose labels are replaced by where their blocks are. -/
def placed (laid : LaidCode) (branch : Branch Nat Nat Nat) : Branch Nat Nat Unit :=
  branch.map laid.offset laid.offset fun _ => ()

theorem leads_placed (run : relative laid origin branch = .ok written) :
    Branch.Renamed (fun (distance : Int16) target => Branch.Leads origin distance.toInt target)
      (fun (distance : Int32) target => Branch.Leads origin distance.toInt target)
      (fun _ _ => True) written (placed laid branch) := by
  refine ((renamed_of_relative run).flip.comp
    (Branch.renamed_map laid.offset laid.offset (fun _ => ()) branch)).mono ?_ ?_
      fun _ _ _ => trivial
  · rintro distance _ ⟨block, here, rfl⟩
    exact here
  · rintro distance _ ⟨block, here, rfl⟩
    exact here

theorem reads_relative (run : relative laid origin branch = .ok written)
    (encoded : written.encode = .ok piece) (readable : branch.IsReadable origin) :
    Reads Operation.read origin piece (.branch (placed laid branch)) :=
  Branch.reads_encode encoded ((renamed_of_relative run).isReadable readable) (leads_placed run)

/-- A branch that can be read is one operation. -/
theorem tiles_relative (run : relative laid origin branch = .ok written)
    (encoded : written.encode = .ok piece) (readable : branch.IsReadable origin) :
    Operation.Tiles origin piece [(origin, .branch (placed laid branch))] := by
  apply Operation.Tiles.single _ (reads_relative run encoded readable)
  rw [← List.length_pos_iff, Branch.length_encode encoded, ← (renamed_of_relative run).width]
  exact readable.width_pos

end

end Assembly
end ClassFile
