import ClassFile.Proofs.Code.Exceptions
import ClassFile.Proofs.Code.FrameBlind
import ClassFile.Proofs.Code.WritingOut

namespace ClassFile

/-!
# Code that control never reaches

Computing frames replaces what control never reaches and leaves all other code as it is.
What is replaced keeps its width, so no block moves, and jumps that were within range
still are.
-/

/-! ## Graphs without subroutines -/

namespace FlowGraph

variable {items : List Item} {handlers : List Handler} {graph : FlowGraph}

theorem Drafts.add_of_no_subroutine {drafts after : Drafts} {item : Item}
    (run : drafts.add false item = .ok after) : drafts.add true item = .ok after := by
  cases item with
  | branch branch =>
    rw [add] at run ⊢
    rw [Bool.not_true, Bool.and_false, if_neg Bool.false_ne_true]
    split at run
    · cases run
    · exact run
  | _ => exact run

/-- Items without subroutines are cut in the same way where those are allowed. -/
theorem ofItems_of_no_subroutines (built : ofItems items handlers false = .ok graph) :
    ofItems items handlers true = .ok graph := by
  obtain ⟨drafts, cut, rest⟩ := bind_eq_ok.1 built
  obtain ⟨last, added, isCut⟩ := bind_eq_ok.1 cut
  refine bind_eq_ok.2 ⟨drafts, bind_eq_ok.2 ⟨last, ?_, isCut⟩, rest⟩
  clear built cut isCut rest
  generalize Drafts.empty = start at added ⊢
  induction items generalizing start with
  | nil => exact added
  | cons item items ih =>
    obtain ⟨next, step, onward⟩ := foldlM_cons_eq_ok.1 added
    exact foldlM_cons_eq_ok.2 ⟨next, Drafts.add_of_no_subroutine step, ih next onward⟩

end FlowGraph

namespace Assembly

section

variable {blocks : Array CodeBlock} {graph : FlowGraph} {frames : Array (Option BlockFrame)}
  {block : Nat} {laid : LaidCode}

/-! ## Jumps within range -/

/-- Every short jump is within range as the blocks stand. -/
def Near (blocks : Array CodeBlock) : Prop :=
  Widening.Enough .short blocks (List.range blocks.size) ∅

theorem near_of_none_widened (plain : Widening.Plain blocks (List.range blocks.size))
    (none : (widened blocks).widened = 0) : Near blocks := by
  obtain ⟨least, -⟩ := (Widening.farJumps_widens plain).least plain around_short
  have empty : (Widening.farJumps .short blocks (List.range blocks.size)).toList = [] := by
    rw [← List.length_eq_zero_iff, ← none, widened, Widening.widened_widen plain around_short]
  rw [empty] at least
  exact least.1

theorem Near.widened_eq_self (near : Near blocks)
    (plain : Widening.Plain blocks (List.range blocks.size)) :
    widened blocks = ⟨blocks, List.range blocks.size, 0⟩ := by
  refine widened_eq_self_of_near fun jump member => ?_
  rw [Widening.jumpsOf_eq plain] at member
  obtain ⟨block, placed, found⟩ := List.mem_filterMap.1 member
  obtain ⟨code, target, there, short, same⟩ := Widening.jumpAt_eq_some found
  rw [same, near block placed code there target _ short (Finset.notMem_empty block)]
  rfl

/-- What is replaced keeps its width. -/
theorem blockWidth_live_eq (inferred : Inferred graph frames) :
    Layout.blockWidth (live graph.blocks frames) =
      Layout.blockWidth (alignSwitches graph.blocks) :=
  (blockWidth_live inferred).trans (sameCode_framed inferred.size).blockWidth_eq

/-- Jumps are still within range when unreachable blocks are replaced. -/
theorem near_live (inferred : Inferred graph frames) (near : Near (alignSwitches graph.blocks)) :
    Near (live graph.blocks frames) := by
  intro block placed code there target unconditional short outside
  have size : (alignSwitches graph.blocks).size = (live graph.blocks frames).size := by
    rw [size_alignSwitches, size_live inferred.size]
  obtain ⟨before, isFramed, rfl⟩ := live_getElem? there
  split at short
  · cases short
  · next kept =>
    obtain ⟨frame, there'⟩ := (sameCode_framed inferred.size).exists_code isFramed
    have within := near block (size ▸ placed) _ there' target unconditional short outside
    rw [Widening.grownDistance, Widening.grownStart_empty, Widening.grownStart_empty, size,
      ← blockWidth_live_eq inferred] at within
    rw [Widening.grownDistance, Widening.grownStart_empty, Widening.grownStart_empty, if_neg kept]
    exact within

/-! ## The bytes of a block -/

/-- Every block is written where the widths of those before it end. -/
theorem encodeBlock_slice {order : List Nat} {bytes : Bytes} (distinct : order.Nodup)
    (encoded : Encoding.each (encodeBlock laid) order = .ok bytes) (placed : block ∈ order) :
    encodeBlock laid block = .ok ((bytes.drop
      (Layout.startOf (Layout.blockWidth laid.blocks) order block)).take
        (Layout.blockWidth laid.blocks block)) := by
  obtain ⟨front, back, rfl⟩ := List.append_of_mem placed
  obtain ⟨before, rest, isBefore, isRest, rfl⟩ := Encoding.each_append_eq_ok.1 encoded
  obtain ⟨here, after, isHere, -, rfl⟩ := Encoding.each_cons_eq_ok.1 isRest
  obtain ⟨pieces, each, rfl⟩ := Encoding.each_eq_ok.1 isBefore
  have start : pieces.flatten.length = (front.map (Layout.blockWidth laid.blocks)).sum :=
    Pieces.length_flatten each
  rw [Layout.startOf_append_cons distinct, ← start, List.drop_left, ← length_encodeBlock isHere,
    List.take_left, isHere]

/-- A replaced block is zeros and `athrow`. -/
theorem encodeBlock_bury {code : CodeBlock} (there : laid.blocks[block]? = some (bury code)) :
    encodeBlock laid block =
      .ok (List.replicate (Layout.blockWidth laid.blocks block - 1) 0 ++ [0xBF]) := by
  have width : Layout.blockWidth laid.blocks block - 1 = code.width - 1 := by
    rw [Layout.blockWidth, there]
    change (bury code).bodyWidth + 1 - 1 = _
    rw [Nat.add_sub_cancel, Block.bodyWidth, bury, Array.toList_replicate, total_replicate_nop]
  have zeros : ∀ count, Encoding.each Instruction.encode (List.replicate count .nop) =
      .ok (List.replicate count 0) := by
    intro count
    induction count with
    | zero => rfl
    | succ count ih => exact Encoding.each_cons_eq_ok.2 ⟨[0], _, rfl, ih, rfl⟩
  rw [encodeBlock, there, width]
  exact bind_eq_ok.2 ⟨_, by rw [bury, Array.toList_replicate, zeros], rfl⟩

end

/-! ## With and without computed frames -/

/-- The bytes of a block of a graph, in code where nothing is widened. -/
def blockBytes (graph : FlowGraph) (bytes : Bytes) (block : Nat) : Bytes :=
  let width := Layout.blockWidth (alignSwitches graph.blocks)
  (bytes.drop (Layout.startOf width (List.range graph.blocks.size) block)).take (width block)

/-- A block with bytes that control never reaches. -/
def IsUnreached (graph : FlowGraph) (block : Nat) : Prop :=
  block < graph.blocks.size ∧ ¬graph.Reachable block ∧
    0 < Layout.blockWidth (alignSwitches graph.blocks) block

/-- Code differs from code with computed frames only where control never comes. -/
structure DiffersUnreached (graph : FlowGraph) (image computed : CodeImage) : Prop where
  /-- The blocks are all of the code, one after the other. -/
  whole : image.bytes.length =
    Layout.length (alignSwitches graph.blocks) (List.range graph.blocks.size)
  length_eq : computed.bytes.length = image.bytes.length
  reached : ∀ block, graph.Reachable block →
    blockBytes graph computed.bytes block = blockBytes graph image.bytes block
  replaced : ∀ block, IsUnreached graph block → blockBytes graph computed.bytes block =
    List.replicate (Layout.blockWidth (alignSwitches graph.blocks) block - 1) 0 ++ [0xBF]
  locals_eq : computed.limits.locals = image.limits.locals
  /-- What is thrown needs one place on the stack. -/
  stack_replaced : (∃ block, IsUnreached graph block) →
    computed.limits.stack = max image.limits.stack 1
  stack_kept : (∀ block, ¬IsUnreached graph block) → computed.limits.stack = image.limits.stack

section

variable {graph : FlowGraph} {laid other : LaidCode} {bytes : Bytes}

/-- Blocks in the order they were recorded, at the offsets they have without widening. -/
structure InOrder (graph : FlowGraph) (laid : LaidCode) (bytes : Bytes) : Prop where
  order_eq : laid.order = List.range graph.blocks.size
  size_eq : laid.blocks.size = graph.blocks.size
  offsets_eq : laid.offsets = Layout.offsets laid.blocks laid.order
  width_eq : Layout.blockWidth laid.blocks = Layout.blockWidth (alignSwitches graph.blocks)
  encoded : Encoding.each (encodeBlock laid) laid.order = .ok bytes

theorem InOrder.length_eq (inOrder : InOrder graph laid bytes) :
    bytes.length = Layout.length (alignSwitches graph.blocks) (List.range graph.blocks.size) := by
  obtain ⟨pieces, each, rfl⟩ := Encoding.each_eq_ok.1 inOrder.encoded
  rw [Pieces.length_flatten each, inOrder.width_eq, inOrder.order_eq, Layout.length_eq_sum]

theorem InOrder.encodeBlock_eq (inOrder : InOrder graph laid bytes) {block : Nat}
    (inside : block < graph.blocks.size) :
    encodeBlock laid block = .ok (blockBytes graph bytes block) := by
  have placed : block ∈ laid.order := inOrder.order_eq ▸ List.mem_range.2 inside
  have distinct : laid.order.Nodup := inOrder.order_eq ▸ List.nodup_range
  rw [encodeBlock_slice distinct inOrder.encoded placed, inOrder.width_eq, inOrder.order_eq]
  rfl

theorem InOrder.same_offsets {bytes' : Bytes} (inOrder : InOrder graph laid bytes)
    (inOrder' : InOrder graph other bytes') : laid.offsets = other.offsets := by
  rw [inOrder.offsets_eq, inOrder'.offsets_eq, inOrder.order_eq, inOrder'.order_eq]
  exact Layout.offsets_congr (inOrder.width_eq.trans inOrder'.width_eq.symm)
    (inOrder.size_eq.trans inOrder'.size_eq.symm) _

theorem inOrder_of_written {items : List Item} {segments : List (List Item)}
    (segmented : FlowGraph.Segmented graph items segments) (written : Written graph laid bytes)
    (near : Near (alignSwitches graph.blocks)) :
    InOrder graph laid bytes ∧ SameCode (alignSwitches graph.blocks) laid.blocks := by
  have widened := near.widened_eq_self (plain_aligned segmented)
  have same := written.sameCode
  have order := written.order_eq
  rw [widened] at same order
  have size := size_alignSwitches graph.blocks
  exact ⟨⟨size ▸ order, same.size_eq.symm.trans size, written.offsets_eq, same.blockWidth_eq.symm,
    written.encoded⟩, same⟩

theorem inOrder_computedLayout {frames : Array (Option BlockFrame)}
    (inferred : Inferred graph frames) (near : Near (alignSwitches graph.blocks))
    (encoded : Encoding.each (encodeBlock (computedLayout graph.blocks frames))
      (computedLayout graph.blocks frames).order = .ok bytes) :
    InOrder graph (computedLayout graph.blocks frames) bytes ∧
      (computedLayout graph.blocks frames).blocks = live graph.blocks frames := by
  have size := size_live inferred.size
  have widened := (near_live inferred near).widened_eq_self (size.symm ▸ plain_live inferred)
  have blocks : (computedLayout graph.blocks frames).blocks = live graph.blocks frames :=
    congrArg Widening.Result.blocks widened
  have order : (computedLayout graph.blocks frames).order = List.range graph.blocks.size :=
    (congrArg Widening.Result.order widened).trans (congrArg List.range size)
  exact ⟨⟨order, blocks ▸ size, rfl, blocks ▸ blockWidth_live_eq inferred, encoded⟩, blocks⟩

/-- A block with a frame is the block as it was recorded. -/
theorem live_contents {frames : Array (Option BlockFrame)} (inferred : Inferred graph frames)
    {block : Nat} (reached : graph.Reachable block) :
    (live graph.blocks frames)[block]?.map contents =
      (alignSwitches graph.blocks)[block]?.map contents := by
  obtain ⟨frame, found⟩ := (inferred.reachable block).2 reached
  obtain ⟨code, there⟩ := exists_live inferred.size (inferred.closed.reachable reached)
  obtain ⟨before, isFramed, same⟩ := live_getElem? there
  obtain ⟨original, frame?, -, isFrame, isBefore⟩ := framed_getElem? isFramed
  have some_ : before.frame = some frame := by
    rw [isBefore]
    exact Option.some.inj (isFrame.symm.trans found)
  rw [some_, Option.isNone_some, Bool.false_and, if_neg Bool.false_ne_true] at same
  rw [there, same, ← isFramed]
  exact sameCode_framed inferred.size block

end

end Assembly

namespace MethodBody

open Assembly

variable {body : MethodBody} {method : MethodContext} {wantsFrames : Bool}
  {before after : Assembler.State} {image : CodeImage}

/-- Without computed frames no block is replaced. -/
theorem limits_of_assemble_limits {graph : FlowGraph}
    (run : (body.assemble method .limits wantsFrames).run before = (.ok image, after))
    (built : FlowGraph.ofItems body.items body.handlers true = .ok graph) :
    Limits.compute graph before.pool method.parameterWidth = .ok image.limits := by
  obtain ⟨laidOut, between, laid, run⟩ := layOut_of_assemble run
  obtain ⟨others, built', bounded, -⟩ := recorded_of_layOut rfl laid
  obtain rfl := Except.ok.inj (built'.symm.trans built)
  rw [(writtenOut_of_run run).limits_eq]
  exact bounded

theorem limits_of_assemble_frames {graph : FlowGraph} {laid : LaidCode} {limits : Limits}
    (run : (body.assemble method .frames wantsFrames).run before = (.ok image, after))
    (laysOut : LaysOut body method before graph laid)
    (computed : Limits.compute graph before.pool method.parameterWidth = .ok limits) :
    image.limits = if laid.dead.contains true then { limits with stack := max limits.stack 1 }
      else limits := by
  obtain ⟨laidOut, between, laid, run⟩ := layOut_of_assemble run
  obtain ⟨limits', frames, built, bounded, inferred, same⟩ := computed_of_layOut rfl laid
  obtain ⟨limits'', frames', hierarchy, computed', infer, rfl⟩ := laysOut.computed
  obtain rfl := Except.ok.inj (built.symm.trans laysOut.built)
  obtain rfl := Except.ok.inj (computed'.symm.trans computed)
  obtain rfl := Except.ok.inj (bounded.symm.trans computed)
  obtain ⟨isFrames, -⟩ := Prod.mk.inj (inferred.symm.trans infer)
  obtain rfl := Except.ok.inj isFrames
  rw [(writtenOut_of_run run).limits_eq, same]
  rfl

/-- Computing frames only touches code that control never reaches. -/
theorem assemble_differs_unreached {wantsFrames' : Bool} {after' : Assembler.State}
    {computed : CodeImage} {graph : FlowGraph}
    (run : (body.assemble method .limits wantsFrames).run before = (.ok image, after))
    (run' : (body.assemble method .frames wantsFrames').run before = (.ok computed, after'))
    (built : FlowGraph.ofItems body.items body.handlers true = .ok graph)
    (near : (widened (alignSwitches graph.blocks)).widened = 0) :
    DiffersUnreached graph image computed := by
  obtain ⟨segments, segmented⟩ := FlowGraph.segmented_of_ofItems built
  have near : Near (alignSwitches graph.blocks) :=
    near_of_none_widened (plain_aligned segmented) near
  obtain ⟨graph', laid, built', written, -, -⟩ := written_of_assemble rfl run
  obtain rfl : graph = graph' := Except.ok.inj (built.symm.trans built')
  obtain ⟨graph', other, laysOut, -, encoded, -⟩ := computed_of_assemble run'
  obtain rfl : graph = graph' :=
    Except.ok.inj (built.symm.trans (FlowGraph.ofItems_of_no_subroutines laysOut.built))
  obtain ⟨limits, frames, hierarchy, -, infer, rfl⟩ := laysOut.computed
  have inferred : Inferred graph frames := inferred_of_run laysOut.built infer
  obtain ⟨inOrder, same⟩ := inOrder_of_written segmented written near
  obtain ⟨inOrder', blocks⟩ := inOrder_computedLayout inferred near encoded
  have arranged := @arranged_computedLayout .frames _ _ _ rfl inferred encoded
  have limits_eq := limits_of_assemble_frames run' laysOut (limits_of_assemble_limits run built)
  have unreached_iff : ∀ block, (computedLayout graph.blocks frames).isDead block = true ↔
      IsUnreached graph block := by
    intro block
    rw [arranged.dead, inOrder'.width_eq]
    exact and_iff_right rfl
  have replaces := contains_true_iff.trans (exists_congr unreached_iff)
  constructor
  case whole => exact inOrder.length_eq
  case length_eq => rw [inOrder.length_eq, inOrder'.length_eq]
  case reached =>
    intro block reached
    have inside := inferred.closed.reachable reached
    have here := live_contents inferred reached
    rw [same block, ← blocks] at here
    have written := encodeBlock_congr here (inOrder'.same_offsets inOrder)
    rw [inOrder'.encodeBlock_eq inside, inOrder.encodeBlock_eq inside] at written
    exact Except.ok.inj written
  case replaced =>
    intro block unreached
    obtain ⟨code, there⟩ := arranged.buried block ((unreached_iff block).2 unreached)
    have written := encodeBlock_bury there
    rw [inOrder'.encodeBlock_eq unreached.1, inOrder'.width_eq] at written
    exact Except.ok.inj written
  case locals_eq =>
    rw [limits_eq]
    split <;> rfl
  case stack_replaced =>
    intro unreached
    rw [limits_eq, if_pos (replaces.2 unreached)]
  case stack_kept =>
    intro reached
    rw [limits_eq, if_neg fun dead => ?_]
    obtain ⟨block, unreached⟩ := replaces.1 dead
    exact reached block unreached

end MethodBody

open Assembly

/-- The code of `severed` as it was recorded. -/
def severedRecorded : CodeImage where
  limits := ⟨1, 0⟩
  bytes := [0xB1, 0x00, 0xB1, 0x57, 0xB1]
  exceptions := [⟨0, 5, 3, 0⟩]
  attributes := []

theorem severed_widened :
    widened severedGraph.blocks = ⟨severedGraph.blocks, [0, 1, 2, 3], 0⟩ :=
  widened_eq_self rfl

theorem severed_aligned : alignSwitches severedGraph.blocks = severedGraph.blocks := by
  decide +kernel

/-- How `severed` is laid out as it was recorded. -/
def severedPlain : LaidCode :=
  ⟨severedGraph.blocks, [0, 1, 2, 3], Layout.offsets severedGraph.blocks [0, 1, 2, 3],
    severedGraph.blocks.map fun _ => false⟩

theorem severed_plain : recordedLayout severedGraph.blocks severedGraph.blocks = severedPlain :=
  recordedLayout_eq severed_aligned severed_widened

theorem severed_run_limits (before : Assembler.State) :
    (severed.assemble severedMethod .limits false).run before = (.ok severedRecorded, before) := by
  have built := FlowGraph.ofItems_of_no_subroutines severed_built
  have bounded : severed.limitsOf severedMethod .limits severedGraph before.pool = .ok ⟨1, 0⟩ :=
    severed_compute before.pool
  have short : Layout.length severedPlain.blocks severedPlain.order < 65536 := by decide +kernel
  have encoded : Encoding.each (encodeBlock severedPlain) severedPlain.order =
      .ok severedRecorded.bytes := by
    decide +kernel
  have unframed : severedPlain.recordedFrames = [] := by decide +kernel
  have exceptions : exceptionTable severedPlain severedGraph.handlers =
      severedRecorded.exceptions := by
    decide +kernel
  rw [MethodBody.run_assemble_unframed rfl built bounded (by decide +kernel), severed_aligned,
    severed_widened, severed_plain, unframed, run_writeOut_unmapped short encoded, exceptions]
  rfl

/-- The block in the middle is replaced, and nothing else. -/
theorem assemble_differs_unreached_severed :
    DiffersUnreached severedGraph severedRecorded severedImage := by
  refine MethodBody.assemble_differs_unreached
    (severed_run_limits ⟨.empty, .ofGraph .empty []⟩)
    (severed_run ⟨.empty, .ofGraph .empty []⟩ .empty rfl)
    (FlowGraph.ofItems_of_no_subroutines severed_built) ?_
  rw [severed_aligned, severed_widened]

end ClassFile
