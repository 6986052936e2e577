import ClassFile.Proofs.Code.HalvedFrames
import ClassFile.Proofs.Code.HalvedLimits

namespace ClassFile

/-!
# Code of which a block is cut

Cutting a block in two changes none of the steps by which recorded code is assembled.  The
limits are the same, the same branches are widened, the same frames are added, and in the
end the same rows are written, but for one that is written as two.
-/

open Widening
open FlowGraph (CutInTwo Halved past past_of_le past_of_lt branchAt)

namespace FlowGraph

/-- Handlers cover and begin with blocks that were recorded. -/
theorem IsCut.handlers_inside {graph : FlowGraph} {items : List Item} {handlers : List Handler}
    {pieces : List Piece} (isCut : graph.IsCut items handlers pieces) :
    ∀ handler ∈ graph.handlers, handler.start < graph.blocks.size ∧
      handler.stop < graph.blocks.size ∧ handler.entry < graph.blocks.size := by
  have inside : ∀ {label block : Nat}, resolve graph.labels label = .ok block →
      block < graph.blocks.size := by
    intro label block known
    obtain ⟨piece, found, -⟩ := (isCut.labels label block).1 (resolve_eq_ok.1 known)
    exact isCut.lt_size found
  intro handler member
  obtain ⟨recorded, -, run⟩ := forall₂_mem isCut.handlers member
  obtain ⟨start, isStart, run⟩ := bind_eq_ok.1 run
  obtain ⟨stop, isStop, run⟩ := bind_eq_ok.1 run
  obtain ⟨entry, isEntry, same⟩ := bind_eq_ok.1 run
  obtain rfl := pure_eq_ok.1 same
  exact ⟨inside isStart, inside isStop, inside isEntry⟩

end FlowGraph

namespace Assembly

/-! ## Writing -/

/-- A layout is written as its rows are. -/
theorem WidenedLayout.writeOut_eq {blocks : Array CodeBlock} {laid : LaidCode} {far : Finset Nat}
    {parts : Nat → List Nat} (isWidened : WidenedLayout blocks laid far parts)
    (alive : ∀ block, laid.isDead block = false) (method : MethodContext) (limits : Limits)
    {handlers : List Handler}
    (inside : ∀ handler ∈ handlers, handler.start < blocks.size ∧ handler.stop < blocks.size ∧
      handler.entry < blocks.size) :
    writeOut method limits laid handlers laid.recordedFrames = writeRows method limits
      ((List.range blocks.size).flatMap (grownRows blocks far (frameOf? laid.blocks)))
      (handlers.map (Handler.renumber (grownOffset blocks far))) := by
  have size : blocks.size ≤ laid.offsets.size := by
    rw [isWidened.offsets, Layout.size_offsets, ← isWidened.sameCode.size_eq]
    exact size_le_widened isWidened.rewriting
  have moved : handlers.map (Handler.renumber laid.offset) =
      handlers.map (Handler.renumber (grownOffset blocks far)) := by
    refine List.map_congr_left fun handler member => ?_
    obtain ⟨start, stop, entry⟩ := inside handler member
    rw [Handler.renumber, isWidened.offset_block start, isWidened.offset_block stop,
      isWidened.offset_block entry, Handler.renumber]
  rw [Assembly.writeOut_eq alive fun part frame isFrame site mentions =>
    Nat.lt_of_lt_of_le (isWidened.sites part frame isFrame site mentions) size, isWidened.rows_eq, moved]

section

variable {cut : Nat} {cutCode : CodeBlock} {head tail : List Instruction}
  {blocks others : Array CodeBlock} (halved : Halved cut cutCode head tail blocks others)
  {far far' : Finset Nat} (same : ∀ block, branchAt cut block ∈ far' ↔ block ∈ far)
  {frame? frame?' : Nat → Option BlockFrame}
  (frames : ∀ block < blocks.size,
    frame?' (past cut block) = (frame? block).map (Frame.renumber (past cut)))
  (new : frame?' (cut + 1) = none)
include halved same frames new

/-- A block that is cut is written as it was. -/
theorem writeRows_halved (method : MethodContext) (limits : Limits) {handlers : List Handler}
    (inside : ∀ handler ∈ handlers, handler.start < blocks.size ∧ handler.stop < blocks.size ∧
      handler.entry < blocks.size) :
    writeRows method limits ((List.range others.size).flatMap (grownRows others far' frame?'))
      ((handlers.map (Handler.renumber (past cut))).map (Handler.renumber (grownOffset others far'))) =
      writeRows method limits ((List.range blocks.size).flatMap (grownRows blocks far frame?))
        (handlers.map (Handler.renumber (grownOffset blocks far))) := by
  obtain ⟨whole, first, second, front, back, halves, isWhole, areHalves, start, width⟩ :=
    flatMap_grownRows halved same frames new
  have below := (Array.getElem?_eq_some_iff.1 halved.there).1
  have spares : ∀ block < blocks.size, whole.Spares (grownOffset blocks far block) := by
    intro block inside
    unfold Row.Spares
    rcases Nat.lt_trichotomy block cut with before | rfl | behind
    · have := @grownOffset_le blocks far _ _ before below
      omega
    · exact .inl (Nat.le_of_eq start.symm)
    · have := @grownOffset_le blocks far _ _ behind inside
      omega
  have moved : Handler.renumber (grownOffset others far') ∘ Handler.renumber (past cut) =
      Handler.renumber (grownOffset blocks far) := by
    rw [← grownOffset_past halved same]
    rfl
  rw [isWhole, areHalves, List.map_map, moved]
  refine writeRows_halves halves front back method limits fun handler member => ?_
  obtain ⟨recorded, isRecorded, rfl⟩ := List.mem_map.1 member
  obtain ⟨start, stop, -⟩ := inside recorded isRecorded
  exact ⟨spares _ start, spares _ stop⟩

end

/-- Where a block is cut, code is laid out with frames if it was before, and it is written in
the same way. -/
theorem writeOut_halved {cut : Nat} {cutCode : CodeBlock} {head tail : List Instruction}
    {graph other : FlowGraph} (isCut : CutInTwo cut cutCode head tail graph other)
    {items items' : List Item} {handlers handlers' : List Handler} {subroutines : Bool}
    (built : FlowGraph.ofItems items handlers subroutines = .ok graph)
    (built' : FlowGraph.ofItems items' handlers' subroutines = .ok other) (method : MethodContext)
    (pool : Pool) (limits : Limits) :
    EndsAlike (fun others others' =>
        writeOut method limits (recordedLayout other.blocks others') other.handlers
            (recordedLayout other.blocks others').recordedFrames =
          writeOut method limits (recordedLayout graph.blocks others) graph.handlers
            (recordedLayout graph.blocks others).recordedFrames)
      (MethodBody.recordedBlocks ⟨graph, method, pool⟩ limits.locals)
      (MethodBody.recordedBlocks ⟨other, method, pool⟩ limits.locals) := by
  obtain ⟨far, parts, least, plain, rewriting⟩ := exists_rewriting built
  obtain ⟨far', parts', least', plain', rewriting'⟩ := exists_rewriting built'
  obtain ⟨offset, halved⟩ := alignSwitches_halved isCut.toHalved
  have same := isLeast_halved halved least least'
  have size := size_alignSwitches graph.blocks
  have asks := asksAlike_widened halved rewriting rewriting' same (inside_aligned built)
    (inside_aligned built')
  have alike := framedAlike_widened halved rewriting rewriting'
  have handlers_inside := (FlowGraph.isCut_of_ofItems built).handlers_inside
  have handlers_inside' := (FlowGraph.isCut_of_ofItems built').handlers_inside
  rw [size] at asks alike
  refine (recordedBlocks_alike isCut rfl rfl asks alike).mono fun others others' run run' framed => ?_
  have isWidened := widenedLayout_of_recordedBlocks built plain rewriting run
  have isWidened' := widenedLayout_of_recordedBlocks built' plain' rewriting' run'
  rw [← size] at handlers_inside
  rw [← size_alignSwitches other.blocks] at handlers_inside'
  rw [isWidened.writeOut_eq (isDead_recordedLayout _ _) method limits handlers_inside,
    isWidened'.writeOut_eq (isDead_recordedLayout _ _) method limits handlers_inside', isCut.handlers]
  exact writeRows_halved halved same (size ▸ framed.frames) framed.unframed method limits
    handlers_inside

end Assembly
end ClassFile
