import ClassFile.Hierarchy.Standard
import ClassFile.Proofs.Code.WritingOut

namespace ClassFile
namespace Assembly

/-!
# Decoding undoes assembling

The code of a method whose frames were recorded decodes to the images of what was
recorded, and nothing else.  Each block is taken by itself, by the cases of what
widening made of it, and the code is the blocks one after the other.
-/

open Operation

variable {graph : FlowGraph} {laid : LaidCode} {bytes : Bytes} {items : List Item}
  {segments : List (List Item)} {far : Finset Nat} {parts : Nat → List Nat} {block : Nat}

/-- Where labels are placed in written code. -/
def placeOf (graph : FlowGraph) (laid : LaidCode) (label : Nat) : Option Nat :=
  graph.labels[label]?.map laid.offset

/-! ## Offsets and lengths -/

/-- How the blocks of a graph were rewritten. -/
abbrev Rewrites (graph : FlowGraph) (far : Finset Nat) (parts : Nat → List Nat) : Prop :=
  Widening.Rewriting .nop none (alignSwitches graph.blocks) (recordedOrder graph)
    (widened (alignSwitches graph.blocks)) far parts

/-- Where a block starts once others have grown. -/
def startOf (graph : FlowGraph) (far : Finset Nat) (block : Nat) : Nat :=
  Widening.grownStart (alignSwitches graph.blocks) (recordedOrder graph) far block

theorem Written.offset_part (written : Written graph laid bytes)
    (segmented : FlowGraph.Segmented graph items segments) (rewrites : Rewrites graph far parts)
    (inside : block < graph.blocks.size) (front : List Nat) {back : List Nat} {part : Nat}
    {code : CodeBlock} (here : parts block = front ++ part :: back)
    (there : (widened (alignSwitches graph.blocks)).blocks[part]? = some code) :
    laid.offset part =
      startOf graph far block + (front.map (Layout.blockWidth laid.blocks)).sum := by
  have placed := rewrites.offset_part rfl (plain_aligned segmented).distinct
    (mem_recordedOrder.2 inside) front here (Array.getElem?_eq_some_iff.1 there).1
  rw [written.sameCode.blockWidth_eq] at placed
  rw [startOf, ← placed, Widening.Result.offset, written.sameCode.offsets_eq, ← written.order_eq,
    ← written.offsets_eq, LaidCode.offset, Array.getD_eq_getD_getElem?]

theorem Written.offset_block (written : Written graph laid bytes)
    (segmented : FlowGraph.Segmented graph items segments) (rewrites : Rewrites graph far parts)
    (inside : block < graph.blocks.size) : laid.offset block = startOf graph far block := by
  rcases (rewrites.rewritten block (mem_recordedOrder.2 inside)).head with ⟨⟨rest, here⟩, there⟩
  exact written.offset_part segmented rewrites inside [] here (Array.getElem?_eq_getElem there)

/-- What is written for a block is as long as the block and its growth. -/
theorem Written.length_pieces (written : Written graph laid bytes)
    (rewrites : Rewrites graph far parts) (inside : block < graph.blocks.size) {pieces : List Bytes}
    (each : Pieces laid (parts block) pieces) :
    pieces.flatten.length = Widening.grownWidth (alignSwitches graph.blocks) far block := by
  have rewritten := rewrites.rewritten block (mem_recordedOrder.2 inside)
  rw [← rewritten.width rfl, written.sameCode.blockWidth_eq, each.length_flatten]

/-! ## Branches -/

/-- Labels lead to the blocks that they stand at, wherever these are written. -/
theorem renamed_placed {recorded : Branch Nat Nat Unit} {branch : Branch Nat Nat Nat}
    {next : Unit → Nat → Prop}
    (renamed : Branch.Renamed (fun label target => graph.labels[label]? = some target)
      (fun label target => graph.labels[label]? = some target) next recorded branch) :
    Branch.Renamed (fun label target => placeOf graph laid label = some target)
      (fun label target => placeOf graph laid label = some target) (fun _ _ => True) recorded
      (placed laid branch) := by
  refine (renamed.comp (Branch.renamed_map laid.offset laid.offset (fun _ => ()) branch)).mono
    ?_ ?_ fun _ _ _ => trivial
  · rintro label _ ⟨block, found, rfl⟩
    rw [placeOf, found, Option.map_some]
  · rintro label _ ⟨block, found, rfl⟩
    rw [placeOf, found, Option.map_some]

/-- Every table has a target. -/
def TablesFilled (recorded : Branch Nat Nat Unit) : Prop :=
  ∀ padding otherwise low targets, recorded = .tableSwitch padding otherwise low targets →
    targets ≠ []

theorem isReadable_withPadding {recorded : Branch Nat Nat Unit} (origin : Nat)
    (visible : recorded.opcode? ≠ none) (filled : TablesFilled recorded)
    (short : (recorded.withPadding (Branch.paddingAt origin)).width < 65536) :
    (recorded.withPadding (Branch.paddingAt origin)).IsReadable origin := by
  cases recorded with
  | tableSwitch padding otherwise low targets => exact ⟨rfl, filled _ _ _ _ rfl⟩
  | lookupSwitch padding otherwise targets =>
    refine ⟨rfl, ?_⟩
    rw [Branch.withPadding, Branch.width] at short
    omega
  | fallThrough | stop => exact absurd rfl visible
  | _ => trivial

/-- A branch that was not widened decodes to itself. -/
theorem decodes_ending {origin count : Nat} {recorded? : Option (Branch Nat Nat Unit)}
    {branch : Branch Nat Nat Nat} {written : Branch Int16 Int32 Unit} {back : Bytes}
    (ends : FlowGraph.Ends graph.labels block count
      (recorded?.map (Branch.withPadding (Branch.paddingAt origin))) branch)
    (run : relative laid origin branch = .ok written) (encoded : written.encode = .ok back)
    (filled : ∀ recorded, recorded? = some recorded → TablesFilled recorded)
    (short : branch.width < 65536) :
    Decodes (placeOf graph laid) origin back (recorded?.toList.map Item.branch) := by
  cases recorded? with
  | none =>
    have silent : branch.opcode? = none := by
      cases ends <;> rfl
    rw [nil_of_silent run encoded silent]
    exact .nil origin
  | some recorded =>
    cases ends with
    | recorded _ renamed =>
      have opcode := renamed.opcode?
      rw [opcode?_withPadding] at opcode
      by_cases silent : branch.opcode? = none
      · rw [nil_of_silent run encoded silent]
        exact decodes_branch (.nil origin) (.silent (opcode.trans silent))
      · have readable := isReadable_withPadding origin (opcode ▸ silent) (filled _ rfl)
          (by rwa [renamed.width])
        have renamed' := @renamed_placed _ laid _ _ _ renamed
        refine decodes_branch (tiles_relative run encoded (renamed.isReadable readable))
          (.same ?_ renamed')
        rw [← renamed'.opcode?, opcode?_withPadding, opcode]
        exact silent

/-! ## Widened branches -/

/-- Instructions, and after them two that do nothing. -/
theorem each_padded {instructions : Array Instruction} {bytes : Bytes}
    (written : Encoding.each Instruction.encode
      ((instructions.push .nop).push .nop).toList = .ok bytes) :
    ∃ front, Encoding.each Instruction.encode instructions.toList = .ok front ∧
      bytes = front ++ [0, 0] := by
  have split : ((instructions.push .nop).push .nop).toList =
      instructions.toList ++ [Instruction.nop, Instruction.nop] := by
    simp
  rw [split, Encoding.each_append_eq_ok] at written
  rcases written with ⟨front, back, here, there, rfl⟩
  cases there
  exact ⟨front, here, rfl⟩

/-- A jump behind two instructions that do nothing. -/
theorem tiles_padded {start : Nat} {branch : Branch Nat Nat Nat}
    {written : Branch Int16 Int32 Unit} {back : Bytes}
    (run : relative laid (start + 2) branch = .ok written) (encoded : written.encode = .ok back)
    (readable : branch.IsReadable (start + 2)) :
    Tiles start ([0, 0] ++ back) [(start, .instruction .nop), (start + 1, .instruction .nop),
      (start + 2, .branch (placed laid branch))] := by
  have nop : ∀ start, Tiles start [0] [(start, .instruction .nop)] :=
    fun start => tiles_instruction rfl start
  exact (nop start).append ((nop (start + 1)).append (tiles_relative run encoded readable))

section

variable {labels : Std.HashMap Nat Nat} {count padding target next : Nat}
  {recorded? : Option (Branch Nat Nat Unit)}

theorem recorded_goto
    (ends : FlowGraph.Ends labels block count (recorded?.map (Branch.withPadding padding))
      (.goto target)) :
    ∃ label, recorded? = some (.goto label) ∧ labels[label]? = some target := by
  cases recorded? with
  | none => cases ends
  | some recorded =>
    cases ends with
    | recorded _ renamed =>
      cases recorded <;> cases renamed
      exact ⟨_, rfl, ‹_›⟩

theorem recorded_jsr
    (ends : FlowGraph.Ends labels block count (recorded?.map (Branch.withPadding padding))
      (.jsr target next)) :
    ∃ label, recorded? = some (.jsr label ()) ∧ labels[label]? = some target := by
  cases recorded? with
  | none => cases ends
  | some recorded =>
    cases ends with
    | recorded _ renamed =>
      cases recorded <;> cases renamed
      exact ⟨_, rfl, ‹_›⟩

theorem recorded_conditional {condition : Condition}
    (ends : FlowGraph.Ends labels block count (recorded?.map (Branch.withPadding padding))
      (.conditional condition target next)) :
    ∃ label, recorded? = some (.conditional condition label ()) ∧
      labels[label]? = some target := by
  cases recorded? with
  | none => cases ends
  | some recorded =>
    cases ends with
    | recorded _ renamed =>
      cases recorded <;> cases renamed
      exact ⟨_, rfl, ‹_›⟩

end

/-! ## Blocks -/

theorem decodes_segment {marks : List Item} {instructions : List Instruction} {tail : List Item}
    {start : Nat} {front back : Bytes} (here : laid.offset block = start)
    (areMarks : ∀ mark ∈ marks, FlowGraph.IsMark graph.labels block mark)
    (each : Encoding.each Instruction.encode instructions = .ok front)
    (after : Decodes (placeOf graph laid) (start + front.length) back tail) :
    Decodes (placeOf graph laid) start (front ++ back)
      (marks ++ instructions.map Item.instruction ++ tail) := by
  have onMarks : Decodes (placeOf graph laid) start [] marks := by
    refine decodes_marks fun mark member => ?_
    cases areMarks mark member with
    | label placed =>
      refine .inl ⟨_, rfl, ?_⟩
      rw [placeOf, placed, Option.map_some, here]
    | frame frame => exact .inr ⟨frame, rfl⟩
  exact (onMarks.append (decodes_instructions each)).append after

/-- Growth leaves the padding of a switch as it was. -/
theorem paddingAt_origin (graph : FlowGraph) (far : Finset Nat) (block : Nat) (code : CodeBlock) :
    Branch.paddingAt (startOf graph far block + code.bodyWidth) =
      Branch.paddingAt (branchOffset graph block code) := by
  rcases grownStart_eq_add_mul (alignSwitches graph.blocks) (recordedOrder graph) far block with
    ⟨growth, same⟩
  rw [startOf, same, Nat.add_right_comm, paddingAt_add_mul, branchOffset]

theorem Written.blockWidth_lt (written : Written graph laid bytes) {part : Nat}
    (placed : part ∈ laid.order) : Layout.blockWidth laid.blocks part < 65536 := by
  have short := written.short
  rw [Layout.length_eq_sum] at short
  exact Nat.lt_of_le_of_lt (List.le_sum_of_mem (List.mem_map_of_mem placed)) short

section

variable {code : CodeBlock} {recorded? : Option (Branch Nat Nat Unit)} {marks : List Item}
  {pieces : List Bytes}

/-- A block whose branch stays as it is. -/
theorem Written.decodes_kept (written : Written graph laid bytes)
    (start : laid.offset block = startOf graph far block) (placed : block ∈ laid.order)
    (areMarks : ∀ mark ∈ marks, FlowGraph.IsMark graph.labels block mark)
    (ends : FlowGraph.Ends graph.labels block graph.blocks.size
      (recorded?.map (Branch.withPadding (Branch.paddingAt (branchOffset graph block code))))
      code.branch)
    (filled : ∀ recorded, recorded? = some recorded → TablesFilled recorded)
    (after : (widened (alignSwitches graph.blocks)).blocks[block]? = some code)
    (each : Pieces laid [block] pieces) :
    Decodes (placeOf graph laid) (startOf graph far block) pieces.flatten
      (marks ++ code.instructions.toList.map Item.instruction ++
        recorded?.toList.map Item.branch) := by
  rcases written.sameCode.exists_code after with ⟨frame, there⟩
  rcases List.forall₂_cons_left_iff.1 each with ⟨piece, _, here, none, rfl⟩
  cases none
  rcases encodeBlock_eq_ok there here with ⟨front, back, relative_, instructions, run, encoded, rfl⟩
  have origin : laid.offset block + code.bodyWidth = startOf graph far block + front.length := by
    rw [start, length_each instructions]
    rfl
  have width := written.blockWidth_lt placed
  rw [Layout.blockWidth, there] at width
  rw [← paddingAt_origin graph far block code] at ends
  rw [List.flatten_singleton]
  refine decodes_segment start areMarks instructions ?_
  change relative laid (laid.offset block + code.bodyWidth) code.branch = _ at run
  rw [origin] at run
  rw [← start, origin] at ends
  exact decodes_ending ends run encoded filled (Nat.lt_of_le_of_lt (Nat.le_add_left _ _) width)

/-- A block whose jump is a wide one behind two instructions that do nothing. -/
theorem Written.decodes_padded (written : Written graph laid bytes)
    (start : laid.offset block = startOf graph far block)
    (areMarks : ∀ mark ∈ marks, FlowGraph.IsMark graph.labels block mark)
    {recorded : Branch Nat Nat Unit} {wide : Branch Nat Nat Nat}
    (readable : ∀ origin, wide.IsReadable origin)
    (image : ∀ start next, BranchImage (placeOf graph laid) start next recorded
      [(start, .instruction .nop), (start + 1, .instruction .nop),
        (start + 2, .branch (placed laid wide))])
    (after : (widened (alignSwitches graph.blocks)).blocks[block]? =
      some ⟨code.frame, (code.instructions.push .nop).push .nop, wide⟩)
    (each : Pieces laid [block] pieces) :
    Decodes (placeOf graph laid) (startOf graph far block) pieces.flatten
      (marks ++ code.instructions.toList.map Item.instruction ++ [.branch recorded]) := by
  rcases written.sameCode.exists_code after with ⟨frame, there⟩
  rcases List.forall₂_cons_left_iff.1 each with ⟨piece, _, here, none, rfl⟩
  cases none
  rcases encodeBlock_eq_ok there here with ⟨padded, back, relative_, both, run, encoded, rfl⟩
  rcases each_padded both with ⟨front, instructions, rfl⟩
  have origin : laid.offset block +
      Block.bodyWidth ⟨frame, (code.instructions.push Instruction.nop).push .nop, wide⟩ =
        startOf graph far block + front.length + 2 := by
    have body := Widening.bodyWidth_pad (rfl : Wide.width Instruction.nop = 1) code wide
    rw [start, length_each instructions, Nat.add_assoc]
    exact congrArg _ body
  rw [origin] at run
  rw [List.flatten_singleton, List.append_assoc]
  exact decodes_segment start areMarks instructions
    (decodes_branch (tiles_padded run encoded (readable _)) (image _ _))

/-- A block whose branch goes to the second of two blocks after it. -/
theorem Written.decodes_split (written : Written graph laid bytes)
    (start : laid.offset block = startOf graph far block)
    (areMarks : ∀ mark ∈ marks, FlowGraph.IsMark graph.labels block mark) {condition : Condition}
    {label target next first : Nat} (labelled : graph.labels[label]? = some target)
    (split : Widening.SplitAt none (alignSwitches graph.blocks)
      (widened (alignSwitches graph.blocks)).blocks block first code condition target next)
    (atFirst : laid.offset first = startOf graph far block + code.bodyWidth + 3)
    (atSecond : laid.offset (first + 1) = startOf graph far block + code.bodyWidth + 6)
    (atNext : laid.offset next = startOf graph far block + code.bodyWidth + 11)
    (each : Pieces laid [block, first, first + 1] pieces) :
    Decodes (placeOf graph laid) (startOf graph far block) pieces.flatten
      (marks ++ code.instructions.toList.map Item.instruction ++
        [.branch (.conditional condition label ())]) := by
  rcases written.sameCode.exists_code split.after with ⟨_, there⟩
  rcases written.sameCode.exists_code split.around with ⟨_, around⟩
  rcases written.sameCode.exists_code split.onward with ⟨_, onward⟩
  rcases List.forall₂_cons_left_iff.1 each with ⟨piece, _, here, rest, rfl⟩
  rcases List.forall₂_cons_left_iff.1 rest with ⟨piece', _, here', rest', rfl⟩
  rcases List.forall₂_cons_left_iff.1 rest' with ⟨piece'', _, here'', none, rfl⟩
  cases none
  rcases encodeBlock_eq_ok there here with ⟨front, back, _, instructions, run, encoded, rfl⟩
  rcases encodeBlock_eq_ok around here' with ⟨nothing, back', _, empty, run', encoded', rfl⟩
  rcases encodeBlock_eq_ok onward here'' with
    ⟨nothing', back'', _, empty', run'', encoded'', rfl⟩
  cases List.length_eq_zero_iff.1 (length_each empty)
  cases List.length_eq_zero_iff.1 (length_each empty')
  have body : startOf graph far block + code.bodyWidth = startOf graph far block + front.length := by
    rw [length_each instructions]
    rfl
  rw [body] at atFirst atSecond atNext
  change relative laid (laid.offset block + code.bodyWidth) _ = _ at run
  rw [start, body] at run
  change relative laid (laid.offset first) _ = _ at run'
  rw [atFirst] at run'
  change relative laid (laid.offset (first + 1)) _ = _ at run''
  rw [atSecond] at run''
  have lengths : back.length = 3 ∧ back'.length = 3 ∧ back''.length = 5 := by
    rw [Branch.length_encode encoded, Branch.length_encode encoded',
      Branch.length_encode encoded'', ← (renamed_of_relative run).width,
      ← (renamed_of_relative run').width, ← (renamed_of_relative run'').width]
    exact ⟨rfl, rfl, rfl⟩
  rcases lengths with ⟨three, three', five⟩
  have onBranch := tiles_relative run encoded trivial
  have onAround : Tiles (startOf graph far block + front.length + back.length) back'
      [(startOf graph far block + front.length + 3, .branch (placed laid (.goto next)))] := by
    rw [three]
    exact tiles_relative run' encoded' trivial
  have onOnward : Tiles (startOf graph far block + front.length + back.length + back'.length) back''
      [(startOf graph far block + front.length + 6, .branch (placed laid (.gotoWide target)))] := by
    rw [three, three']
    exact tiles_relative run'' encoded'' trivial
  have tiles := onBranch.append (onAround.append onOnward)
  simp only [placed, Branch.map, atSecond, atNext] at tiles
  have whole : [front ++ back, [] ++ back', [] ++ back''].flatten =
      front ++ (back ++ (back' ++ back'')) := by
    simp
  rw [whole]
  refine decodes_segment start areMarks instructions (decodes_branch tiles ?_)
  have length : (back ++ (back' ++ back'')).length = 11 := by
    rw [List.length_append, List.length_append, three, three', five]
  rw [length]
  exact .conditional (by rw [placeOf, labelled, Option.map_some])

end

/-- What is written for a block decodes to what was recorded for it. -/
theorem Written.decodes_block (written : Written graph laid bytes)
    (segmented : FlowGraph.Segmented graph items segments) (rewrites : Rewrites graph far parts)
    (filled : ∀ recorded, .branch recorded ∈ items → TablesFilled recorded) {segment : List Item}
    (isSegment : segments[block]? = some segment) {pieces : List Bytes}
    (each : Pieces laid (parts block) pieces) :
    Decodes (placeOf graph laid) (startOf graph far block) pieces.flatten segment := by
  have inside : block < graph.blocks.size :=
    segmented.length_eq ▸ (List.getElem?_eq_some_iff.1 isSegment).1
  rcases exists_aligned inside with ⟨code, found⟩
  rcases aligned_segment segmented found isSegment with ⟨marks, recorded?, spelled, areMarks, ends⟩
  have start := written.offset_block segmented rewrites inside
  have rewritten := rewrites.rewritten block (mem_recordedOrder.2 inside)
  have offset := @written.offset_part _ _ _ _ _ _ _ _ segmented rewrites inside
  have placed : ∀ part ∈ parts block, part ∈ laid.order := by
    intro part member
    rw [written.order_eq, rewrites.order_eq]
    exact List.mem_flatMap.2 ⟨block, mem_recordedOrder.2 inside, member⟩
  have tables : ∀ recorded, recorded? = some recorded → TablesFilled recorded := by
    rintro recorded rfl
    refine filled recorded ?_
    rw [← segmented.whole]
    refine List.mem_flatten_of_mem (List.mem_of_getElem? isSegment) ?_
    rw [spelled]
    simp
  rw [spelled]
  generalize here : parts block = list at rewritten each offset placed
  cases rewritten with
  | @kept code' before after near =>
    cases before.symm.trans found
    exact written.decodes_kept start (placed block List.mem_cons_self) areMarks ends tables after each
  | @goto code' target before branch after widened =>
    cases before.symm.trans found
    rw [branch] at ends
    rcases recorded_goto ends with ⟨label, rfl, labelled⟩
    have readable : ∀ origin, (Branch.gotoWide target : Branch Nat Nat Nat).IsReadable origin :=
      fun _ => trivial
    refine written.decodes_padded start areMarks readable (fun start next => ?_) after each
    exact .goto (by rw [placeOf, labelled, Option.map_some])
  | @jsr code' target next before branch after widened =>
    cases before.symm.trans found
    rw [branch] at ends
    rcases recorded_jsr ends with ⟨label, rfl, labelled⟩
    have readable : ∀ origin, (Branch.jsrWide target next : Branch Nat Nat Nat).IsReadable origin :=
      fun _ => trivial
    refine written.decodes_padded start areMarks readable (fun start next => ?_) after each
    exact .jsr (by rw [placeOf, labelled, Option.map_some])
  | @split code' condition target next first before branch fresh split widened =>
    cases before.symm.trans found
    rw [branch] at ends
    rcases recorded_conditional ends with ⟨label, rfl, labelled⟩
    have width : Layout.blockWidth laid.blocks block = code.bodyWidth + 3 := by
      rw [← written.sameCode.blockWidth_eq]
      exact Widening.blockWidth_of_getElem? split.after
    have aroundWidth : Layout.blockWidth laid.blocks first = 3 := by
      rw [← written.sameCode.blockWidth_eq]
      exact Widening.blockWidth_of_getElem? split.around
    have atFirst := offset [block] rfl split.around
    have atSecond := offset [block, first] rfl split.onward
    simp only [List.map_cons, List.map_nil, List.sum_cons, List.sum_nil, width, aroundWidth]
      at atFirst atSecond
    rcases (plain_aligned segmented).grownStart_next far (mem_recordedOrder.2 inside) found branch
      with ⟨nextPlaced, atNext⟩
    have next := written.offset_block segmented rewrites (mem_recordedOrder.1 nextPlaced)
    rw [startOf, atNext, Widening.grownWidth, if_pos widened,
      Widening.growthOf_of_short found (by rw [branch]; rfl),
      Widening.blockWidth_of_getElem? found, branch] at next
    refine written.decodes_split start areMarks labelled split ?_ ?_ ?_ each
    · rw [atFirst]
      omega
    · rw [atSecond]
      omega
    · rw [next]
      rfl

/-! ## All blocks -/

theorem Written.length_groups (written : Written graph laid bytes)
    (rewrites : Rewrites graph far parts) {blocks : List Nat} {groups : List (List Bytes)}
    (each : List.Forall₂ (fun block group => Pieces laid (parts block) group) blocks groups)
    (inside : ∀ block ∈ blocks, block < graph.blocks.size) :
    (groups.map List.flatten).flatten.length =
      (blocks.map (Widening.grownWidth (alignSwitches graph.blocks) far)).sum := by
  induction each with
  | nil => rfl
  | @cons block group blocks groups here _ ih =>
    have rest := ih fun other member => inside other (List.mem_cons_of_mem _ member)
    have first := written.length_pieces rewrites (inside block List.mem_cons_self) here
    rw [List.map_cons, List.flatten_cons, List.length_append, first, rest, List.map_cons,
      List.sum_cons]

/-- The code decodes to all that was recorded. -/
theorem Written.decodes (written : Written graph laid bytes)
    (segmented : FlowGraph.Segmented graph items segments)
    (filled : ∀ recorded, .branch recorded ∈ items → TablesFilled recorded) :
    Decodes (placeOf graph laid) 0 bytes items := by
  rcases Widening.widen_rewriting (plain_aligned segmented) around_short Instruction.nop none with
    ⟨parts, rewriting⟩
  have rewrites : Rewrites graph _ parts := rewriting
  rcases map_eq_ok.1 written.encoded with ⟨all, encoded, rfl⟩
  have each := mapM_eq_ok.1 encoded
  rw [written.order_eq, rewrites.order_eq] at each
  rcases forall₂_flatMap each with ⟨groups, grouped, rfl⟩
  have length : groups.length = graph.blocks.size := by
    rw [← grouped.length_eq, recordedOrder, List.length_range, size_alignSwitches]
  rw [List.flatten_flatten, ← segmented.whole]
  apply Decodes.flatten
  · rw [List.length_map, length, segmented.length_eq]
  intro index piece segment isPiece isSegment
  rw [List.getElem?_map, Option.map_eq_some_iff] at isPiece
  rcases isPiece with ⟨group, isGroup, rfl⟩
  have inside : index < graph.blocks.size := length ▸ (List.getElem?_eq_some_iff.1 isGroup).1
  have below : index < (alignSwitches graph.blocks).size := by rwa [size_alignSwitches]
  rcases forall₂_getElem? grouped isGroup with ⟨block, isBlock, pieces⟩
  rw [recordedOrder, List.getElem?_range below] at isBlock
  cases isBlock
  have onFront := written.length_groups rewrites (List.forall₂_take index grouped)
    fun other member => mem_recordedOrder.1 (List.mem_of_mem_take member)
  rw [recordedOrder, List.take_range, Nat.min_eq_left (Nat.le_of_lt below),
    ← Layout.startOf_range _ below, List.map_take] at onFront
  rw [Nat.zero_add, onFront]
  exact written.decodes_block segmented rewrites filled isSegment pieces

end Assembly

open Operation

/-- The code of a method whose frames are recorded decodes to the images of what
was recorded, if no table of it is empty.  Operations and code fit together
without a gap, and every label is placed where it was recorded. -/
theorem MethodBody.decode_assemble {body : MethodBody} {method : MethodContext}
    {mode : ComputeMode} {wantsFrames : Bool} {before after : Assembler.State} {image : CodeImage}
    (recorded : mode.computesFrames = false)
    (filled : ∀ padding otherwise low targets,
      .branch (.tableSwitch padding otherwise low targets) ∈ body.items → targets ≠ [])
    (run : (body.assemble method mode wantsFrames).run before = (.ok image, after)) :
    ∃ place operations, Operation.decode image.bytes = .ok operations ∧
      Tiles 0 image.bytes operations ∧
      Images place image.bytes.length body.items operations ∧
      ∀ label offset, place label = some offset → .label label ∈ body.items := by
  rcases written_of_assemble recorded run with ⟨graph, laid, built, written, -⟩
  rcases FlowGraph.segmented_of_ofItems built with ⟨segments, segmented⟩
  have tables : ∀ recorded, .branch recorded ∈ body.items → Assembly.TablesFilled recorded := by
    rintro _ member padding otherwise low targets rfl
    exact filled padding otherwise low targets member
  rcases written.decodes segmented tables with ⟨operations, tiles, images⟩
  rw [Nat.zero_add] at images
  refine ⟨_, operations, tiles.decode_eq, tiles, images, fun label offset placed => ?_⟩
  rcases Option.map_eq_some_iff.1 placed with ⟨block, known, -⟩
  exact segmented.placed label block known

/-! ## A loop by a switch -/

/-- A switch that jumps back to the start. -/
def switching : MethodBody :=
  ⟨[.label 0, .instruction .nop, .branch (.tableSwitch 0 0 (.ofNat 5) [0])], [], none⟩

def switchingMethod : MethodContext := ⟨"Loop", "run", ⟨[], none⟩, true⟩

def switchingGraph : FlowGraph :=
  ⟨#[⟨none, #[.nop], .tableSwitch 0 0 (.ofNat 5) [0]⟩, ⟨none, #[], .stop⟩], [],
    (∅ : Std.HashMap Nat Nat).insert 0 0⟩

def switchingBlocks : Array CodeBlock :=
  #[⟨none, #[.nop], .tableSwitch 2 0 (.ofNat 5) [0]⟩, ⟨none, #[], .stop⟩]

def switchingImage : CodeImage where
  limits := ⟨0, 0⟩
  bytes := [0x00, 0xAA, 0, 0, 0xFF, 0xFF, 0xFF, 0xFF, 0, 0, 0, 5, 0, 0, 0, 5, 0xFF, 0xFF, 0xFF, 0xFF]
  exceptions := []
  attributes := []

theorem switching_built :
    FlowGraph.ofItems switching.items [] true = .ok switchingGraph := by
  have first : FlowGraph.Drafts.add true .empty (.label 0) =
      .ok ⟨#[], (∅ : Std.HashMap Nat Nat).insert 0 0, .empty⟩ :=
    if_neg Std.HashMap.not_mem_empty
  have drafts : FlowGraph.Drafts.ofItems true switching.items =
      .ok ⟨#[⟨none, #[.nop], some (.tableSwitch 0 0 (.ofNat 5) [0])⟩, .empty],
        (∅ : Std.HashMap Nat Nat).insert 0 0, .empty⟩ := by
    unfold FlowGraph.Drafts.ofItems switching
    rw [List.foldlM_cons, first]
    rfl
  have resolved : FlowGraph.resolve ((∅ : Std.HashMap Nat Nat).insert 0 0) 0 = .ok 0 :=
    FlowGraph.resolve_eq_ok.2 Std.HashMap.getElem?_insert_self
  have branch : (Branch.tableSwitch 0 0 (.ofNat 5) [0] : Branch Nat Nat Unit).mapM
      (FlowGraph.resolve ((∅ : Std.HashMap Nat Nat).insert 0 0))
      (FlowGraph.resolve ((∅ : Std.HashMap Nat Nat).insert 0 0)) (fun _ => return 1) =
        .ok (.tableSwitch 0 0 (.ofNat 5) [0]) := by
    rw [Branch.mapM, resolved, mapM_eq_ok.2 (.cons resolved .nil)]
    rfl
  refine bind_eq_ok.2 ⟨_, drafts, bind_eq_ok.2 ⟨switchingGraph.blocks.toList, ?_, rfl⟩⟩
  exact mapM_eq_ok.2 (.cons (bind_eq_ok.2 ⟨_, branch, rfl⟩) (.cons rfl .nil))

theorem switching_widened :
    Assembly.widened switchingBlocks = ⟨switchingBlocks, [0, 1], 0⟩ :=
  Assembly.widened_eq_self rfl

theorem switching_run (before : Assembler.State) :
    (switching.assemble switchingMethod .nothing false).run before =
      (.ok switchingImage, before) := by
  have aligned : Assembly.alignSwitches switchingGraph.blocks = switchingBlocks := by
    decide +kernel
  have short : Layout.length switchingBlocks [0, 1] < 65536 := by decide +kernel
  have encoded : Encoding.each (Assembly.encodeBlock ⟨switchingBlocks, [0, 1],
      Layout.offsets switchingBlocks [0, 1], switchingBlocks.map fun _ => false⟩) [0, 1] =
        .ok switchingImage.bytes := by
    decide +kernel
  rw [MethodBody.run_assemble_unframed rfl switching_built rfl (by decide +kernel), aligned,
    switching_widened, Assembly.recordedLayout_eq aligned switching_widened]
  exact Assembly.run_writeOut_unmapped short encoded before

/-- The switch keeps its place and is read back with the padding that it got. -/
theorem decode_assemble_switching :
    ∃ place operations, Operation.decode switchingImage.bytes = .ok operations ∧
      Tiles 0 switchingImage.bytes operations ∧
      Images place switchingImage.bytes.length switching.items operations ∧
      ∀ label offset, place label = some offset → .label label ∈ switching.items := by
  refine MethodBody.decode_assemble (rfl : ComputeMode.nothing.computesFrames = false) ?_
    (switching_run ⟨.empty, .ofGraph .standard []⟩)
  intro padding otherwise low targets member
  simp only [switching, List.mem_cons, reduceCtorEq, List.not_mem_nil, or_false, false_or,
    Item.branch.injEq, Branch.tableSwitch.injEq] at member
  rw [member.2.2.2]
  exact List.cons_ne_nil 0 []

end ClassFile
