import ClassFile.Proofs.Code.Decoding
import ClassFile.Proofs.Code.Exceptions

namespace ClassFile

/-!
# Reading assembled code back

The decoder asks of a table that its last key is not less than its first one.  When
code is written nobody asks that, and a table without targets gets a last key one
below the first.  It is the only operation with which code is not read back: in every
mode assembled code is a row of operations, and it decodes to that row unless one of
them is such a table, where decoding stops at the first one.
-/

namespace Operation

variable {start : Nat} {bytes : Bytes} {operation : Operation}
  {operations : List (Nat × Operation)}

theorem rejects_own {opcode : UInt8} {fault : Fault} (own : opcode ∈ ownOpcodes)
    (operands : Rejects (readOwn start opcode) (start + 1) bytes fault) :
    Rejects read start (opcode :: bytes) fault := by
  rcases own_unlisted opcode own with ⟨unlisted, straight⟩
  simp only [isListed, isBranching, Bool.or_eq_false_iff, Option.isSome_eq_false_iff,
    Option.isNone_iff_eq_none] at unlisted straight
  rcases unlisted with ⟨⟨fresh, unslotted⟩, unpooled⟩
  rcases straight with ⟨⟨alone, short⟩, wide⟩
  change Rejects read start ([] ++ opcode :: bytes) fault
  apply Rejects.bind_of_reads Reads.position
  apply Rejects.bind_of_reads (Reads.u1 opcode)
  rw [Instruction.ofOpcode_eq_findPlain, fresh, unslotted, unpooled]
  change Rejects (readBranch start opcode) _ _ _
  rw [readBranch, alone, short, wide]
  exact operands

/-- The last key that is written for a table without targets is below the first one. -/
theorem rejects_emptyTable {otherwise low high : Int32} {default_ : Nat} {rest : Bytes}
    (leads : Branch.Leads start otherwise.toInt default_)
    (last : Branch.lastKey low 0 = .ok high) :
    Rejects read start
      (0xAA :: (List.replicate (Branch.paddingAt start) 0 ++ Encoding.s4 otherwise ++
        Encoding.s4 low ++ Encoding.s4 high ++ rest)) (.malformed (.emptyTable start)) := by
  have less : high < low := by
    have key := Branch.lastKey_eq last
    rw [Int32.lt_iff_toInt_lt]
    omega
  apply rejects_own (by decide)
  change Rejects (readTableSwitch start) _ _ _
  simp only [List.append_assoc]
  apply Rejects.bind_of_reads (Branch.reads_padding start _)
  apply Rejects.bind_of_reads (Branch.reads_wideTarget leads _)
  apply Rejects.bind_of_reads (Reads.s4 low)
  apply Rejects.bind_of_reads (Reads.s4 high)
  rw [if_pos less]
  exact (Rejects.fail _).bind

theorem Encodes.rejects {piece : Bytes} (here : operation.Encodes start piece)
    (empty : operation.IsEmptyTable) :
    Rejects read start piece (.malformed (.emptyTable start)) := by
  rcases empty with ⟨padding, otherwise, low, rfl⟩
  cases here with
  | branch visible padded leads written =>
    cases leads with
    | tableSwitch _ _ default_ taken =>
      cases taken
      rcases bind_eq_ok.1 written with ⟨operands, found, same⟩
      rcases bind_eq_ok.1 found with ⟨high, last, operands_⟩
      cases pure_eq_ok.1 operands_
      cases pure_eq_ok.1 same
      cases (Branch.tableSwitch.inj padded).1
      exact rejects_emptyTable default_ last

/-! ## Rows -/

theorem readOnto_of_rejects {already : Array (Nat × Operation)} {cursor : Cursor} {fault : Fault}
    (fuel : Nat) (more : cursor.atEnd = false) (run : read.run cursor = .error fault) :
    (readOnto already (fuel + 1)).run cursor = .error fault := by
  rw [Tiles.readOnto_more fuel more, run]
  rfl

/-- Reading goes on until the first table without targets. -/
theorem Emits.readOnto_fails (emits : Emits start bytes operations) (short : bytes.length < 65536)
    (empty : ∃ entry ∈ operations, entry.2.IsEmptyTable) (already : Array (Nat × Operation))
    {fuel : Nat} (enough : bytes.length ≤ fuel) {cursor : Cursor} (standing : cursor.At start bytes) :
    ∃ first ∈ operations, first.2.IsEmptyTable ∧
      (readOnto already fuel).run cursor = .error (.malformed (.emptyTable first.1)) := by
  induction emits generalizing already fuel cursor with
  | nil start =>
    rcases empty with ⟨entry, member, -⟩
    cases member
  | @cons start piece rest operation operations here _ ih =>
    have some_ := List.length_pos_iff.2 here.ne_nil
    rw [List.length_append] at short enough
    have more : cursor.atEnd = false := by
      rw [standing.atEnd_eq, List.isEmpty_eq_false_iff]
      exact List.append_ne_nil_of_left_ne_nil here.ne_nil rest
    have split : fuel = (fuel - 1) + 1 := by omega
    have fewer : rest.length ≤ fuel - 1 := by omega
    rw [split]
    by_cases isEmpty : operation.IsEmptyTable
    · refine ⟨_, List.mem_cons_self, isEmpty, ?_⟩
      exact readOnto_of_rejects _ more (here.rejects isEmpty cursor rest standing)
    · have later : ∃ entry ∈ operations, entry.2.IsEmptyTable := by
        rcases empty with ⟨entry, member, isTable⟩
        rcases List.mem_cons.1 member with rfl | member
        · exact absurd isTable isEmpty
        · exact ⟨entry, member, isTable⟩
      rcases here.reads (by omega) isEmpty cursor rest standing with ⟨middle, run, there⟩
      rw [Tiles.readOnto_step _ more run, standing.position_eq]
      rcases ih (by omega) later (already.push (start, operation)) fewer there with
        ⟨first, member, isFirst, fails⟩
      exact ⟨first, List.mem_cons_of_mem _ member, isFirst, fails⟩

/-- What decoding makes of a row of operations. -/
structure ReadBack (code : Bytes) (operations : List (Nat × Operation)) : Prop where
  emits : Emits 0 code operations
  accepted : (∀ entry ∈ operations, ¬entry.2.IsEmptyTable) → decode code = .ok operations
  rejected : (∃ entry ∈ operations, entry.2.IsEmptyTable) →
    ∃ first ∈ operations, first.2.IsEmptyTable ∧
      decode code = .error (.malformed (.emptyTable first.1))

theorem Emits.readBack (emits : Emits 0 bytes operations) (short : bytes.length < 65536) :
    ReadBack bytes operations := by
  constructor
  case emits => exact emits
  case accepted =>
    intro filled
    apply Tiles.decode_eq
    apply emits.tiles short
    rintro place padding otherwise low _ member rfl
    exact filled _ member ⟨padding, otherwise, low, rfl⟩
  case rejected =>
    intro empty
    rcases emits.readOnto_fails short empty #[] (Nat.le_refl _) (Cursor.at_ofBytes bytes) with
      ⟨first, member, isFirst, fails⟩
    refine ⟨first, member, isFirst, ?_⟩
    rw [decode, Reader.runOn, fails]
    rfl

end Operation

/-! ## Tables -/

namespace Branch

/-- A table has targets. -/
def IsFilled {σ ω ν : Type} : Branch σ ω ν → Prop
  | tableSwitch _ _ _ targets => targets ≠ []
  | _ => True

section

variable {σ ω ν σ' ω' ν' : Type}

theorem Renamed.isFilled {short : σ → σ' → Prop} {wide : ω → ω' → Prop} {next : ν → ν' → Prop}
    {branch : Branch σ ω ν} {renamed : Branch σ' ω' ν'}
    (same : Renamed short wide next branch renamed) (filled : branch.IsFilled) :
    renamed.IsFilled := by
  cases same with
  | tableSwitch padding low default_ taken =>
    rw [IsFilled, ← List.length_pos_iff, ← taken.length_eq]
    exact List.length_pos_iff.2 filled
  | _ => trivial

theorem isFilled_withPadding {branch : Branch σ ω ν} (filled : branch.IsFilled) (padding : Nat) :
    (branch.withPadding padding).IsFilled := by
  cases branch with
  | tableSwitch => exact filled
  | _ => trivial

theorem isFilled_of_unpadded {branch : Branch σ ω ν} (unpadded : branch.padding? = none) :
    branch.IsFilled := by
  cases branch with
  | tableSwitch => cases unpadded
  | _ => trivial

end

end Branch

/-- The tables of a layout have targets. -/
def LaidCode.Filled (laid : LaidCode) : Prop :=
  ∀ block ∈ laid.order, ∀ code, laid.blocks[block]? = some code → code.branch.IsFilled

theorem LaidCode.Filled.operations {laid : LaidCode} (filled : laid.Filled) :
    ∀ entry ∈ laid.operations, ¬entry.2.IsEmptyTable := by
  rintro ⟨start, _⟩ member ⟨padding, otherwise, low, rfl⟩
  rcases LaidCode.mem_operations.1 member with ⟨block, isPlaced, code, there, -, -, same⟩
  have renamed := Branch.renamed_map laid.offset laid.offset (fun _ => ()) code.branch
  have here : (Assembly.placed laid code.branch).IsFilled :=
    renamed.isFilled (filled block isPlaced code there)
  rw [← same] at here
  exact here rfl

theorem FlowGraph.Segmented.isFilled {graph : FlowGraph} {items : List Item}
    {segments : List (List Item)} (segmented : Segmented graph items segments)
    (filled : ∀ recorded, .branch recorded ∈ items → recorded.IsFilled) {block : Nat}
    {code : CodeBlock} (found : graph.blocks[block]? = some code) : code.branch.IsFilled := by
  have inside : block < segments.length := by
    rw [segmented.length_eq]
    exact (Array.getElem?_eq_some_iff.1 found).1
  have there := List.getElem?_eq_getElem inside
  rcases segmented.each block code _ found there with ⟨marks, branch?, spelled, -, ends⟩
  cases isBranch : code.branch with
  | tableSwitch =>
    rw [isBranch] at ends
    cases ends with
    | recorded _ renamed =>
      refine renamed.isFilled (filled _ ?_)
      rw [← segmented.whole, List.mem_flatten]
      refine ⟨_, List.getElem_mem inside, ?_⟩
      rw [spelled]
      exact List.mem_append_right _ List.mem_cons_self
  | _ => trivial

namespace Assembly

variable {graph : FlowGraph} {laid : LaidCode} {bytes : Bytes} {items : List Item}
  {segments : List (List Item)}

/-- The switches among recorded blocks are those of the graph, padded where they stand. -/
theorem Written.switches (written : Written graph laid bytes)
    (segmented : FlowGraph.Segmented graph items segments) {part : Nat} {code : CodeBlock}
    (isPlaced : part ∈ laid.order) (there : laid.blocks[part]? = some code) :
    code.branch.padding? = none ∨ ∃ original, graph.blocks[part]? = some original ∧
      code.branch = original.branch.withPadding
        (Branch.paddingAt (laid.offset part + code.bodyWidth)) := by
  obtain ⟨far, parts, rewrites⟩ : ∃ far parts, Rewrites graph far parts :=
    ⟨_, Widening.widen_rewriting (plain_aligned segmented) around_short .nop none⟩
  rw [written.order_eq, rewrites.order_eq] at isPlaced
  rcases List.mem_flatMap.1 isPlaced with ⟨block, isBlock, member⟩
  have back : SameCode laid.blocks (widened (alignSwitches graph.blocks)).blocks :=
    fun other => (written.sameCode other).symm
  rcases back.exists_code there with ⟨frame, found⟩
  rcases unpadded_of_rewritten (rewrites.rewritten block isBlock) member found with
    ⟨rfl, aligned⟩ | unpadded
  · rcases alignSwitches_getElem? _ aligned with ⟨original, recorded, same⟩
    refine .inr ⟨original, recorded, ?_⟩
    have inside := mem_recordedOrder.1 isBlock
    have instructions : code.instructions = original.instructions := (Block.mk.inj same).2.1
    have bodies : code.bodyWidth = original.bodyWidth := by
      rw [Block.bodyWidth, instructions, Block.bodyWidth]
    rw [written.offset_block segmented rewrites inside, paddingAt_origin, branchOffset, bodies]
    exact (Block.mk.inj same).2.2
  · exact .inl unpadded

theorem padded_of_written (written : Written graph laid bytes)
    (segmented : FlowGraph.Segmented graph items segments) : laid.Padded := by
  intro part isPlaced code there
  rcases written.switches segmented isPlaced there with unpadded | ⟨original, -, same⟩
  · exact withPadding_of_unpadded unpadded _
  · rw [same]
    cases original.branch <;> rfl

theorem filled_of_written (written : Written graph laid bytes)
    (segmented : FlowGraph.Segmented graph items segments)
    (filled : ∀ recorded, .branch recorded ∈ items → recorded.IsFilled) : laid.Filled := by
  intro part isPlaced code there
  rcases written.switches segmented isPlaced there with unpadded | ⟨original, recorded, same⟩
  · exact Branch.isFilled_of_unpadded unpadded
  · rw [same]
    exact Branch.isFilled_withPadding (segmented.isFilled filled recorded) _

theorem filled_of_laid {frames : Array (Option BlockFrame)} {far : Finset Nat}
    {parts : Nat → List Nat} (laidOut : Laid graph frames laid far parts)
    (segmented : FlowGraph.Segmented graph items segments)
    (filled : ∀ recorded, .branch recorded ∈ items → recorded.IsFilled) : laid.Filled := by
  intro part isPlaced code there
  rw [laidOut.order_eq] at isPlaced
  rcases List.mem_flatMap.1 isPlaced with ⟨block, isBlock, member⟩
  have inside := List.mem_range.1 isBlock
  rcases unpadded_of_rewritten (laidOut.rewritten block inside) member there with
    ⟨rfl, isLive⟩ | unpadded
  · cases lives_of_live isLive with
    | reached padding recorded =>
      exact Branch.isFilled_withPadding (segmented.isFilled filled recorded) padding
    | empty recorded missing branch =>
      rw [branch]
      exact segmented.isFilled filled recorded
    | buried => trivial
  · exact Branch.isFilled_of_unpadded unpadded

theorem readBack_of_each (starts : ∀ start ∈ Layout.starts laid.blocks laid.order,
      laid.offset start.1 = start.2) (padded : laid.Padded)
    (encoded : Encoding.each (encodeBlock laid) laid.order = .ok bytes)
    (short : Layout.length laid.blocks laid.order < 65536) :
    Operation.ReadBack bytes laid.operations := by
  have length : bytes.length = Layout.length laid.blocks laid.order := by
    rcases Encoding.each_eq_ok.1 encoded with ⟨pieces, each, same⟩
    rw [← same, Pieces.length_flatten each, Layout.length_eq_sum]
  have emits : Operation.Emits 0 bytes laid.operations :=
    LaidCode.emits_flatMap starts padded encoded
  exact emits.readBack (length ▸ short)

end Assembly

open Assembly

/-- Whatever is computed, the switches that are laid out are padded, and a table among them
is only empty where one was recorded. -/
theorem MethodBody.switches_of_layOut {body : MethodBody} {method : MethodContext}
    {mode : ComputeMode} {before between after : Assembler.State} {laidOut : LaidMethod}
    {placed : List (Nat × BlockFrame)} {image : CodeImage}
    (run : (body.layOut method mode).run before = (.ok laidOut, between))
    (written : WrittenOut method laidOut.limits laidOut.laid laidOut.graph.handlers placed image after) :
    laidOut.laid.Padded ∧
      ((∀ recorded, .branch recorded ∈ body.items → recorded.IsFilled) → laidOut.laid.Filled) := by
  cases computes : mode.computesFrames with
  | false =>
    rcases recorded_of_layOut computes run with ⟨others, built, -, added, same⟩
    rcases FlowGraph.segmented_of_ofItems built with ⟨segments, segmented⟩
    have sameCode := sameCode_of_recordedBlocks added
    rw [same] at written ⊢
    have isWritten : Written laidOut.graph (recordedLayout laidOut.graph.blocks others) image.bytes :=
      ⟨sameCode, rfl, rfl, written.short, written.encoded⟩
    exact ⟨padded_of_written isWritten segmented, filled_of_written isWritten segmented⟩
  | true =>
    rcases computed_of_layOut computes run with ⟨limits, frames, built, -, infer, same⟩
    rcases FlowGraph.segmented_of_ofItems built with ⟨segments, segmented⟩
    rcases laid_computedLayout (inferred_of_run built infer) with ⟨far, parts, isLaid⟩
    rw [← show laidOut.laid = computedLayout laidOut.graph.blocks frames from
      congrArg LaidMethod.laid same] at isLaid
    exact ⟨isLaid.padded, filled_of_laid isLaid segmented⟩

/-- Whatever is computed, code as it is laid out is a row of operations that is read back
unless a table in it is empty, which only happens where one was recorded. -/
theorem MethodBody.readBack_of_assemble {body : MethodBody} {method : MethodContext}
    {mode : ComputeMode} {wantsFrames : Bool} {before after : Assembler.State} {image : CodeImage}
    (run : (body.assemble method mode wantsFrames).run before = (.ok image, after)) :
    ∃ laidOut between,
      (body.layOut method mode).run before = (.ok laidOut, between) ∧
        Arranged mode laidOut.graph laidOut.laid image.bytes ∧
        Operation.ReadBack image.bytes laidOut.laid.operations ∧
        ((∀ recorded, .branch recorded ∈ body.items → recorded.IsFilled) → laidOut.laid.Filled) := by
  rcases layOut_of_assemble run with ⟨laidOut, between, laid, run⟩
  have written := writtenOut_of_run run
  have arranged := (arranged_of_layOut laid written).2
  rcases switches_of_layOut laid written with ⟨padded, filled⟩
  have back := readBack_of_each arranged.starts padded written.encoded written.short
  exact ⟨laidOut, between, laid, arranged, back, filled⟩

/-- Assembled code decodes in every mode if no empty table was recorded. -/
theorem MethodBody.decodes_of_filled {body : MethodBody} {method : MethodContext}
    {mode : ComputeMode} {wantsFrames : Bool} {before after : Assembler.State} {image : CodeImage}
    (filled : ∀ recorded, .branch recorded ∈ body.items → recorded.IsFilled)
    (run : (body.assemble method mode wantsFrames).run before = (.ok image, after)) :
    ∃ operations, Operation.decode image.bytes = .ok operations := by
  rcases readBack_of_assemble run with ⟨laidOut, between, -, -, back, all⟩
  exact ⟨laidOut.laid.operations, back.accepted (all filled).operations⟩

/-- What is written for an empty table behind another instruction is not read. -/
example : (Branch.tableSwitch 2 (-1) 0 [] : Branch Int16 Int32 Unit).encode =
      .ok [0xAA, 0, 0, 0xFF, 0xFF, 0xFF, 0xFF, 0, 0, 0, 0, 0xFF, 0xFF, 0xFF, 0xFF] ∧
    Operation.decode
        [0x03, 0xAA, 0, 0, 0xFF, 0xFF, 0xFF, 0xFF, 0, 0, 0, 0, 0xFF, 0xFF, 0xFF, 0xFF] =
      .error (.malformed (.emptyTable 1)) := by
  decide +kernel

end ClassFile
