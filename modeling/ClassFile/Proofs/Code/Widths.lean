import ClassFile.Proofs.Code.Overflow

namespace ClassFile

/-!
# Widths and bytes

How wide an instruction, a branch or a block is gets computed from what it is, and where
blocks start from their widths, all before a byte is written.  What is then written is as
long as it was said to be, so that the blocks of a method stand at the offsets that every
jump, handler and frame was made from.
-/

namespace Assembly

variable {laid : LaidCode} {bytes : Bytes} {front back : List Nat} {block : Nat}

/-- The bytes of a block stand in the code at its offset. -/
def StandsIn (laid : LaidCode) (block : Nat) (bytes : Bytes) : Prop :=
  ∃ before piece after, encodeBlock laid block = .ok piece ∧ bytes = before ++ (piece ++ after) ∧
    laid.offsets[block]? = some before.length

theorem length_each_encodeBlock {order : List Nat}
    (encoded : Encoding.each (encodeBlock laid) order = .ok bytes) :
    bytes.length = (order.map (Layout.blockWidth laid.blocks)).sum := by
  obtain ⟨pieces, each, rfl⟩ := Encoding.each_eq_ok.1 encoded
  exact Pieces.length_flatten each

/-- A block stands where it was placed last, in whatever order the blocks are written. -/
theorem standsIn_of_last (offsets : laid.offsets = Layout.offsets laid.blocks laid.order)
    (encoded : Encoding.each (encodeBlock laid) laid.order = .ok bytes)
    (split : laid.order = front ++ block :: back) (last : block ∉ back)
    (inside : block < laid.blocks.size) : StandsIn laid block bytes := by
  rw [split] at encoded
  obtain ⟨before, rest, isFront, isRest, rfl⟩ := Encoding.each_append_eq_ok.1 encoded
  obtain ⟨piece, after, isPiece, -, rfl⟩ := Encoding.each_cons_eq_ok.1 isRest
  refine ⟨before, piece, after, isPiece, rfl, ?_⟩
  rw [offsets, split, Layout.offsets_append_cons last inside, length_each_encodeBlock isFront]

/-! ## Assembled code -/

section

variable {blocks : Array CodeBlock}

/-- Every block has one place in the code. -/
theorem LaidWide.placed_once (wide : LaidWide blocks laid) :
    laid.order.Nodup ∧ ∀ block, block ∈ laid.order ↔ block < laid.blocks.size := by
  obtain ⟨parts, rewriting⟩ := Widening.widen_rewriting wide.plain around_short Instruction.nop none
  have order := wide.order_eq
  have size := wide.sameCode.size_eq
  refine ⟨order ▸ rewriting.distinct, fun block => ⟨fun placed => ?_, fun inside => ?_⟩⟩
  · rw [order, widened, rewriting.order_eq] at placed
    obtain ⟨recorded, isRecorded, member⟩ := List.mem_flatMap.1 placed
    exact size ▸ (rewriting.rewritten recorded isRecorded).inside member
  · rw [order]
    rw [← size] at inside
    exact widened_covers blocks block inside

theorem LaidWide.standsIn (wide : LaidWide blocks laid)
    (encoded : Encoding.each (encodeBlock laid) laid.order = .ok bytes)
    (inside : block < laid.blocks.size) : StandsIn laid block bytes := by
  obtain ⟨once, placed⟩ := wide.placed_once
  obtain ⟨front, back, split⟩ := List.append_of_mem ((placed block).2 inside)
  rw [split] at once
  exact standsIn_of_last wide.offsets_eq encoded split (List.nodup_cons.1 once.of_append_right).1
    inside

end

end Assembly

open Assembly

/-- Assembled code has its blocks where they were laid out. -/
theorem MethodBody.standsIn_of_assemble {body : MethodBody} {method : MethodContext}
    {mode : ComputeMode} {wantsFrames : Bool} {before after : Assembler.State} {image : CodeImage}
    (run : (body.assemble method mode wantsFrames).run before = (.ok image, after)) :
    ∃ laidOut between, (body.layOut method mode).run before = (.ok laidOut, between) ∧
      laidOut.laid.offsets = Layout.offsets laidOut.laid.blocks laidOut.laid.order ∧
      ∀ block < laidOut.laid.blocks.size, StandsIn laidOut.laid block image.bytes := by
  obtain ⟨laidOut, between, laid, run⟩ := layOut_of_assemble run
  obtain ⟨blocks, wide⟩ := laidWide_of_layOut laid
  refine ⟨laidOut, between, laid, wide.offsets_eq, fun block inside => ?_⟩
  exact wide.standsIn (writtenOut_of_run run).encoded inside

/-- Widths are lengths: of what is written for an instruction, for a branch with whatever
padding, and for a block.  In whatever order blocks are written, and so in every assembled
method, a block stands at the offset that was computed for it. -/
theorem Assembly.lengths_are_widths :
    (∀ (instruction : Instruction) (bytes : Bytes), instruction.encode = .ok bytes →
      bytes.length = instruction.width) ∧
    (∀ (branch : Branch Int16 Int32 Unit) (bytes : Bytes), branch.encode = .ok bytes →
      bytes.length = branch.width) ∧
    (∀ (laid : LaidCode) (block : Nat) (code : CodeBlock) (piece : Bytes),
      laid.blocks[block]? = some code → encodeBlock laid block = .ok piece →
        piece.length = code.width) ∧
    (∀ (laid : LaidCode) (bytes : Bytes),
      laid.offsets = Layout.offsets laid.blocks laid.order →
      Encoding.each (encodeBlock laid) laid.order = .ok bytes →
      ∀ front block back, laid.order = front ++ block :: back → block ∉ back →
        block < laid.blocks.size → StandsIn laid block bytes) ∧
    (∀ (body : MethodBody) (method : MethodContext) (mode : ComputeMode) (wantsFrames : Bool)
      (before after : Assembler.State) (image : CodeImage),
      (body.assemble method mode wantsFrames).run before = (.ok image, after) →
      ∃ laidOut between, (body.layOut method mode).run before = (.ok laidOut, between) ∧
        laidOut.laid.offsets = Layout.offsets laidOut.laid.blocks laidOut.laid.order ∧
        ∀ block < laidOut.laid.blocks.size, StandsIn laidOut.laid block image.bytes) := by
  refine ⟨?instructions, ?branches, ?blocks, ?layouts, ?assembled⟩
  case instructions => exact fun _ _ written => Instruction.length_encode written
  case branches => exact fun _ _ written => Branch.length_encode written
  case blocks =>
    intro laid block code piece there written
    rw [length_encodeBlock written, Layout.blockWidth, there]
  case layouts =>
    exact fun _ _ offsets encoded _ _ _ split last inside =>
      standsIn_of_last offsets encoded split last inside
  case assembled => exact fun _ _ _ _ _ _ _ run => MethodBody.standsIn_of_assemble run

namespace Assembly

/-- Two blocks that lead to each other, the second of which is written first. -/
def swapped : LaidCode where
  blocks := #[⟨none, #[.increment 1 500], .goto 1⟩, ⟨none, #[.nop], .goto 0⟩]
  order := [1, 0]
  offsets := #[4, 0]
  dead := #[]

def swappedBytes : Bytes :=
  [0x00, 0xA7, 0, 3, 0xC4, 0x84, 0, 1, 1, 0xF4, 0xA7, 0xFF, 0xF6]

/-- An increment that is wide for its amount, a padded table, two blocks in another order than
that of their numbers, and a method in which a block was replaced. -/
theorem lengths_are_widths_swapped :
    (Instruction.increment 1 500).encode = .ok [0xC4, 0x84, 0, 1, 1, 0xF4] ∧
    (Instruction.increment 1 500).width = 6 ∧
    (Branch.tableSwitch 2 20 1 [10, 12] : Branch Int16 Int32 Unit).encode =
      .ok [0xAA, 0, 0, 0, 0, 0, 20, 0, 0, 0, 1, 0, 0, 0, 2, 0, 0, 0, 10, 0, 0, 0, 12] ∧
    (Branch.tableSwitch 2 20 1 [10, 12] : Branch Int16 Int32 Unit).width = 23 ∧
    encodeBlock swapped 1 = .ok [0x00, 0xA7, 0, 3] ∧
    (⟨none, #[.nop], .goto 0⟩ : CodeBlock).width = 4 ∧
    StandsIn swapped 0 swappedBytes ∧
    ∃ laidOut between,
      (severed.layOut severedMethod .frames).run ⟨.empty, .ofGraph .empty []⟩ =
        (.ok laidOut, between) ∧
      laidOut.laid.offsets = Layout.offsets laidOut.laid.blocks laidOut.laid.order ∧
      ∀ block < laidOut.laid.blocks.size,
        StandsIn laidOut.laid block [0xB1, 0x00, 0xBF, 0x57, 0xB1] := by
  have increment : (Instruction.increment 1 500).encode = .ok [0xC4, 0x84, 0, 1, 1, 0xF4] := rfl
  have table : (Branch.tableSwitch 2 20 1 [10, 12] : Branch Int16 Int32 Unit).encode =
      .ok [0xAA, 0, 0, 0, 0, 0, 20, 0, 0, 0, 1, 0, 0, 0, 2, 0, 0, 0, 10, 0, 0, 0, 12] := rfl
  have second : encodeBlock swapped 1 = .ok [0x00, 0xA7, 0, 3] := rfl
  have whole : Encoding.each (encodeBlock swapped) swapped.order = .ok swappedBytes := rfl
  obtain ⟨instructions, branches, blocks, layouts, assembled⟩ := lengths_are_widths
  refine ⟨increment, (instructions _ _ increment).symm, table, (branches _ _ table).symm, second,
    (blocks swapped 1 _ _ rfl second).symm, ?_, ?_⟩
  · exact layouts swapped swappedBytes rfl whole [1] 0 [] rfl List.not_mem_nil (by decide)
  · exact assembled _ _ _ _ _ _ _ (severed_run ⟨.empty, .ofGraph .empty []⟩ .empty rfl)

end Assembly
end ClassFile
