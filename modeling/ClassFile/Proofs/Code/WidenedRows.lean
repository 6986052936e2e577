import ClassFile.Proofs.Code.Laying
import ClassFile.Proofs.Code.RowHalving

namespace ClassFile

/-!
# Rows of widened code

The rows of a widened layout follow from the blocks before it was widened, from where they
start in the end and from which branches are widened.  A widened branch takes one row or
three, all of which can be told from the row of its block.
-/

open Assembly Widening

/-- Only the numbers of the blocks that a branch leads to count. -/
theorem Branch.renumber_congr {number number' : Nat → Nat} {branch : Branch Nat Nat Nat}
    (same : ∀ target ∈ branch.targets ++ branch.next?.toList, number target = number' target) :
    branch.renumber number = branch.renumber number' := by
  cases branch with
  | tableSwitch padding otherwise low targets =>
    have first := same otherwise (by simp [Branch.targets])
    have others : targets.map number = targets.map number' :=
      List.map_congr_left fun target member => same target (by simp [Branch.targets, member])
    rw [Branch.renumber, Branch.renumber, Branch.map, Branch.map, first, others]
  | lookupSwitch padding otherwise targets =>
    have first := same otherwise (by simp [Branch.targets])
    have others : targets.map (fun pair => (pair.1, number pair.2)) =
        targets.map fun pair => (pair.1, number' pair.2) := by
      refine List.map_congr_left fun pair member => ?_
      have inside : pair.2 ∈ targets.map Prod.snd := List.mem_map_of_mem member
      rw [same pair.2 (List.mem_append_left _ (List.mem_cons_of_mem _ inside))]
    rw [Branch.renumber, Branch.renumber, Branch.map, Branch.map, first, others]
  | conditional condition target next | jsr target next | jsrWide target next =>
    have taken := same target (by simp [Branch.targets])
    have after := same next (by simp [Branch.next?])
    rw [Branch.renumber, Branch.renumber, Branch.map, Branch.map, taken, after]
  | goto target => exact congrArg _ (same target (by simp [Branch.targets]))
  | gotoWide target => exact congrArg _ (same target (by simp [Branch.targets]))
  | fallThrough next => exact congrArg _ (same next (by simp [Branch.next?]))
  | ret | returns | throws | stop => rfl

/-! ## Widening a row -/

namespace Row

/-- The rows in place of one whose branch is widened.  A split branch goes on to its target
by the last of them, which has the frame of the target. -/
def widen (row : Row) (targetFrame : Option BlockFrame) : List Row :=
  let stop := row.offset + row.width
  match row.branch with
  | .goto target =>
    [⟨row.offset, row.frame, row.instructions ++ [.nop, .nop], .gotoWide target⟩]
  | .jsr target next =>
    [⟨row.offset, row.frame, row.instructions ++ [.nop, .nop], .jsrWide target next⟩]
  | .conditional condition target next =>
    [⟨row.offset, row.frame, row.instructions, .conditional condition (stop + 3) stop⟩,
      ⟨stop, none, [], .goto next⟩, ⟨stop + 3, targetFrame, [], .gotoWide target⟩]
  | _ => [row]

/-- Where a row is widened, only its last half is. -/
theorem Halves.widen {whole first second : Row} (halves : Halves whole first second)
    (targetFrame : Option BlockFrame) :
    ∃ whole' second' rest, whole.widen targetFrame = whole' :: rest ∧
      second.widen targetFrame = second' :: rest ∧ Halves whole' first second' := by
  have stop : second.offset + second.width = whole.offset + whole.width := by
    have width := halves.width
    cases halves with
    | mk offset frame head tail branch =>
      have first : Row.width ⟨offset, frame, head, .fallThrough (offset + Wide.total head)⟩ =
        Wide.total head := rfl
      dsimp only
      omega
  cases halves with
  | mk offset frame head tail branch some_ =>
    unfold Row.widen
    dsimp only at stop ⊢
    rw [stop, List.append_assoc]
    cases branch with
    | goto | jsr | conditional => exact ⟨_, _, _, rfl, rfl, .mk offset frame head _ _ some_⟩
    | _ => exact ⟨_, _, [], rfl, rfl, .mk offset frame head _ _ some_⟩

end Row

namespace Assembly

/-! ## Rows in place of blocks -/

section

variable (blocks : Array CodeBlock) (far : Finset Nat) (frame? : Nat → Option BlockFrame)

/-- Where the blocks of an array start when some of them have grown. -/
def grownOffset (block : Nat) : Nat :=
  grownStart blocks (List.range blocks.size) far block

/-- The row of a block before its branch is widened. -/
def grownRow (block : Nat) (code : CodeBlock) : Row :=
  ⟨grownOffset blocks far block, (frame? block).map (Frame.renumber (grownOffset blocks far)),
    code.instructions.toList, code.branch.renumber (grownOffset blocks far)⟩

/-- The frame of where a branch goes. -/
def targetFrame? (code : CodeBlock) : Option BlockFrame :=
  (shortTarget? code.branch).bind fun short =>
    (frameOf? blocks short.1).map (Frame.renumber (grownOffset blocks far))

/-- The rows of a block. -/
def grownRows (block : Nat) : List Row :=
  match blocks[block]? with
  | some code =>
    if block ∈ far then (grownRow blocks far frame? block code).widen (targetFrame? blocks far code)
    else [grownRow blocks far frame? block code]
  | none => []

end

/-- A layout of blocks that were widened, after which blocks may have been given frames. -/
structure WidenedLayout (blocks : Array CodeBlock) (laid : LaidCode) (far : Finset Nat)
    (parts : Nat → List Nat) : Prop where
  plain : Plain blocks (List.range blocks.size)
  rewriting : Rewriting .nop none blocks (List.range blocks.size) (widened blocks) far parts
  sameCode : SameCode (widened blocks).blocks laid.blocks
  order : laid.order = (widened blocks).order
  offsets : laid.offsets = Layout.offsets laid.blocks laid.order
  /-- New blocks have the frames they were made with. -/
  new : ∀ part ≥ blocks.size, frameOf? laid.blocks part = frameOf? (widened blocks).blocks part
  /-- Branches lead to blocks that were there before. -/
  inside : ∀ (block : Nat) (code : CodeBlock), blocks[block]? = some code →
    ∀ target ∈ code.branch.targets ++ code.branch.next?.toList, target < blocks.size
  /-- Frames mention blocks that were there before. -/
  sites : ∀ part frame, frameOf? laid.blocks part = some frame → ∀ site, frame.Mentions site →
    site < blocks.size

section

variable {blocks : Array CodeBlock} {laid : LaidCode} {far : Finset Nat} {parts : Nat → List Nat}
  {block : Nat} (isWidened : WidenedLayout blocks laid far parts)
include isWidened

theorem WidenedLayout.offset_eq (block : Nat) : laid.offset block = (widened blocks).offset block := by
  rw [LaidCode.offset, isWidened.offsets, isWidened.order, ← isWidened.sameCode.offsets_eq,
    Result.offset, Array.getD_eq_getD_getElem?]

theorem WidenedLayout.offset_block (inside : block < blocks.size) :
    laid.offset block = grownOffset blocks far block := by
  rw [isWidened.offset_eq]
  exact isWidened.rewriting.offset_block rfl isWidened.plain (List.mem_range.2 inside)

/-- A part of a block starts where those before it end. -/
theorem WidenedLayout.offset_part (inside : block < blocks.size) (front : List Nat)
    {back : List Nat} {part : Nat} {code : CodeBlock} (here : parts block = front ++ part :: back)
    (there : (widened blocks).blocks[part]? = some code) :
    laid.offset part = grownOffset blocks far block +
      (front.map (Layout.blockWidth (widened blocks).blocks)).sum := by
  rw [isWidened.offset_eq]
  exact isWidened.rewriting.offset_part rfl isWidened.plain.distinct (List.mem_range.2 inside) front
    here (Array.getElem?_eq_some_iff.1 there).1

theorem WidenedLayout.frame_eq (part : Nat) :
    (frameOf? laid.blocks part).map (Frame.renumber laid.offset) =
      (frameOf? laid.blocks part).map (Frame.renumber (grownOffset blocks far)) := by
  cases isFrame : frameOf? laid.blocks part with
  | none => rfl
  | some frame =>
    exact congrArg some (Frame.renumber_congr fun site mentions =>
      isWidened.offset_block (isWidened.sites part frame isFrame site mentions))

/-- The row of a block or of a part of it. -/
theorem WidenedLayout.row?_eq {part : Nat} {code : CodeBlock}
    (after : (widened blocks).blocks[part]? = some code) :
    laid.row? part = some ⟨laid.offset part,
      (frameOf? laid.blocks part).map (Frame.renumber (grownOffset blocks far)),
      code.instructions.toList, code.branch.renumber laid.offset⟩ := by
  obtain ⟨frame, there⟩ := isWidened.sameCode.exists_code after
  rw [← isWidened.frame_eq, LaidCode.row?, frameOf?, there]
  rfl

/-- What is written for a block and its branch. -/
theorem WidenedLayout.rows_block (inside : block < blocks.size) :
    (parts block).filterMap laid.row? = grownRows blocks far (frameOf? laid.blocks) block := by
  have placed := List.mem_range.2 inside
  have rewritten := isWidened.rewriting.rewritten block placed
  have here := isWidened.offset_block inside
  have taken : ∀ {code : CodeBlock}, blocks[block]? = some code →
      ∀ {target}, target ∈ code.branch.targets ++ code.branch.next?.toList →
        laid.offset target = grownOffset blocks far target :=
    fun before _ member => isWidened.offset_block (isWidened.inside block _ before _ member)
  have padded : ∀ instructions : Array Instruction, ((instructions.push .nop).push .nop).toList =
      instructions.toList ++ [.nop, .nop] := fun instructions => by simp
  generalize isParts : parts block = list at rewritten ⊢
  cases rewritten with
  | @kept code before after near =>
    have branch : code.branch.renumber laid.offset = code.branch.renumber (grownOffset blocks far) :=
      Branch.renumber_congr fun _ member => taken before member
    rw [List.filterMap_cons_some (isWidened.row?_eq after), here, branch, grownRows, before]
    dsimp only
    rw [if_neg near]
    rfl
  | @goto code target before branch after widened =>
    have onward := taken before (by rw [branch]; exact List.mem_cons_self)
    have moved : (Branch.gotoWide target : Branch Nat Nat Nat).renumber laid.offset =
        .gotoWide (grownOffset blocks far target) := congrArg Branch.gotoWide onward
    rw [List.filterMap_cons_some (isWidened.row?_eq after), here, moved, padded, grownRows, before]
    dsimp only
    rw [if_pos widened, grownRow, branch]
    rfl
  | @jsr code target next before branch after widened =>
    have onward := taken before (by rw [branch]; exact List.mem_cons_self)
    have back := taken before (by rw [branch]; exact List.mem_cons_of_mem _ List.mem_cons_self)
    have moved : (Branch.jsrWide target next : Branch Nat Nat Nat).renumber laid.offset =
        .jsrWide (grownOffset blocks far target) (grownOffset blocks far next) :=
      congrArg₂ Branch.jsrWide onward back
    rw [List.filterMap_cons_some (isWidened.row?_eq after), here, moved, padded, grownRows, before]
    dsimp only
    rw [if_pos widened, grownRow, branch]
    rfl
  | @split code condition target next first before branch fresh split widened =>
    have onward := taken before (by rw [branch]; exact List.mem_cons_self)
    have back := taken before (by rw [branch]; exact List.mem_cons_of_mem _ List.mem_cons_self)
    -- The two new rows come right behind the branch.
    have width : Layout.blockWidth (Assembly.widened blocks).blocks block = code.bodyWidth + 3 :=
      blockWidth_of_getElem? split.after
    have aroundWidth : Layout.blockWidth (Assembly.widened blocks).blocks first = 3 :=
      blockWidth_of_getElem? split.around
    have atAround := isWidened.offset_part inside [block] isParts split.around
    have atOnward := isWidened.offset_part inside [block, first] isParts split.onward
    simp only [List.map_cons, List.map_nil, List.sum_cons, List.sum_nil, width, aroundWidth,
      Nat.add_zero] at atAround atOnward
    have unframed : frameOf? laid.blocks first = none := by
      rw [isWidened.new first fresh, frameOf?, split.around]
      rfl
    have framed : frameOf? laid.blocks (first + 1) = frameOf? blocks target := by
      rw [isWidened.new (first + 1) (Nat.le_succ_of_le fresh), frameOf?, split.onward, frameOf?]
      cases blocks[target]? <;> rfl
    have moved : (Branch.conditional condition (first + 1) first : Branch Nat Nat Nat).renumber
        laid.offset = .conditional condition (laid.offset (first + 1)) (laid.offset first) := rfl
    have movedBack : (Branch.goto next : Branch Nat Nat Nat).renumber laid.offset =
        .goto (grownOffset blocks far next) := congrArg Branch.goto back
    have movedOnward : (Branch.gotoWide target : Branch Nat Nat Nat).renumber laid.offset =
        .gotoWide (grownOffset blocks far target) := congrArg Branch.gotoWide onward
    rw [List.filterMap_cons_some (isWidened.row?_eq split.after),
      List.filterMap_cons_some (isWidened.row?_eq split.around),
      List.filterMap_cons_some (isWidened.row?_eq split.onward), here, moved, movedBack, movedOnward,
      atAround, atOnward, unframed, framed, grownRows, before]
    dsimp only
    rw [if_pos widened, grownRow, targetFrame?, branch]
    rfl

theorem WidenedLayout.rows_eq :
    laid.rows = (List.range blocks.size).flatMap (grownRows blocks far (frameOf? laid.blocks)) := by
  rw [LaidCode.rows, isWidened.order, isWidened.rewriting.order_eq, List.filterMap_flatMap]
  exact List.flatMap_congr fun block member => isWidened.rows_block (List.mem_range.1 member)

end

end Assembly
end ClassFile
