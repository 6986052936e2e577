import ClassFile.Proofs.Code.Emitted
import ClassFile.Proofs.Code.Locals
import ClassFile.Proofs.Code.Placing
import ClassFile.Proofs.Frame.Heights
import ClassFile.Proofs.Widening.Flow

namespace ClassFile
namespace Assembly

/-!
# Code with computed frames

When frames are computed, a block that control never reaches and that has bytes is
replaced by one that only throws, and it is laid out like all the others.  What is
said here of laid out blocks goes by what became of each of them, first when it was
replaced or not and then when it was widened or not.
-/

/-- Blocks with their computed frames and with padded switches. -/
def framed (blocks : Array CodeBlock) (frames : Array (Option BlockFrame)) : Array CodeBlock :=
  alignSwitches (Array.zipWith (fun code frame => { code with frame }) blocks frames)

/-- The blocks with bytes that control never reaches. -/
def deadBlocks (blocks : Array CodeBlock) : Array Bool :=
  blocks.map fun code => code.frame.isNone && decide (0 < code.width)

/-- Blocks with computed frames, where dead ones are replaced. -/
def live (blocks : Array CodeBlock) (frames : Array (Option BlockFrame)) : Array CodeBlock :=
  Limits.buried (framed blocks frames) (deadBlocks (framed blocks frames))

/-- The blocks of a graph as they are written with computed frames. -/
def computedLayout (blocks : Array CodeBlock) (frames : Array (Option BlockFrame)) : LaidCode where
  blocks := (widened (live blocks frames)).blocks
  order := (widened (live blocks frames)).order
  offsets := Layout.offsets (widened (live blocks frames)).blocks (widened (live blocks frames)).order
  dead := deadBlocks (framed blocks frames)

theorem computedLayout_eq {blocks lives : Array CodeBlock} {frames : Array (Option BlockFrame)}
    {order : List Nat} {dead : Array Bool} (isLive : live blocks frames = lives)
    (stays : widened lives = ⟨lives, order, 0⟩) (isDead : deadBlocks (framed blocks frames) = dead) :
    computedLayout blocks frames = ⟨lives, order, Layout.offsets lives order, dead⟩ := by
  rw [computedLayout, isLive, stays, isDead]

/-- How a body is laid out with computed frames. -/
structure LaysOut (body : MethodBody) (method : MethodContext) (before : Assembler.State)
    (graph : FlowGraph) (laid : LaidCode) : Prop where
  built : FlowGraph.ofItems body.items body.handlers false = .ok graph
  computed : ∃ (limits : Limits) (frames : Array (Option BlockFrame)) (hierarchy : Hierarchy),
    Limits.compute graph before.pool method.parameterWidth = .ok limits ∧
      (CodeContext.inferFrames ⟨graph, method, before.pool⟩ limits.locals).run before.hierarchy =
        (.ok frames, hierarchy) ∧
      laid = computedLayout graph.blocks frames

/-- The attributes of code with placed frames, for which a stack map is wanted. -/
def Mapped (method : MethodContext) (offsets : Array Nat) (placed : List (Nat × BlockFrame))
    (attributes : List Attribute) (after : Assembler.State) : Prop :=
  placed = [] ∧ attributes = [] ∨
    ∃ before between entries stackMap,
      (StackMap.ofFrames method offsets placed).run before = (.ok entries, between) ∧
        (stackMapAttribute entries).run between = (.ok stackMap, after) ∧ attributes = [stackMap]

/-! ## Blocks before they are widened -/

/-- What becomes of a block. -/
inductive Lives (graph : FlowGraph) (frames : Array (Option BlockFrame)) (block : Nat) :
    CodeBlock → Prop
  /-- It has a frame, and the padding of a switch changes. -/
  | reached {original : CodeBlock} {frame : BlockFrame} (padding : Nat)
      (recorded : graph.blocks[block]? = some original)
      (found : frames[block]? = some (some frame)) :
      Lives graph frames block
        ⟨some frame, original.instructions, original.branch.withPadding padding⟩
  /-- It has no bytes and stays without a frame. -/
  | empty {original code : CodeBlock} (recorded : graph.blocks[block]? = some original)
      (missing : frames[block]? = some none) (branch : code.branch = original.branch)
      (none : code.width = 0) : Lives graph frames block code
  /-- It only throws. -/
  | buried {code : CodeBlock} (missing : frames[block]? = some none) (some_ : 0 < code.width) :
      Lives graph frames block (bury code)

section

variable {graph : FlowGraph} {frames : Array (Option BlockFrame)} {block : Nat} {code : CodeBlock}

theorem total_replicate_nop (count : Nat) :
    Wide.total (List.replicate count Instruction.nop) = count := by
  induction count with
  | zero => rfl
  | succ count ih =>
    rw [List.replicate_succ, Wide.total_cons, ih, Nat.add_comm]
    rfl

theorem width_bury (some_ : 0 < code.width) : (bury code).width = code.width := by
  have body : (bury code).bodyWidth = code.width - 1 := by
    rw [Block.bodyWidth, bury, Array.toList_replicate, total_replicate_nop]
  rw [Block.width, body]
  exact Nat.sub_add_cancel some_

theorem framed_getElem? (found : (framed graph.blocks frames)[block]? = some code) :
    ∃ original frame, graph.blocks[block]? = some original ∧ frames[block]? = some frame ∧
      code = ⟨frame, original.instructions, original.branch.withPadding (Branch.paddingAt
        (Layout.startOf (Layout.blockWidth (framed graph.blocks frames))
          (List.range (framed graph.blocks frames).size) block + code.bodyWidth))⟩ := by
  obtain ⟨framed_, there, rfl⟩ := alignSwitches_getElem? _ found
  obtain ⟨original, frame, recorded, isFrame, rfl⟩ := Array.getElem?_zipWith_eq_some.1 there
  exact ⟨original, frame, recorded, isFrame, rfl⟩

theorem live_getElem? (found : (live graph.blocks frames)[block]? = some code) :
    ∃ before, (framed graph.blocks frames)[block]? = some before ∧
      code = if before.frame.isNone && decide (0 < before.width) then bury before else before := by
  obtain ⟨before, isDead, there, dead, rfl⟩ := Array.getElem?_zipWith_eq_some.1 found
  rw [deadBlocks, Array.getElem?_map, there, Option.map_some] at dead
  cases dead
  exact ⟨before, there, rfl⟩

theorem lives_of_live (found : (live graph.blocks frames)[block]? = some code) :
    Lives graph frames block code := by
  obtain ⟨before, there, rfl⟩ := live_getElem? found
  obtain ⟨original, frame, recorded, isFrame, same⟩ := framed_getElem? there
  cases frame with
  | some frame =>
    rw [same]
    exact .reached _ recorded isFrame
  | none =>
    have none_ : before.frame = none := by rw [same]
    by_cases some_ : 0 < before.width
    · rw [if_pos (by simp [none_, some_])]
      exact .buried isFrame some_
    · rw [if_neg (by simp [some_])]
      have branch : before.branch.width = 0 := by
        rw [Block.width] at some_
        omega
      refine .empty recorded isFrame ?_ (by omega)
      rw [same] at branch ⊢
      dsimp only at branch ⊢
      cases isBranch : original.branch with
      | tableSwitch | lookupSwitch =>
        rw [isBranch, Branch.withPadding, Branch.width] at branch
        omega
      | _ => rfl

theorem size_live (same : frames.size = graph.blocks.size) :
    (live graph.blocks frames).size = graph.blocks.size := by
  rw [live, Limits.buried, Array.size_zipWith, deadBlocks, Array.size_map, Nat.min_self, framed,
    size_alignSwitches, Array.size_zipWith, same, Nat.min_self]

theorem exists_live (size : frames.size = graph.blocks.size) (inside : block < graph.blocks.size) :
    ∃ code, (live graph.blocks frames)[block]? = some code :=
  ⟨_, Array.getElem?_eq_getElem (by rwa [size_live size])⟩

/-! ## Inferred frames -/

/-- What is used of the frames that were inferred for a graph. -/
structure Inferred (graph : FlowGraph) (frames : Array (Option BlockFrame)) : Prop where
  closed : graph.Closed
  size : frames.size = graph.blocks.size
  /-- Just the blocks that control may reach have frames. -/
  reachable : ∀ block : Nat, (∃ frame, frames[block]? = some (some frame)) ↔ graph.Reachable block
  /-- Control falls into the next block. -/
  next : ∀ (block : Nat) code next, graph.blocks[block]? = some code →
    code.branch.next? = some next → next = block + 1
  /-- No block with a frame returns from a subroutine. -/
  noReturn : ∀ (block : Nat) code frame slot, frames[block]? = some (some frame) →
    graph.blocks[block]? = some code → code.branch ≠ .ret slot

theorem inferred_of_run {context : CodeContext} {locals : Nat} {hierarchy after : Hierarchy}
    {items : List Item} {handlers : List Handler} {subroutines : Bool}
    (built : FlowGraph.ofItems items handlers subroutines = .ok context.graph)
    (run : (context.inferFrames locals).run hierarchy = (.ok frames, after)) :
    Inferred context.graph frames := by
  have closed := FlowGraph.closed_of_ofItems built
  obtain ⟨segments, segmented⟩ := FlowGraph.segmented_of_ofItems built
  obtain ⟨result, last, answered, -, holds⟩ := Inference.inferFrames_answers
    (Inference.discipline_heights context) closed .refl hierarchy trivial
  obtain ⟨rfl, rfl⟩ := Prod.mk.inj (answered.symm.trans run)
  obtain ⟨stable, first, isFirst, -⟩ := holds frames rfl
  constructor
  case closed => exact closed
  case size => exact stable.sound.size
  case reachable =>
    intro block
    constructor
    · rintro ⟨frame, found⟩
      exact stable.sound.good block frame (Inference.frame?_eq_some.2 found)
    · exact stable.reachable (Inference.frame?_eq_some.1 isFirst)
  case next =>
    intro block code next there falls
    have inside := (Array.getElem?_eq_some_iff.1 there).1
    rw [← segmented.length_eq] at inside
    obtain ⟨_, recorded?, -, -, ends⟩ :=
      segmented.each block code _ there (List.getElem?_eq_getElem inside)
    generalize code.branch = branch at ends falls
    cases ends with
    | @recorded recorded resolved inner renamed =>
      have isNext := renamed.next?
      rw [falls] at isNext
      generalize recorded.next? = next? at isNext
      cases isNext with
      | some same => exact same
    | through => exact (Option.some.inj falls).symm
    | stops => cases falls
  case noReturn =>
    intro block code frame slot found there isRet
    obtain ⟨_, _, -, left⟩ := (stable.done found there).passes.along
    rw [isRet] at left
    cases left

theorem targets_withPadding (branch : Branch Nat Nat Nat) (padding : Nat) :
    (branch.withPadding padding).targets = branch.targets := by
  cases branch <;> rfl

theorem next?_withPadding (branch : Branch Nat Nat Nat) (padding : Nat) :
    (branch.withPadding padding).next? = branch.next? := by
  cases branch <;> rfl

theorem silent_of_width {branch : Branch Nat Nat Nat} (none : branch.width = 0) :
    branch.targets = [] := by
  cases branch with
  | fallThrough | stop => rfl
  | returns | throws => rfl
  | ret slot => rfl
  | tableSwitch | lookupSwitch =>
    rw [Branch.width] at none
    omega
  | _ => cases none

section

variable (inferred : Inferred graph frames)

include inferred

theorem Inferred.edge {target : Nat} (there : graph.blocks[block]? = some code)
    (reached : ∃ frame, frames[block]? = some (some frame)) (leads : target ∈ code.successors) :
    ∃ frame, frames[target]? = some (some frame) := by
  refine (inferred.reachable target).2 (((inferred.reachable block).1 reached).tail (.inl ?_))
  rw [FlowGraph.successors, there]
  exact leads

/-- Blocks jump to blocks that have frames. -/
theorem Lives.target (lives : Lives graph frames block code) {target : Nat}
    (isTarget : target ∈ code.branch.targets) : ∃ frame, frames[target]? = some (some frame) := by
  cases lives with
  | reached padding recorded found =>
    rw [targets_withPadding] at isTarget
    exact inferred.edge recorded ⟨_, found⟩ (List.mem_append_left _ isTarget)
  | empty recorded missing branch none =>
    rw [Block.width, Nat.add_eq_zero_iff] at none
    rw [silent_of_width none.2] at isTarget
    cases isTarget
  | buried => cases isTarget

/-- The block that a branch jumps to has its frame before anything is widened. -/
theorem Lives.framed_target (lives : Lives graph frames block code) {target : Nat}
    (isTarget : target ∈ code.branch.targets) :
    ∃ frame, ((live graph.blocks frames)[target]?.map Block.frame).getD none = some frame := by
  obtain ⟨frame, found⟩ := lives.target inferred isTarget
  have inside := (Array.getElem?_eq_some_iff.1 found).1
  rw [inferred.size, ← size_live inferred.size] at inside
  obtain ⟨code, there⟩ : ∃ code, (live graph.blocks frames)[target]? = some code :=
    ⟨_, Array.getElem?_eq_getElem inside⟩
  rw [there]
  cases lives_of_live there with
  | reached => exact ⟨_, rfl⟩
  | empty _ missing => cases found.symm.trans missing
  | buried missing => cases found.symm.trans missing

/-- Blocks fall into the one after them, which is there. -/
theorem Lives.next (lives : Lives graph frames block code) {next : Nat}
    (falls : code.branch.next? = some next) : next = block + 1 ∧ next < graph.blocks.size := by
  have onward : ∀ original, graph.blocks[block]? = some original →
      original.branch.next? = some next → next = block + 1 ∧ next < graph.blocks.size := by
    intro original recorded falls
    refine ⟨inferred.next block original next recorded falls,
      inferred.closed.successors block next ?_⟩
    rw [FlowGraph.successors, recorded]
    exact List.mem_append_right _ (Option.mem_toList.2 falls)
  cases lives with
  | reached padding recorded found =>
    rw [next?_withPadding] at falls
    exact onward _ recorded falls
  | empty recorded missing branch => exact onward _ recorded (branch ▸ falls)
  | buried => cases falls

/-- What follows bytes that control falls out of has a frame. -/
theorem Lives.falls (lives : Lives graph frames block code) (some_ : 0 < code.width) {next : Nat}
    (falls : code.branch.next? = some next) : ∃ frame, frames[next]? = some (some frame) := by
  cases lives with
  | reached padding recorded found =>
    rw [next?_withPadding] at falls
    exact inferred.edge recorded ⟨_, found⟩ (List.mem_append_right _ (Option.mem_toList.2 falls))
  | empty recorded missing branch none => omega
  | buried => cases falls

omit inferred in
/-- Blocks with bytes have frames. -/
theorem Lives.framed (lives : Lives graph frames block code) (some_ : 0 < code.width) :
    ∃ frame, code.frame = some frame := by
  cases lives with
  | reached => exact ⟨_, rfl⟩
  | empty _ _ _ none => omega
  | buried => exact ⟨_, rfl⟩

theorem plain_live : Widening.Plain (live graph.blocks frames) (List.range graph.blocks.size) where
  distinct := List.nodup_range
  inside block placed := by
    rw [size_live inferred.size]
    exact List.mem_range.1 placed
  placed block _ code there target isTarget := by
    obtain ⟨frame, found⟩ := (lives_of_live there).target inferred isTarget
    rw [List.mem_range, ← inferred.size]
    exact (Array.getElem?_eq_some_iff.1 found).1
  follows block _ code there condition target next branch := by
    have falls : code.branch.next? = some next := by rw [branch]; rfl
    obtain ⟨rfl, below⟩ := (lives_of_live there).next inferred falls
    exact exists_range_eq below

end

/-! ## Blocks as they are laid out -/

/-- What is used of a layout with computed frames.  The parts of a block are what
is written in its place. -/
structure Laid (graph : FlowGraph) (frames : Array (Option BlockFrame)) (laid : LaidCode)
    (far : Finset Nat) (parts : Nat → List Nat) : Prop where
  order_eq : laid.order = (List.range graph.blocks.size).flatMap parts
  distinct : laid.order.Nodup
  rewritten : ∀ block < graph.blocks.size, Widening.Rewritten .nop none
    (live graph.blocks frames) laid.blocks far block (parts block)
  covers : ∀ block < laid.blocks.size, block ∈ laid.order
  targets : ∀ block ∈ laid.order, ∀ code, laid.blocks[block]? = some code →
    ∀ target ∈ code.branch.targets, target ∈ laid.order
  starts : ∀ start ∈ Layout.starts laid.blocks laid.order, laid.offset start.1 = start.2
  dead : ∀ block, laid.isDead block = true ↔
    frames[block]? = some none ∧ 0 < Layout.blockWidth (live graph.blocks frames) block
  padded : laid.Padded

theorem blockWidth_live (inferred : Inferred graph frames) :
    Layout.blockWidth (live graph.blocks frames) = Layout.blockWidth (framed graph.blocks frames) := by
  funext block
  cases found : (live graph.blocks frames)[block]? with
  | some code =>
    obtain ⟨before, there, rfl⟩ := live_getElem? found
    rw [Layout.blockWidth, found, Layout.blockWidth, there]
    dsimp only
    split
    · next dead =>
      rw [Bool.and_eq_true, decide_eq_true_eq] at dead
      exact width_bury dead.2
    · rfl
  | none =>
    have beyond := Array.getElem?_eq_none_iff.1 found
    have none_ : (framed graph.blocks frames)[block]? = none := by
      rw [Array.getElem?_eq_none_iff, framed, size_alignSwitches, Array.size_zipWith, inferred.size,
        Nat.min_self]
      rwa [size_live inferred.size] at beyond
    rw [Layout.blockWidth, found, Layout.blockWidth, none_]

theorem isDead_iff (inferred : Inferred graph frames) :
    (deadBlocks (framed graph.blocks frames)).getD block false = true ↔
      frames[block]? = some none ∧ 0 < Layout.blockWidth (live graph.blocks frames) block := by
  rw [blockWidth_live inferred, deadBlocks, Array.getD_eq_getD_getElem?, Array.getElem?_map,
    Layout.blockWidth]
  cases there : (framed graph.blocks frames)[block]? with
  | some before =>
    obtain ⟨original, frame, -, isFrame, same⟩ := framed_getElem? there
    have frame_ : before.frame = frame := by rw [same]
    rw [Option.map_some, Option.getD_some, Bool.and_eq_true, decide_eq_true_eq,
      Option.isNone_iff_eq_none, frame_, isFrame, Option.some.injEq]
  | none => exact iff_of_false Bool.false_ne_true fun both => Nat.lt_irrefl 0 both.2

/-- The padding of a switch is that of where it was before anything was widened. -/
theorem withPadding_live (inferred : Inferred graph frames)
    (found : (live graph.blocks frames)[block]? = some code) (growth : Nat) :
    code.branch.withPadding (Branch.paddingAt
      (Layout.startOf (Layout.blockWidth (live graph.blocks frames))
        (List.range graph.blocks.size) block + 4 * growth + code.bodyWidth)) = code.branch := by
  rw [Nat.add_right_comm, paddingAt_add_mul, blockWidth_live inferred]
  obtain ⟨before, there, rfl⟩ := live_getElem? found
  split
  · rfl
  · obtain ⟨original, frame, -, -, same⟩ := framed_getElem? there
    have size : (framed graph.blocks frames).size = graph.blocks.size := by
      rw [framed, size_alignSwitches, Array.size_zipWith, inferred.size, Nat.min_self]
    rw [size] at same
    conv_rhs => rw [same]
    conv_lhs => rw [congrArg Block.branch same]
    cases original.branch <;> rfl

theorem withPadding_of_unpadded {branch : Branch Nat Nat Nat} (unpadded : branch.padding? = none)
    (padding : Nat) : branch.withPadding padding = branch := by
  cases branch with
  | tableSwitch | lookupSwitch => cases unpadded
  | _ => rfl

/-- No switch is new. -/
theorem unpadded_of_rewritten {blocks blocks' : Array CodeBlock} {far : Finset Nat}
    {list : List Nat} {part : Nat}
    (rewritten : Widening.Rewritten .nop none blocks blocks' far block list) (member : part ∈ list)
    (found : blocks'[part]? = some code) :
    part = block ∧ blocks[block]? = some code ∨ code.branch.padding? = none := by
  cases rewritten.partOf member found with
  | kept before => exact .inl ⟨rfl, before⟩
  | goto | jsr | conditional | around | onward => exact .inr rfl

theorem laid_of_rewriting (inferred : Inferred graph frames) {far : Finset Nat}
    {parts : Nat → List Nat}
    (rewriting : Widening.Rewriting .nop none (live graph.blocks frames)
      (List.range (live graph.blocks frames).size) (widened (live graph.blocks frames)) far parts) :
    Laid graph frames (computedLayout graph.blocks frames) far parts := by
  have size := size_live inferred.size
  have plain : Widening.Plain (live graph.blocks frames)
      (List.range (live graph.blocks frames).size) := size.symm ▸ plain_live inferred
  have order : (computedLayout graph.blocks frames).order =
      (List.range graph.blocks.size).flatMap parts := size ▸ rewriting.order_eq
  have complete := plain.complete.rewritten rewriting.order_eq rewriting.rewritten
  have rewritten : ∀ block < graph.blocks.size, _ := fun block inside =>
    rewriting.rewritten block (by rwa [List.mem_range, size])
  constructor
  case order_eq => exact order
  case distinct => exact rewriting.distinct
  case rewritten => exact rewritten
  case covers => exact widened_covers _
  case targets => exact complete.placed
  case starts =>
    intro start member
    have placed : start.1 ∈ (computedLayout graph.blocks frames).order := by
      have listed := List.mem_map_of_mem (f := Prod.fst) member
      rwa [Layout.starts_map_fst] at listed
    rw [LaidCode.offset, Array.getD_eq_getD_getElem?]
    exact congrArg (Option.getD · 0)
      (Layout.offsets_of_mem_starts rewriting.distinct member (complete.inside _ placed))
  case dead => exact fun block => isDead_iff inferred
  case padded =>
    intro part placed code found
    rw [order] at placed
    obtain ⟨block, isBlock, member⟩ := List.mem_flatMap.1 placed
    rcases unpadded_of_rewritten (rewritten block (List.mem_range.1 isBlock)) member found with
      ⟨rfl, before⟩ | unpadded
    · have offset := rewriting.offset_block rfl plain (by rwa [size])
      obtain ⟨growth, start⟩ := grownStart_eq_add_mul (live graph.blocks frames)
        (List.range (live graph.blocks frames).size) far part
      have same : (computedLayout graph.blocks frames).offset part = _ :=
        (Array.getD_eq_getD_getElem? ..).trans (offset.trans start)
      rw [same, size]
      exact withPadding_live inferred before growth
    · exact withPadding_of_unpadded unpadded _

theorem laid_computedLayout (inferred : Inferred graph frames) :
    ∃ far parts, Laid graph frames (computedLayout graph.blocks frames) far parts := by
  have plain := plain_live inferred
  rw [← size_live inferred.size] at plain
  obtain ⟨far, parts, rewriting⟩ : ∃ far parts, Widening.Rewriting .nop none
      (live graph.blocks frames) (List.range (live graph.blocks frames).size)
        (widened (live graph.blocks frames)) far parts :=
    ⟨_, Widening.widen_rewriting plain around_short .nop none⟩
  exact ⟨far, parts, laid_of_rewriting inferred rewriting⟩

end

end Assembly

theorem Assembler.run_query {α : Type} {question : Hierarchy.Query α} {answer : α}
    {before after : State} (run : (query question).run before = (.ok answer, after)) :
    question.run before.hierarchy = (.ok answer, after.hierarchy) := by
  obtain ⟨answer, after⟩ := Prod.mk.inj run
  exact Prod.ext answer (congrArg State.hierarchy after)

theorem Assembler.run_query_of_run {α : Type} {question : Hierarchy.Query α} {answer : α}
    {before : State} {hierarchy : Hierarchy}
    (run : question.run before.hierarchy = (.ok answer, hierarchy)) :
    (query question).run before = (.ok answer, ⟨before.pool, hierarchy⟩) :=
  congrArg (fun result : Except Fault α × Hierarchy =>
    (result.1, (⟨before.pool, result.2⟩ : State))) run

end ClassFile
