import ClassFile.Proofs.Widening.Growth

namespace ClassFile
namespace Widening

/-!
# What widening makes of each block

Every block of a layout keeps its place and all but its branch.  A widened
`goto` or `jsr` gets padding before it, and a widened conditional branch two new
blocks after it, which `Rewritten` states for one block and `Rewriting` for a
layout.  Later facts about widened code go by its cases and never look at how
the blocks were rewritten.
-/

variable {φ ι : Type}

/-- A conditional branch that goes to the second of two new blocks, which goes on
to the old target.  The first one goes to where the branch fell into. -/
structure SplitAt (blank : φ) (blocks result : Array (Block φ ι)) (block first : Nat)
    (code : Block φ ι) (condition : Condition) (target next : Nat) : Prop where
  after : result[block]? = some
    ⟨code.frame, code.instructions, .conditional condition (first + 1) first⟩
  around : result[first]? = some ⟨blank, #[], .goto next⟩
  onward : result[first + 1]? = some
    ⟨(blocks[target]?.map Block.frame).getD blank, #[], .gotoWide target⟩

/-- What becomes of a block, and the blocks that now stand in its place. -/
inductive Rewritten (pad : ι) (blank : φ) (blocks result : Array (Block φ ι)) (far : Finset Nat)
    (block : Nat) : List Nat → Prop
  /-- The branch stays as it is. -/
  | kept {code : Block φ ι} (before : blocks[block]? = some code)
      (after : result[block]? = some code) (near : block ∉ far) :
      Rewritten pad blank blocks result far block [block]
  /-- A wide jump behind two paddings. -/
  | goto {code : Block φ ι} {target : Nat} (before : blocks[block]? = some code)
      (branch : code.branch = .goto target)
      (after : result[block]? = some
        ⟨code.frame, (code.instructions.push pad).push pad, .gotoWide target⟩)
      (widened : block ∈ far) : Rewritten pad blank blocks result far block [block]
  /-- A wide call behind two paddings. -/
  | jsr {code : Block φ ι} {target next : Nat} (before : blocks[block]? = some code)
      (branch : code.branch = .jsr target next)
      (after : result[block]? = some
        ⟨code.frame, (code.instructions.push pad).push pad, .jsrWide target next⟩)
      (widened : block ∈ far) : Rewritten pad blank blocks result far block [block]
  /-- A branch to the second of two new blocks after it. -/
  | split {code : Block φ ι} {condition : Condition} {target next first : Nat}
      (before : blocks[block]? = some code)
      (branch : code.branch = .conditional condition target next)
      (fresh : blocks.size ≤ first)
      (split : SplitAt blank blocks result block first code condition target next)
      (widened : block ∈ far) :
      Rewritten pad blank blocks result far block [block, first, first + 1]

/-- A block that stands in the place of an old one: the old one as it was or with its
branch widened, or one of the two that are new. -/
inductive PartOf (pad : ι) (blank : φ) (blocks : Array (Block φ ι)) (block : Nat) :
    List Nat → Nat → Block φ ι → Prop
  | kept {code : Block φ ι} (before : blocks[block]? = some code) :
      PartOf pad blank blocks block [block] block code
  | goto {code : Block φ ι} {target : Nat} (before : blocks[block]? = some code)
      (branch : code.branch = .goto target) :
      PartOf pad blank blocks block [block] block
        ⟨code.frame, (code.instructions.push pad).push pad, .gotoWide target⟩
  | jsr {code : Block φ ι} {target next : Nat} (before : blocks[block]? = some code)
      (branch : code.branch = .jsr target next) :
      PartOf pad blank blocks block [block] block
        ⟨code.frame, (code.instructions.push pad).push pad, .jsrWide target next⟩
  | conditional {code : Block φ ι} {condition : Condition} {target next first : Nat}
      (before : blocks[block]? = some code)
      (branch : code.branch = .conditional condition target next) :
      PartOf pad blank blocks block [block, first, first + 1] block
        ⟨code.frame, code.instructions, .conditional condition (first + 1) first⟩
  | around {code : Block φ ι} {condition : Condition} {target next first : Nat}
      (before : blocks[block]? = some code)
      (branch : code.branch = .conditional condition target next) :
      PartOf pad blank blocks block [block, first, first + 1] first ⟨blank, #[], .goto next⟩
  | onward {code : Block φ ι} {condition : Condition} {target next first : Nat}
      (before : blocks[block]? = some code)
      (branch : code.branch = .conditional condition target next) :
      PartOf pad blank blocks block [block, first, first + 1] (first + 1)
        ⟨(blocks[target]?.map Block.frame).getD blank, #[], .gotoWide target⟩

theorem Rewritten.partOf {pad : ι} {blank : φ} {blocks result : Array (Block φ ι)}
    {far : Finset Nat} {block part : Nat} {parts : List Nat} {now : Block φ ι}
    (rewritten : Rewritten pad blank blocks result far block parts) (member : part ∈ parts)
    (found : result[part]? = some now) : PartOf pad blank blocks block parts part now := by
  cases rewritten with
  | kept before after near =>
    obtain rfl := List.mem_singleton.1 member
    exact .kept (before.trans (after.symm.trans found))
  | goto before branch after widened =>
    obtain rfl := List.mem_singleton.1 member
    obtain rfl := Option.some.inj (after.symm.trans found)
    exact .goto before branch
  | jsr before branch after widened =>
    obtain rfl := List.mem_singleton.1 member
    obtain rfl := Option.some.inj (after.symm.trans found)
    exact .jsr before branch
  | split before branch fresh split widened =>
    simp only [List.mem_cons, List.not_mem_nil, or_false] at member
    rcases member with rfl | rfl | rfl
    · obtain rfl := Option.some.inj (split.after.symm.trans found)
      exact .conditional before branch
    · obtain rfl := Option.some.inj (split.around.symm.trans found)
      exact .around before branch
    · obtain rfl := Option.some.inj (split.onward.symm.trans found)
      exact .onward before branch

/-- A layout whose blocks were rewritten in place. -/
structure Rewriting (pad : ι) (blank : φ) (blocks : Array (Block φ ι)) (order : List Nat)
    (result : Result φ ι) (far : Finset Nat) (parts : Nat → List Nat) : Prop where
  order_eq : result.order = order.flatMap parts
  distinct : result.order.Nodup
  rewritten : ∀ block ∈ order, Rewritten pad blank blocks result.blocks far block (parts block)

/-! ## Splitting branches -/

section

variable {pad : ι} {blank : φ} {blocks : Array (Block φ ι)} {block target next : Nat}
  {code : Block φ ι} {condition : Condition}

/-- The blocks after one of them is split at its branch. -/
structure Split (blank : φ) (blocks grown : Array (Block φ ι)) (block : Nat) (code : Block φ ι)
    (condition : Condition) (target next : Nat) : Prop
    extends SplitAt blank blocks grown block blocks.size code condition target next where
  size : grown.size = blocks.size + 2
  same : ∀ index < blocks.size, index ≠ block → grown[index]? = blocks[index]?

theorem splitBranch_split (blank : φ) (there : blocks[block]? = some code)
    (branch : code.branch = .conditional condition target next) :
    Split blank blocks (splitBranch blank blocks.size blocks block) block code condition target
      next := by
  have inside : block < blocks.size := (Array.getElem?_eq_some_iff.1 there).1
  have made : splitBranch blank blocks.size blocks block =
      ((blocks.setIfInBounds block
        ⟨code.frame, code.instructions, .conditional condition (blocks.size + 1) blocks.size⟩).push
          ⟨blank, #[], .goto next⟩).push
            ⟨(blocks[target]?.map Block.frame).getD blank, #[], .gotoWide target⟩ := by
    rw [splitBranch, there]
    dsimp only
    rw [branch]
  rw [made]
  refine ⟨⟨?after, ?around, ?onward⟩, ?size, ?same⟩
  case after =>
    rw [Array.getElem?_push, if_neg (by simp; omega), Array.getElem?_push, if_neg (by simp; omega),
      Array.getElem?_setIfInBounds_self_of_lt inside]
  case around =>
    rw [Array.getElem?_push, if_neg (by simp), Array.getElem?_push, if_pos (by simp)]
  case onward => rw [Array.getElem?_push, if_pos (by simp)]
  case size => rw [Array.size_push, Array.size_push, Array.size_setIfInBounds]
  case same =>
    intro index below different
    rw [Array.getElem?_push, if_neg (by simp; omega), Array.getElem?_push, if_neg (by simp; omega),
      Array.getElem?_setIfInBounds_ne (Ne.symm different)]

theorem Split.frame {grown : Array (Block φ ι)}
    (split : Split blank blocks grown block code condition target next)
    (there : blocks[block]? = some code) {other : Nat} (inside : other < blocks.size) :
    grown[other]?.map Block.frame = blocks[other]?.map Block.frame := by
  by_cases same : other = block
  · rw [same, split.after, there]
    rfl
  · rw [split.same other inside same]

/-- What is done to other blocks leaves a split branch as it is. -/
theorem Split.splitAt {grown result : Array (Block φ ι)}
    (split : Split blank blocks grown block code condition target next)
    (inside : block < blocks.size)
    (kept : ∀ index < grown.size, index = block ∨ blocks.size ≤ index →
      result[index]? = grown[index]?) :
    SplitAt blank blocks result block blocks.size code condition target next := by
  have size := split.size
  constructor
  case after => rw [kept block (by omega) (.inl rfl), split.after]
  case around => rw [kept blocks.size (by omega) (.inr (Nat.le_refl _)), split.around]
  case onward => rw [kept (blocks.size + 1) (by omega) (.inr (Nat.le_succ _)), split.onward]

/-- The branches of some blocks are split one after the other.  New blocks that are
numbered in that order come after those of the branches before. -/
theorem foldl_splitBranch (blank : φ) (first : Nat → Nat) {branches : List Nat}
    (numbered : ∀ index block, branches[index]? = some block →
      first block = blocks.size + 2 * index)
    (distinct : branches.Nodup)
    (conditional : ∀ block ∈ branches, ∃ code condition target next,
      blocks[block]? = some code ∧ code.branch = .conditional condition target next ∧
        target < blocks.size) :
    (∀ index < blocks.size, index ∉ branches →
      (branches.foldl (fun arena block => splitBranch blank (first block) arena block)
        blocks)[index]? = blocks[index]?) ∧
    ∀ block ∈ branches, ∀ code condition target next,
      blocks[block]? = some code → code.branch = .conditional condition target next →
      SplitAt blank blocks
        (branches.foldl (fun arena block => splitBranch blank (first block) arena block) blocks)
        block (first block) code condition target next := by
  induction branches generalizing blocks with
  | nil => exact ⟨fun _ _ _ => rfl, fun _ member => absurd member List.not_mem_nil⟩
  | cons head rest ih =>
    obtain ⟨fresh, distinct⟩ := List.nodup_cons.1 distinct
    obtain ⟨code, condition, target, next, there, branch, inside⟩ :=
      conditional head List.mem_cons_self
    have atEnd : first head = blocks.size := numbered 0 head rfl
    have split := splitBranch_split blank there branch
    rw [List.foldl_cons, atEnd]
    have below : ∀ block ∈ head :: rest, block < blocks.size := by
      intro block member
      obtain ⟨_, _, _, _, there, -⟩ := conditional block member
      exact (Array.getElem?_eq_some_iff.1 there).1
    have others : ∀ block ∈ rest,
        (splitBranch blank blocks.size blocks head)[block]? = blocks[block]? :=
      fun block member => split.same block (below block (List.mem_cons_of_mem _ member))
        fun same => fresh (same ▸ member)
    obtain ⟨kept, splits⟩ := @ih (splitBranch blank blocks.size blocks head) (by
      intro index block there
      rw [numbered (index + 1) block there, split.size]
      omega) distinct (by
      intro block member
      obtain ⟨code, condition, target, next, there, branch, inside⟩ :=
        conditional block (List.mem_cons_of_mem _ member)
      exact ⟨code, condition, target, next, (others block member).trans there, branch,
        by rw [split.size]; omega⟩)
    constructor
    · intro index inside absent
      rw [List.mem_cons, not_or] at absent
      rw [kept index (by rw [split.size]; omega) absent.2, split.same index inside absent.1]
    · intro block member code' condition' target' next' there' branch'
      rcases List.mem_cons.1 member with rfl | member
      · obtain rfl : code = code' := Option.some.inj (there.symm.trans there')
        obtain ⟨rfl, rfl, rfl⟩ := Branch.conditional.inj (branch.symm.trans branch')
        rw [atEnd]
        refine split.splitAt (below block List.mem_cons_self) fun index inside new => ?_
        refine kept index inside fun later => ?_
        rcases new with rfl | above
        · exact fresh later
        · exact absurd (below index (List.mem_cons_of_mem _ later)) (Nat.not_lt.2 above)
      · obtain ⟨code'', _, _, _, there'', branch'', inside''⟩ :=
          conditional block (List.mem_cons_of_mem _ member)
        obtain rfl : code'' = code' := Option.some.inj (there''.symm.trans there')
        obtain ⟨-, rfl, -⟩ := Branch.conditional.inj (branch''.symm.trans branch')
        have later := splits block member _ _ _ _ ((others block member).trans there') branch'
        exact ⟨later.after, later.around, split.frame there inside'' ▸ later.onward⟩

theorem size_foldl_splitBranch_le (blank : φ) (first : Nat → Nat) (branches : List Nat)
    (blocks : Array (Block φ ι)) :
    (branches.foldl (fun arena block => splitBranch blank (first block) arena block)
      blocks).size ≤ blocks.size + 2 * branches.length := by
  induction branches generalizing blocks with
  | nil => exact Nat.le_refl _
  | cons head rest ih =>
    have one : (splitBranch blank (first head) blocks head).size ≤ blocks.size + 2 := by
      rw [splitBranch]
      split
      · split
        · simp
        · exact Nat.le_add_right _ _
      · exact Nat.le_add_right _ _
    have later := ih (splitBranch blank (first head) blocks head)
    rw [List.foldl_cons, List.length_cons]
    omega

/-! ## Padding jumps -/

theorem foldl_modify (change : Block φ ι → Block φ ι) {names : List Nat}
    (distinct : names.Nodup) (blocks : Array (Block φ ι)) (index : Nat) :
    (names.foldl (fun blocks block => blocks.modify block change) blocks)[index]? =
      if index ∈ names then blocks[index]?.map change else blocks[index]? := by
  induction names generalizing blocks with
  | nil => rw [List.foldl_nil, if_neg List.not_mem_nil]
  | cons first rest ih =>
    obtain ⟨fresh, distinct⟩ := List.nodup_cons.1 distinct
    rw [List.foldl_cons, ih distinct, Array.getElem?_modify]
    by_cases same : first = index
    · subst same
      rw [if_neg fresh, if_pos rfl, if_pos List.mem_cons_self]
    · rw [if_neg same]
      simp only [List.mem_cons, Ne.symm same, false_or]

theorem size_foldl_modify (change : Block φ ι → Block φ ι) (names : List Nat)
    (blocks : Array (Block φ ι)) :
    (names.foldl (fun blocks block => blocks.modify block change) blocks).size = blocks.size := by
  induction names generalizing blocks with
  | nil => rfl
  | cons first rest ih => rw [List.foldl_cons, ih, Array.size_modify]

theorem widenJump_frame (pad : ι) (code : Block φ ι) : (widenJump pad code).frame = code.frame := by
  rw [widenJump]
  split <;> rfl

theorem frame_foldl_modify (pad : ι) {names : List Nat} (distinct : names.Nodup)
    (blocks : Array (Block φ ι)) (index : Nat) :
    (names.foldl (fun blocks block => blocks.modify block (widenJump pad))
      blocks)[index]?.map Block.frame = blocks[index]?.map Block.frame := by
  rw [foldl_modify (widenJump pad) distinct]
  split
  · rw [Option.map_map, show Block.frame ∘ widenJump pad = Block.frame (φ := φ) from
      funext (widenJump_frame pad)]
  · rfl

theorem branch_of_short_unconditional {branch : Branch Nat Nat Nat}
    (short : shortTarget? branch = some (target, true)) :
    branch = .goto target ∨ ∃ next, branch = .jsr target next := by
  cases branch <;> simp_all [shortTarget?]

theorem branch_of_short_conditional {branch : Branch Nat Nat Nat}
    (short : shortTarget? branch = some (target, false)) :
    ∃ condition next, branch = .conditional condition target next := by
  cases branch <;> simp_all [shortTarget?]

end

/-! ## Rewriting a layout -/

/-- The jumps to widen are short branches of the layout, each of another
block. -/
structure Chosen (blocks : Array (Block φ ι)) (order : List Nat) (far : List Jump) : Prop where
  distinct : (far.map Jump.block).Nodup
  short : ∀ jump ∈ far, jump.block ∈ order ∧ ∃ code target, blocks[jump.block]? = some code ∧
    shortTarget? code.branch = some (target, jump.unconditional)

section

variable {range : Range} {pad : ι} {blank : φ} {blocks : Array (Block φ ι)} {order : List Nat}
  {far : List Jump}

/-- The blocks of the conditional branches to widen. -/
def splitNames (far : List Jump) : List Nat :=
  (far.filter fun jump => !jump.unconditional).map Jump.block

/-- The blocks of the other jumps to widen. -/
def padNames (far : List Jump) : List Nat :=
  (far.filter (·.unconditional)).map Jump.block

theorem mem_splitNames {block : Nat} :
    block ∈ splitNames far ↔ ∃ jump ∈ far, jump.unconditional = false ∧ jump.block = block := by
  simp [splitNames, and_assoc]

theorem mem_padNames {block : Nat} :
    block ∈ padNames far ↔ ∃ jump ∈ far, jump.unconditional = true ∧ jump.block = block := by
  simp [padNames, and_assoc]

/-- Where the new blocks of the split branches begin. -/
def splitTable (size : Nat) (far : List Jump) : Std.HashMap Nat Nat :=
  (far.filter fun jump => !jump.unconditional).zipIdx.foldl
    (fun splits (jump, index) => splits.insert jump.block (size + 2 * index)) ∅

theorem splitTable_getElem? {size index block : Nat} (distinct : (splitNames far).Nodup)
    (there : (splitNames far)[index]? = some block) :
    (splitTable size far)[block]? = some (size + 2 * index) := by
  rw [splitNames, List.getElem?_map, Option.map_eq_some_iff] at there
  obtain ⟨jump, there, rfl⟩ := there
  have member : (jump, index) ∈ (far.filter fun jump => !jump.unconditional).zipIdx :=
    List.mk_mem_zipIdx_iff_getElem?.2 there
  refine getElem?_foldl_insert_of_mem (fun entry : Jump × Nat => entry.1.block)
    (fun entry => size + 2 * entry.2) ?_ member
  rw [show (fun entry : Jump × Nat => entry.1.block) = Jump.block ∘ Prod.fst from rfl,
    ← List.map_map, List.zipIdx_map_fst]
  exact distinct

theorem splitTable_eq_none {size block : Nat} (absent : block ∉ splitNames far) :
    (splitTable size far)[block]? = none := by
  refine (getElem?_foldl_insert_of_notMem (fun entry : Jump × Nat => entry.1.block)
    (fun entry => size + 2 * entry.2) ?_).trans Std.HashMap.getElem?_empty
  rw [show (fun entry : Jump × Nat => entry.1.block) = Jump.block ∘ Prod.fst from rfl,
    ← List.map_map, List.zipIdx_map_fst]
  exact absent

/-- The number of the first new block of a split branch. -/
def firstPart (size : Nat) (far : List Jump) (block : Nat) : Nat :=
  (splitTable size far).getD block size

theorem firstPart_eq {size index block : Nat} (distinct : (splitNames far).Nodup)
    (there : (splitNames far)[index]? = some block) :
    firstPart size far block = size + 2 * index := by
  rw [firstPart, Std.HashMap.getD_eq_getD_getElem?, splitTable_getElem? distinct there,
    Option.getD_some]

/-- The blocks that take the place of one block. -/
def partsOf (splits : Std.HashMap Nat Nat) (block : Nat) : List Nat :=
  match splits[block]? with
  | some first => [block, first, first + 1]
  | none => [block]

/-- The arena with some jumps padded and some branches split. -/
def rewriteBlocks (pad : ι) (blank : φ) (far : List Jump) (blocks : Array (Block φ ι)) :
    Array (Block φ ι) :=
  (splitNames far).foldl
    (fun arena block => splitBranch blank (firstPart blocks.size far block) arena block)
    ((padNames far).foldl (fun blocks block => blocks.modify block (widenJump pad)) blocks)

/-- The jumps to widen where blocks may be repeated, each block once. -/
def chosenJumps [Wide ι] (range : Range) (blocks : Array (Block φ ι)) (order : List Nat) :
    List Jump :=
  lastOfEach ((farJumps range blocks order).toList.filter (·.unconditional)) ++
    lastOfEach ((farJumps range blocks order).toList.filter fun jump => !jump.unconditional)

theorem filter_lastOfEach_filter {kind : Jump → Bool} (jumps : List Jump) :
    (lastOfEach (jumps.filter kind)).filter kind = lastOfEach (jumps.filter kind) :=
  List.filter_eq_self.2 fun _ member =>
    List.of_mem_filter ((lastOfEach_sublist _).subset member)

theorem filter_lastOfEach_filter_not {kind other : Jump → Bool}
    (apart : ∀ jump, kind jump = true → other jump = false) (jumps : List Jump) :
    (lastOfEach (jumps.filter kind)).filter other = [] :=
  List.filter_eq_nil_iff.2 fun _ member => by
    rw [apart _ (List.of_mem_filter ((lastOfEach_sublist _).subset member))]
    exact Bool.false_ne_true

theorem filter_chosenJumps_conditional [Wide ι] (range : Range) (blocks : Array (Block φ ι))
    (order : List Nat) :
    (chosenJumps range blocks order).filter (fun jump => !jump.unconditional) =
      lastOfEach ((farJumps range blocks order).toList.filter fun jump => !jump.unconditional) := by
  rw [chosenJumps, List.filter_append, filter_lastOfEach_filter,
    filter_lastOfEach_filter_not fun jump isJump => by rw [isJump]; rfl, List.nil_append]

theorem filter_chosenJumps_unconditional [Wide ι] (range : Range) (blocks : Array (Block φ ι))
    (order : List Nat) :
    (chosenJumps range blocks order).filter (·.unconditional) =
      lastOfEach ((farJumps range blocks order).toList.filter (·.unconditional)) := by
  rw [chosenJumps, List.filter_append, filter_lastOfEach_filter,
    filter_lastOfEach_filter_not fun jump isBranch => by simpa using isBranch, List.append_nil]

/-- All conditional branches are taken once exactly where those that are out of range
from the start have one place. -/
theorem splitOnce_iff [Wide ι] :
    SplitOnce range blocks order ↔
      (((farJumps range blocks order).toList.filter fun jump => !jump.unconditional).map
        Jump.block).Nodup := by
  rw [List.nodup_iff_count_le_one]
  constructor
  · intro once block
    by_cases member : block ∈ ((farJumps range blocks order).toList.filter fun jump =>
        !jump.unconditional).map Jump.block
    · obtain ⟨jump, isFar, rfl⟩ := List.mem_map.1 member
      obtain ⟨taken, conditional⟩ := List.mem_filter.1 isFar
      rw [Bool.not_eq_true'] at conditional
      exact ((List.filter_sublist.map _).count_le _).trans
        (once.count_farJumps_le taken conditional)
    · rw [List.count_eq_zero_of_not_mem member]
      exact Nat.zero_le 1
  · intro few jump known conditional far
    have placed := List.count_pos_iff.2 (mem_jumpsOf known).1
    have ofKind : ∀ other ∈ (farJumps range blocks order).toList, other.block = jump.block →
        (!other.unconditional) = true := by
      intro other taken same
      rw [kind_eq (mem_farJumps taken).2 (mem_jumpsOf known).2 same, conditional]
      rfl
    have once := few jump.block
    rw [count_map_block_filter ofKind, count_farJumps_of_far known far] at once
    omega

theorem widen_eq_chosen [Wide ι] (once : SplitOnce range blocks order) :
    widen range pad blank blocks order =
      { blocks := rewriteBlocks pad blank (chosenJumps range blocks order) blocks
        order := order.flatMap
          (partsOf (splitTable blocks.size (chosenJumps range blocks order)))
        widened := (chosenJumps range blocks order).length } := by
  have splits := lastOfEach_eq_self (splitOnce_iff.1 once)
  simp only [widen, rewriteBlocks, firstPart, splitNames, padNames, splitTable, List.foldl_map,
    filter_chosenJumps_conditional, filter_chosenJumps_unconditional, splits]
  rw [chosenJumps, List.length_append, splits]
  rfl

/-- Two blocks are made for every conditional branch that is split. -/
theorem size_widen_le [Wide ι] (range : Range) (pad : ι) (blank : φ) (blocks : Array (Block φ ι))
    (order : List Nat) :
    (widen range pad blank blocks order).blocks.size ≤ blocks.size + 2 * (lastOfEach
      ((farJumps range blocks order).toList.filter fun jump => !jump.unconditional)).length := by
  rw [widen]
  dsimp only
  generalize (farJumps range blocks order).toList = taken
  have made := fun splits : Std.HashMap Nat Nat =>
    size_foldl_splitBranch_le blank (splits.getD · blocks.size)
      ((lastOfEach (taken.filter fun jump => !jump.unconditional)).map Jump.block)
      ((lastOfEach (taken.filter (·.unconditional))).foldl
        (fun blocks jump => blocks.modify jump.block (widenJump pad)) blocks)
  have padded := size_foldl_modify (widenJump pad)
    ((lastOfEach (taken.filter (·.unconditional))).map Jump.block) blocks
  simp only [List.foldl_map, List.length_map] at made padded
  exact (made _).trans_eq (by rw [padded])

/-- The numbers that are promised last are in the layout. -/
theorem mem_order_widen [Wide ι] (pad : ι) (blank : φ) {front : List Jump} {last : Jump}
    (split : ((farJumps range blocks order).toList.filter fun jump => !jump.unconditional) =
      front ++ [last]) :
    blocks.size + 2 * front.length ∈ (widen range pad blank blocks order).order := by
  have taken : last ∈ (farJumps range blocks order).toList :=
    List.mem_of_mem_filter (split ▸ List.mem_concat_self)
  have promised : ((front ++ [last]).zipIdx.foldl
      (fun splits entry => splits.insert entry.1.block (blocks.size + 2 * entry.2))
      (∅ : Std.HashMap Nat Nat))[last.block]? = some (blocks.size + 2 * front.length) := by
    rw [List.zipIdx_append, List.foldl_append, Nat.zero_add]
    exact Std.HashMap.getElem?_insert_self
  rw [widen]
  dsimp only
  rw [split, spliceOrder]
  refine List.mem_flatMap_of_mem (mem_farJumps taken).1 ?_
  rw [promised]
  simp

/-- A conditional branch that is taken twice is promised more blocks than are made, so a
layout that names none but those that are there takes each of them once. -/
theorem splitOnce_of_inside [Wide ι]
    (inside : ∀ block ∈ (widen range pad blank blocks order).order,
      block < (widen range pad blank blocks order).blocks.size) :
    SplitOnce range blocks order := by
  rw [splitOnce_iff]
  by_contra twice
  have fewer := length_lastOfEach_lt twice
  obtain none | ⟨front, last, split⟩ := List.eq_nil_or_concat'
    ((farJumps range blocks order).toList.filter fun jump => !jump.unconditional)
  · exact twice (none ▸ List.nodup_nil)
  have named := inside _ (mem_order_widen pad blank split)
  have made := size_widen_le range pad blank blocks order
  rw [split] at made fewer
  rw [List.length_append, List.length_singleton] at fewer
  omega

theorem mem_chosenJumps [Wide ι] {jump : Jump} (member : jump ∈ chosenJumps range blocks order) :
    jump ∈ (farJumps range blocks order).toList := by
  rcases List.mem_append.1 member with padded | split
  · exact List.mem_of_mem_filter ((lastOfEach_sublist _).subset padded)
  · exact List.mem_of_mem_filter ((lastOfEach_sublist _).subset split)

theorem chosen_chosenJumps [Wide ι] (range : Range) (blocks : Array (Block φ ι))
    (order : List Nat) : Chosen blocks order (chosenJumps range blocks order) where
  distinct := by
    rw [chosenJumps, List.map_append, List.nodup_append]
    refine ⟨lastOfEach_nodup _, lastOfEach_nodup _, ?_⟩
    rintro _ padded _ split rfl
    obtain ⟨jump, isPadded, rfl⟩ := List.mem_map.1 padded
    obtain ⟨other, isSplit, same⟩ := List.mem_map.1 split
    obtain ⟨taken, unconditional⟩ := List.mem_filter.1 ((lastOfEach_sublist _).subset isPadded)
    obtain ⟨otherTaken, conditional⟩ := List.mem_filter.1 ((lastOfEach_sublist _).subset isSplit)
    rw [kind_eq (mem_farJumps otherTaken).2 (mem_farJumps taken).2 same, unconditional]
      at conditional
    cases conditional
  short _ member := mem_farJumps (mem_chosenJumps member)

/-- Where no block is repeated, all jumps that are taken are widened. -/
theorem chosenJumps_perm [Wide ι]
    (distinct : ((farJumps range blocks order).toList.map Jump.block).Nodup) :
    (chosenJumps range blocks order).Perm (farJumps range blocks order).toList := by
  rw [chosenJumps, lastOfEach_eq_self (distinct.sublist (List.filter_sublist.map _)),
    lastOfEach_eq_self (distinct.sublist (List.filter_sublist.map _))]
  exact List.filter_append_perm _ _

theorem Chosen.splitNames_nodup (chosen : Chosen blocks order far) : (splitNames far).Nodup :=
  chosen.distinct.sublist (List.filter_sublist.map _)

theorem Chosen.padNames_nodup (chosen : Chosen blocks order far) : (padNames far).Nodup :=
  chosen.distinct.sublist (List.filter_sublist.map _)

/-- A branch is conditional or it is not. -/
theorem Chosen.apart (chosen : Chosen blocks order far) {block : Nat}
    (split : block ∈ splitNames far) : block ∉ padNames far := by
  intro padded
  obtain ⟨jump, member, conditional, rfl⟩ := mem_splitNames.1 split
  obtain ⟨other, otherMember, unconditional, same⟩ := mem_padNames.1 padded
  obtain rfl := eq_of_block_eq chosen.distinct otherMember member same
  rw [conditional] at unconditional
  cases unconditional

theorem partsOf_splitTable (distinct : (splitNames far).Nodup) (size block : Nat) :
    (block ∉ splitNames far ∧ partsOf (splitTable size far) block = [block]) ∨
      ∃ index, (splitNames far)[index]? = some block ∧
        partsOf (splitTable size far) block =
          [block, size + 2 * index, size + 2 * index + 1] := by
  by_cases split : block ∈ splitNames far
  · right
    obtain ⟨index, there⟩ := List.mem_iff_getElem?.1 split
    exact ⟨index, there, by rw [partsOf, splitTable_getElem? distinct there]⟩
  · left
    exact ⟨split, by rw [partsOf, splitTable_eq_none split]⟩

/-- New blocks are new, and those of different branches are different. -/
theorem flatMap_partsOf_nodup (distinct : (splitNames far).Nodup) {size : Nat}
    (once : order.Nodup) (inside : ∀ block ∈ order, block < size) :
    (order.flatMap (partsOf (splitTable size far))).Nodup := by
  refine List.nodup_flatMap.2 ⟨fun block placed => ?_, ?_⟩
  · have below := inside block placed
    rcases partsOf_splitTable distinct size block with ⟨-, parts⟩ | ⟨index, -, parts⟩
    · rw [parts]
      exact List.nodup_singleton block
    · rw [parts]
      simp
      omega
  · refine List.Pairwise.imp_of_mem ?_ once
    intro block other placed otherPlaced different
    have below := inside block placed
    have otherBelow := inside other otherPlaced
    rw [Function.onFun]
    rcases partsOf_splitTable distinct size block with ⟨-, parts⟩ | ⟨index, there, parts⟩ <;>
      rcases partsOf_splitTable distinct size other with ⟨-, otherParts⟩ | ⟨place, at', otherParts⟩
    · rw [parts, otherParts]
      simpa using Ne.symm different
    · rw [parts, otherParts]
      simp
      omega
    · rw [parts, otherParts]
      simp
      omega
    · have apart : index ≠ place := by
        rintro rfl
        exact different (Option.some.inj (there.symm.trans at'))
      rw [parts, otherParts]
      simp
      omega

theorem SplitAt.of_frame {padded result : Array (Block φ ι)} {block first target next : Nat}
    {code : Block φ ι} {condition : Condition}
    (same : padded[target]?.map Block.frame = blocks[target]?.map Block.frame)
    (split : SplitAt blank padded result block first code condition target next) :
    SplitAt blank blocks result block first code condition target next :=
  ⟨split.after, split.around, same ▸ split.onward⟩

theorem Chosen.exists_conditional (chosen : Chosen blocks order far) {block : Nat}
    (split : block ∈ splitNames far) :
    block ∈ order ∧ ∃ code condition target next, blocks[block]? = some code ∧
      code.branch = .conditional condition target next ∧
      shortTarget? code.branch = some (target, false) := by
  obtain ⟨jump, member, conditional, rfl⟩ := mem_splitNames.1 split
  obtain ⟨placed, code, target, there, short⟩ := chosen.short jump member
  rw [conditional] at short
  obtain ⟨condition, next, branch⟩ := branch_of_short_conditional short
  exact ⟨placed, code, condition, target, next, there, branch, short⟩

/-- A block that is not split stays as it is or gets its jump padded. -/
theorem Chosen.rewritten_whole (chosen : Chosen blocks order far) {result : Array (Block φ ι)}
    {block : Nat} (below : block < blocks.size) (whole : block ∉ splitNames far)
    (after : result[block]? =
      if block ∈ padNames far then blocks[block]?.map (widenJump pad) else blocks[block]?) :
    Rewritten pad blank blocks result (far.map Jump.block).toFinset block [block] := by
  by_cases pads : block ∈ padNames far
  · obtain ⟨jump, member, unconditional, rfl⟩ := mem_padNames.1 pads
    have widened : jump.block ∈ (far.map Jump.block).toFinset :=
      List.mem_toFinset.2 (List.mem_map_of_mem member)
    obtain ⟨-, code, target, found, short⟩ := chosen.short jump member
    rw [unconditional] at short
    rw [if_pos pads, found, Option.map_some, widenJump] at after
    rcases branch_of_short_unconditional short with branch | ⟨next, branch⟩
    · rw [branch] at after
      exact .goto found branch after widened
    · rw [branch] at after
      exact .jsr found branch after widened
  · rw [if_neg pads] at after
    have there : blocks[block]? = some blocks[block] := Array.getElem?_eq_getElem below
    refine .kept there (after.trans there) fun widened => ?_
    obtain ⟨jump, member, rfl⟩ := List.mem_map.1 (List.mem_toFinset.1 widened)
    cases conditional : jump.unconditional with
    | true => exact pads (mem_padNames.2 ⟨jump, member, conditional, rfl⟩)
    | false => exact whole (mem_splitNames.2 ⟨jump, member, conditional, rfl⟩)

/-- Padding and splitting rewrite a block of the layout in place. -/
theorem Chosen.rewritten (chosen : Chosen blocks order far)
    (inside : ∀ block ∈ order, block < blocks.size)
    (targets : ∀ block ∈ order, ∀ code, blocks[block]? = some code →
      ∀ target unconditional, shortTarget? code.branch = some (target, unconditional) →
        target < blocks.size)
    {block : Nat} (placed : block ∈ order) :
    Rewritten pad blank blocks (rewriteBlocks pad blank far blocks) (far.map Jump.block).toFinset
      block (partsOf (splitTable blocks.size far) block) := by
  rw [rewriteBlocks]
  have padded := foldl_modify (widenJump pad) chosen.padNames_nodup blocks
  have size := size_foldl_modify (widenJump pad) (padNames far) blocks
  have frames := frame_foldl_modify pad chosen.padNames_nodup blocks
  generalize (padNames far).foldl (fun blocks block => blocks.modify block (widenJump pad))
    blocks = paddedBlocks at padded size frames
  have unpadded : ∀ block ∈ splitNames far, paddedBlocks[block]? = blocks[block]? := by
    intro block split
    rw [padded, if_neg (chosen.apart split)]
  have conditional : ∀ block ∈ splitNames far, ∃ code condition target next,
      paddedBlocks[block]? = some code ∧ code.branch = .conditional condition target next ∧
        target < paddedBlocks.size := by
    intro block split
    obtain ⟨placed, code, condition, target, next, there, branch, short⟩ :=
      chosen.exists_conditional split
    exact ⟨code, condition, target, next, (unpadded block split).trans there, branch,
      size ▸ targets block placed code there target false short⟩
  have numbered : ∀ index block, (splitNames far)[index]? = some block →
      firstPart blocks.size far block = paddedBlocks.size + 2 * index := by
    intro index block there
    rw [size]
    exact firstPart_eq chosen.splitNames_nodup there
  obtain ⟨kept, splits⟩ := foldl_splitBranch blank (firstPart blocks.size far) numbered
    chosen.splitNames_nodup conditional
  rw [size] at kept
  rcases partsOf_splitTable chosen.splitNames_nodup blocks.size block with
    ⟨whole, parts⟩ | ⟨index, position, parts⟩
  · rw [parts]
    have below := inside block placed
    exact chosen.rewritten_whole below whole ((kept block below whole).trans (padded block))
  · rw [parts]
    have split := List.mem_of_getElem? position
    obtain ⟨code, condition, target, next, found, branch, -⟩ := conditional block split
    have splitAt := splits block split code condition target next found branch
    rw [firstPart_eq chosen.splitNames_nodup position] at splitAt
    rw [unpadded block split] at found
    obtain ⟨jump, member, -, rfl⟩ := mem_splitNames.1 split
    exact .split found branch (by omega) (splitAt.of_frame (frames target))
      (List.mem_toFinset.2 (List.mem_map_of_mem member))

/-- Padding and splitting rewrite every block of a layout in place. -/
theorem Chosen.rewriting [Wide ι] (chosen : Chosen blocks order far) (plain : Plain blocks order)
    (widened : Nat) :
    Rewriting pad blank blocks order
      { blocks := rewriteBlocks pad blank far blocks
        order := order.flatMap (partsOf (splitTable blocks.size far))
        widened }
      (far.map Jump.block).toFinset (partsOf (splitTable blocks.size far)) where
  order_eq := rfl
  distinct := flatMap_partsOf_nodup chosen.splitNames_nodup plain.distinct plain.inside
  rewritten _ placed := chosen.rewritten plain.inside (fun _ placed _ there target _ short =>
    plain.inside target (plain.targetPlaced placed there short)) placed

/-- Splitting adds two blocks for every branch, and all of them are laid out. -/
theorem Chosen.covers (chosen : Chosen blocks order far)
    (whole : ∀ block < blocks.size, block ∈ order) :
    ∀ block < (rewriteBlocks pad blank far blocks).size,
      block ∈ order.flatMap (partsOf (splitTable blocks.size far)) := by
  intro block below
  have distinct := chosen.splitNames_nodup
  rcases Nat.lt_or_ge block blocks.size with old | new
  · refine List.mem_flatMap_of_mem (whole block old) ?_
    rcases partsOf_splitTable distinct blocks.size block with ⟨-, parts⟩ | ⟨_, -, parts⟩ <;>
      rw [parts] <;> exact List.mem_cons_self
  · have bound := size_foldl_splitBranch_le blank (firstPart blocks.size far) (splitNames far)
      ((padNames far).foldl (fun blocks block => blocks.modify block (widenJump pad)) blocks)
    rw [size_foldl_modify] at bound
    rw [rewriteBlocks] at below
    have inside : (block - blocks.size) / 2 < (splitNames far).length := by omega
    have there := List.getElem?_eq_getElem inside
    obtain ⟨jump, member, -, same⟩ := mem_splitNames.1 (List.mem_of_getElem? there)
    refine List.mem_flatMap_of_mem (same ▸ (chosen.short jump member).1) ?_
    rw [partsOf, splitTable_getElem? distinct there]
    simp only [List.mem_cons, List.not_mem_nil, or_false]
    omega

/-- Where all blocks are laid out, so are all new ones. -/
theorem widen_covers [Wide ι] (once : SplitOnce range blocks order) (pad : ι) (blank : φ)
    (whole : ∀ block < blocks.size, block ∈ order) :
    ∀ block < (widen range pad blank blocks order).blocks.size,
      block ∈ (widen range pad blank blocks order).order := by
  rw [widen_eq_chosen once]
  exact (chosen_chosenJumps range blocks order).covers whole

theorem widened_widen [Wide ι] (plain : Plain blocks order) (around : range.Around) (pad : ι)
    (blank : φ) : (widen range pad blank blocks order).widened =
      (farJumps range blocks order).toList.length := by
  have distinct := ((farJumps_widens plain).least plain around).2
  rw [widen_eq_chosen (splitOnce_of_nodup range blocks plain.distinct),
    (chosenJumps_perm distinct).length_eq]

/-- Widening rewrites every block of a layout in place, and the widened branches
are those that a run over its jumps widens. -/
theorem widen_rewriting [Wide ι] (plain : Plain blocks order) (around : range.Around) (pad : ι)
    (blank : φ) :
    ∃ parts, Rewriting pad blank blocks order (widen range pad blank blocks order)
      ((farJumps range blocks order).toList.map Jump.block).toFinset parts := by
  have distinct := ((farJumps_widens plain).least plain around).2
  rw [widen_eq_chosen (splitOnce_of_nodup range blocks plain.distinct),
    ← List.toFinset_eq_of_perm _ _ ((chosenJumps_perm distinct).map Jump.block)]
  exact ⟨_, (chosen_chosenJumps range blocks order).rewriting plain _⟩

end

end Widening
end ClassFile
