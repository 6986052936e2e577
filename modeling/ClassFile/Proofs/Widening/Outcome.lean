import Mathlib.Tactic.FinCases
import ClassFile.Proofs.Widening.Rewriting

namespace ClassFile
namespace Widening

/-!
# What a widened layout satisfies

The parts of a rewritten block are as wide as the block and its growth, so that
offsets in the new layout are the starts of the grown one.  With them the
distances of all new jumps are known, up to the range and in the direction in
which their targets lie.
-/

/-- The target of a jump encoded in 32 bits. -/
def wideTarget? : Branch Nat Nat Nat → Option Nat
  | .gotoWide target | .jsrWide target _ => some target
  | _ => none

variable {φ ι : Type} [Wide ι]

/-- Where a block of a widened layout starts. -/
def Result.offset (result : Result φ ι) (block : Nat) : Nat :=
  (Layout.offsets result.blocks result.order)[block]?.getD 0

/-- Bytes from the branch of a block of a widened layout to a target. -/
def Result.distance (result : Result φ ι) (block : Nat) (code : Block φ ι) (target : Nat) : Int :=
  result.offset target - (result.offset block + code.bodyWidth : Nat)

section

variable {range : Range} {pad : ι} {blank : φ} {blocks : Array (Block φ ι)} {order : List Nat}
  {result : Result φ ι} {far : Finset Nat} {parts : Nat → List Nat} {block : Nat}

/-! ## Offsets -/

theorem bodyWidth_pad (onePad : Wide.width pad = 1) (code : Block φ ι)
    (branch : Branch Nat Nat Nat) :
    Block.bodyWidth ⟨code.frame, (code.instructions.push pad).push pad, branch⟩ =
      code.bodyWidth + 2 := by
  simp only [Block.bodyWidth, Array.toList_push, Wide.total_append, Wide.total_cons,
    Wide.total_nil, onePad]

theorem blockWidth_of_getElem? {blocks : Array (Block φ ι)} {code : Block φ ι}
    (there : blocks[block]? = some code) :
    Layout.blockWidth blocks block = code.bodyWidth + code.branch.width := by
  rw [Layout.blockWidth, there]
  rfl

omit [Wide ι] in
theorem growthOf_of_short {code : Block φ ι} {target : Nat} {unconditional : Bool}
    (there : blocks[block]? = some code)
    (short : shortTarget? code.branch = some (target, unconditional)) :
    growthOf blocks block = if unconditional then 4 else 8 := by
  rw [growthOf, there, Option.bind_some, short]

/-- The parts of a block take up as much as the block and its growth. -/
theorem Rewritten.width (onePad : Wide.width pad = 1) {part : List Nat}
    (rewritten : Rewritten pad blank blocks result.blocks far block part) :
    (part.map (Layout.blockWidth result.blocks)).sum = grownWidth blocks far block := by
  rw [grownWidth]
  cases rewritten with
  | kept before after near =>
    rw [if_neg near, List.map_singleton, List.sum_singleton, blockWidth_of_getElem? after,
      blockWidth_of_getElem? before, Nat.add_zero]
  | goto before branch after widened =>
    rw [if_pos widened, List.map_singleton, List.sum_singleton, blockWidth_of_getElem? after,
      blockWidth_of_getElem? before, bodyWidth_pad onePad,
      growthOf_of_short before (by rw [branch]; rfl), branch]
    rfl
  | jsr before branch after widened =>
    rw [if_pos widened, List.map_singleton, List.sum_singleton, blockWidth_of_getElem? after,
      blockWidth_of_getElem? before, bodyWidth_pad onePad,
      growthOf_of_short before (by rw [branch]; rfl), branch]
    rfl
  | split before branch fresh split widened =>
    rw [if_pos widened, growthOf_of_short before (by rw [branch]; rfl)]
    simp only [List.map_cons, List.map_nil, List.sum_cons, List.sum_nil,
      blockWidth_of_getElem? split.after, blockWidth_of_getElem? split.around,
      blockWidth_of_getElem? split.onward, blockWidth_of_getElem? before, branch]
    rfl

omit [Wide ι] in
theorem Rewritten.inside {part : List Nat}
    (rewritten : Rewritten pad blank blocks result.blocks far block part) {other : Nat}
    (member : other ∈ part) : other < result.blocks.size := by
  cases rewritten with
  | kept before after near =>
    obtain rfl := List.mem_singleton.1 member
    exact (Array.getElem?_eq_some_iff.1 after).1
  | goto before branch after widened =>
    obtain rfl := List.mem_singleton.1 member
    exact (Array.getElem?_eq_some_iff.1 after).1
  | jsr before branch after widened =>
    obtain rfl := List.mem_singleton.1 member
    exact (Array.getElem?_eq_some_iff.1 after).1
  | split before branch fresh split widened =>
    rcases List.mem_cons.1 member with rfl | member
    · exact (Array.getElem?_eq_some_iff.1 split.after).1
    rcases List.mem_cons.1 member with rfl | member
    · exact (Array.getElem?_eq_some_iff.1 split.around).1
    · obtain rfl := List.mem_singleton.1 member
      exact (Array.getElem?_eq_some_iff.1 split.onward).1

omit [Wide ι] in
theorem Rewritten.head {part : List Nat}
    (rewritten : Rewritten pad blank blocks result.blocks far block part) :
    (∃ rest, part = block :: rest) ∧ block < result.blocks.size := by
  have first : ∃ rest, part = block :: rest := by
    cases rewritten <;> exact ⟨_, rfl⟩
  obtain ⟨rest, rfl⟩ := first
  exact ⟨⟨rest, rfl⟩, rewritten.inside List.mem_cons_self⟩

theorem Rewriting.offset_part (onePad : Wide.width pad = 1)
    (rewriting : Rewriting pad blank blocks order result far parts) (once : order.Nodup)
    (placed : block ∈ order) (front : List Nat) {back : List Nat} {part : Nat} (here : parts block = front ++ part :: back)
    (inside : part < result.blocks.size) :
    result.offset part =
      grownStart blocks order far block + (front.map (Layout.blockWidth result.blocks)).sum := by
  obtain ⟨before, after, split⟩ := List.append_of_mem placed
  have whole : result.order = (before.flatMap parts ++ front) ++ part :: (back ++ after.flatMap parts) := by
    rw [rewriting.order_eq, split, List.flatMap_append, List.flatMap_cons, here]
    simp only [List.append_assoc, List.cons_append]
  have distinct := rewriting.distinct
  have partPlaced : part ∈ result.order := by
    rw [whole]
    exact List.mem_append_right _ List.mem_cons_self
  rw [Result.offset, Layout.offsets_getElem? distinct partPlaced inside, Option.getD_some]
  rw [whole] at distinct ⊢
  rw [Layout.startOf_append_cons distinct, List.map_append, List.sum_append]
  congr 1
  have widths : ∀ others ⊆ order, ((others.flatMap parts).map (Layout.blockWidth result.blocks)).sum =
      (others.map (grownWidth blocks far)).sum := by
    intro others
    induction others with
    | nil => exact fun _ => rfl
    | cons other rest ih =>
      intro contained
      rw [List.flatMap_cons, List.map_append, List.sum_append, List.map_cons, List.sum_cons,
        ih (List.subset_of_cons_subset contained),
        (rewriting.rewritten other (contained List.mem_cons_self)).width onePad]
  rw [grownStart, widths before (by rw [split]; exact List.subset_append_left _ _), split,
    Layout.startOf_append_cons (split ▸ once)]

theorem Rewriting.offset_block (onePad : Wide.width pad = 1)
    (rewriting : Rewriting pad blank blocks order result far parts) (plain : Plain blocks order)
    (placed : block ∈ order) : result.offset block = grownStart blocks order far block := by
  obtain ⟨⟨rest, here⟩, inside⟩ := (rewriting.rewritten block placed).head
  exact rewriting.offset_part onePad plain.distinct placed [] here inside

/-- The block that a conditional branch falls into starts where the branch and
its growth end. -/
theorem Plain.grownStart_next (plain : Plain blocks order) (far : Finset Nat) (placed : block ∈ order)
    {code : Block φ ι} {condition : Condition} {target next : Nat}
    (there : blocks[block]? = some code) (branch : code.branch = .conditional condition target next) :
    next ∈ order ∧
      grownStart blocks order far next =
        grownStart blocks order far block + grownWidth blocks far block := by
  obtain ⟨front, back, split⟩ := plain.follows block placed code there condition target next branch
  have once := plain.distinct
  have again : front ++ block :: next :: back = (front ++ [block]) ++ next :: back := by
    rw [List.append_assoc]
    rfl
  rw [split] at once
  constructor
  · rw [split, again]
    exact List.mem_append_right _ List.mem_cons_self
  · rw [grownStart, grownStart, split, Layout.startOf_append_cons once, again,
      Layout.startOf_append_cons (again ▸ once), List.map_append, List.sum_append,
      List.map_singleton, List.sum_singleton]

/-! ## Widened branches are out of range -/

/-- What one block adds to the start of another. -/
theorem grownStart_erase (plain : Plain blocks order) (placed : block ∈ order)
    (member : block ∈ far) (other : Nat) :
    grownStart blocks order far other =
      grownStart blocks order (far.erase block) other +
        if order.idxOf block < order.idxOf other then growthOf blocks block else 0 := by
  have widths : grownWidth blocks far = fun each =>
      grownWidth blocks (far.erase block) each + if each = block then growthOf blocks block else 0 := by
    funext each
    rw [grownWidth, grownWidth]
    by_cases same : each = block
    · subst same
      simp [member]
    · simp [same]
  have alone : Layout.startOf (fun each => if each = block then growthOf blocks block else 0)
      order other = if order.idxOf block < order.idxOf other then growthOf blocks block else 0 := by
    rw [Layout.startOf_eq_sum plain.distinct]
    rw [← List.sum_toFinset _ plain.distinct]
    rw [Finset.sum_eq_single_of_mem block (List.mem_toFinset.2 placed)]
    · rw [if_pos rfl]
    · intro each _ different
      rw [if_neg different, ite_self]
  rw [grownStart, widths, Layout.startOf_add, alone, grownStart]

/-- A widened branch would be out of range if it alone was left as it is. -/
theorem outside_of_isLeast (plain : Plain blocks order) (around : range.Around)
    (least : IsLeast {far : Finset Nat | Enough range blocks order far} far)
    (member : block ∈ far) :
    block ∈ order ∧ ∃ code target unconditional, blocks[block]? = some code ∧
      shortTarget? code.branch = some (target, unconditional) ∧
        range.contains (grownDistance blocks order (far.erase block) block code target) = false := by
  by_contra fits
  have enough : Enough range blocks order (far.erase block) := by
    intro other placed code there target unconditional short outside
    by_cases same : other = block
    · subst same
      by_contra far
      rw [Bool.not_eq_true] at far
      exact fits ⟨placed, code, target, unconditional, there, short, far⟩
    · have stays : other ∉ far := fun inside => outside (Finset.mem_erase.2 ⟨same, inside⟩)
      have found := jumpAt_of_short range order there short
      have contained := least.1 other placed code there target unconditional short stays
      rw [grownDistance_eq_among plain placed there short stays found] at contained
      rw [grownDistance_eq_among plain placed there short outside found]
      refine Jump.contains_among_of_le around (Jump.added_le_of_subperm ?_ _) contained
      refine (List.monotone_filter_right _ fun jump inside => ?_).subperm
      exact decide_eq_true (Finset.mem_of_mem_erase (of_decide_eq_true inside))
  exact Finset.notMem_erase block far (least.2 enough member)

/-- How far beyond the range the target of a widened branch is. -/
theorem far_of_isLeast (plain : Plain blocks order) (around : range.Around)
    (least : IsLeast {far : Finset Nat | Enough range blocks order far} far)
    (member : block ∈ far) {code : Block φ ι} {target : Nat} {unconditional : Bool}
    (there : blocks[block]? = some code)
    (short : shortTarget? code.branch = some (target, unconditional)) :
    range.high + growthOf blocks block < grownDistance blocks order far block code target ∨
      grownDistance blocks order far block code target < range.low := by
  obtain ⟨placed, code', target', unconditional', there', short', outside⟩ :=
    outside_of_isLeast plain around least member
  obtain rfl := Option.some.inj (there.symm.trans there')
  obtain ⟨rfl, -⟩ := Prod.mk.inj (Option.some.inj (short.symm.trans short'))
  rw [Bool.eq_false_iff, Ne, Range.contains_iff] at outside
  obtain ⟨low, high⟩ := around
  have own := grownStart_erase plain placed member block
  have other := grownStart_erase plain placed member target
  rw [if_neg (lt_irrefl _), Nat.add_zero] at own
  rw [grownDistance, own, other]
  rw [grownDistance] at outside
  rcases lt_or_ge (order.idxOf block) (order.idxOf target) with forward | backward
  · rw [if_pos forward]
    have start := Layout.startOf_eq_add_between (grownWidth blocks (far.erase block))
      plain.distinct forward.le
    have body := Layout.le_between (grownWidth blocks (far.erase block)) placed le_rfl forward
    rw [grownWidth, blockWidth_of_getElem? there] at body
    rw [← grownStart, ← grownStart] at start
    left
    omega
  · rw [if_neg (by omega)]
    have start := Layout.startOf_eq_add_between (grownWidth blocks (far.erase block))
      plain.distinct backward
    rw [← grownStart, ← grownStart] at start
    right
    omega

/-! ## Distances of the new jumps -/

/-- The jump of a laid out block, if it has one, reaches its target exactly if it
is short. -/
def Result.Reaches (result : Result φ ι) (range : Range) (block : Nat) : Prop :=
  ∃ code, result.blocks[block]? = some code ∧
    (∀ target unconditional, shortTarget? code.branch = some (target, unconditional) →
      range.contains (result.distance block code target) = true) ∧
    ∀ target, wideTarget? code.branch = some target →
      range.contains (result.distance block code target) = false

/-- The jump of a laid out block, if it is short, reaches its target. -/
def Result.ReachesShort (result : Result φ ι) (range : Range) (block : Nat) : Prop :=
  ∃ code, result.blocks[block]? = some code ∧
    ∀ target unconditional, shortTarget? code.branch = some (target, unconditional) →
      range.contains (result.distance block code target) = true

theorem Result.Reaches.short (reaches : result.Reaches range block) :
    result.ReachesShort range block := by
  obtain ⟨code, there, fits, -⟩ := reaches
  exact ⟨code, there, fits⟩

theorem Result.ReachesShort.reaches (fits : result.ReachesShort range block) {code : Block φ ι}
    (after : result.blocks[block]? = some code) (narrow : wideTarget? code.branch = none) :
    result.Reaches range block := by
  obtain ⟨code', after', fits⟩ := fits
  obtain rfl := Option.some.inj (after.symm.trans after')
  refine ⟨code, after, fits, fun target wide => ?_⟩
  rw [narrow] at wide
  cases wide

theorem Rewriting.reaches_kept (rewriting : Rewriting pad blank blocks order result far parts)
    (onePad : Wide.width pad = 1) (plain : Plain blocks order)
    (enough : Enough range blocks order far) (placed : block ∈ order) {code : Block φ ι}
    (there : blocks[block]? = some code) (after : result.blocks[block]? = some code)
    (near : block ∉ far) : result.ReachesShort range block := by
  refine ⟨code, after, fun target unconditional short => ?_⟩
  have fits := enough block placed code there target unconditional short near
  rwa [Result.distance, rewriting.offset_block onePad plain placed,
    rewriting.offset_block onePad plain (plain.targetPlaced placed there short)]

/-- A wide jump after some bytes of a widened block, no more of them than it
grew by, goes beyond the range. -/
theorem Rewriting.reaches_wide (rewriting : Rewriting pad blank blocks order result far parts)
    (onePad : Wide.width pad = 1) (plain : Plain blocks order) (around : range.Around)
    (least : IsLeast {far : Finset Nat | Enough range blocks order far} far)
    (widened : block ∈ far) (placed : block ∈ order) {code wide : Block φ ι} {target part : Nat}
    {unconditional : Bool} (there : blocks[block]? = some code)
    (short : shortTarget? code.branch = some (target, unconditional))
    (after : result.blocks[part]? = some wide) (onward : wideTarget? wide.branch = some target)
    (only : shortTarget? wide.branch = none)
    (moved : ∃ bytes ≤ growthOf blocks block, result.offset part + wide.bodyWidth =
      grownStart blocks order far block + code.bodyWidth + bytes) :
    result.Reaches range part := by
  refine ⟨wide, after, fun target unconditional near => ?_, fun target' isTarget => ?_⟩
  · rw [only] at near
    cases near
  · obtain rfl := Option.some.inj (onward.symm.trans isTarget)
    obtain ⟨bytes, within, start⟩ := moved
    have beyond := far_of_isLeast plain around least widened there short
    rw [Result.distance, start,
      rewriting.offset_block onePad plain (plain.targetPlaced placed there short)]
    rw [grownDistance] at beyond
    rw [Bool.eq_false_iff, Ne, Range.contains_iff]
    omega

/-- A jump that is widened behind two paddings goes beyond the range. -/
theorem Rewriting.reaches_padded (rewriting : Rewriting pad blank blocks order result far parts)
    (onePad : Wide.width pad = 1) (plain : Plain blocks order) (around : range.Around)
    (least : IsLeast {far : Finset Nat | Enough range blocks order far} far)
    (widened : block ∈ far) (placed : block ∈ order) {code : Block φ ι}
    {wide : Branch Nat Nat Nat} {target : Nat} (there : blocks[block]? = some code)
    (short : shortTarget? code.branch = some (target, true))
    (after : result.blocks[block]? = some
      ⟨code.frame, (code.instructions.push pad).push pad, wide⟩)
    (onward : wideTarget? wide = some target) (only : shortTarget? wide = none) :
    result.Reaches range block := by
  refine rewriting.reaches_wide onePad plain around least widened placed there short after
    onward only ⟨2, ?_, ?_⟩
  · rw [growthOf_of_short there short]
    decide
  · rw [rewriting.offset_block onePad plain placed, bodyWidth_pad onePad, Nat.add_assoc]

/-- After the least set of blocks that is enough was rewritten, all jumps reach their
targets, those that were wide before left out. -/
theorem Rewriting.reaches_or_kept (rewriting : Rewriting pad blank blocks order result far parts)
    (onePad : Wide.width pad = 1) (plain : Plain blocks order)
    (low : range.low ≤ 0) (high : 8 ≤ range.high)
    (least : IsLeast {far : Finset Nat | Enough range blocks order far} far) :
    ∀ part ∈ result.order, result.Reaches range part ∨
      ∃ code, part ∈ order ∧ blocks[part]? = some code ∧ result.blocks[part]? = some code ∧
        result.ReachesShort range part := by
  intro part partPlaced
  have around : range.Around := ⟨low, by omega⟩
  rw [rewriting.order_eq, List.mem_flatMap] at partPlaced
  obtain ⟨block, placed, member⟩ := partPlaced
  have rewritten := rewriting.rewritten block placed
  have offset : ∀ (front : List Nat) {back : List Nat} {part : Nat}, parts block = front ++ part :: back →
      part < result.blocks.size → result.offset part = grownStart blocks order far block +
        (front.map (Layout.blockWidth result.blocks)).sum :=
    fun front _ _ here inside => rewriting.offset_part onePad plain.distinct placed front here inside
  generalize here : parts block = list at rewritten member
  rw [here] at offset
  cases rewritten with
  | kept before after near =>
    obtain rfl := List.mem_singleton.1 member
    exact .inr ⟨_, placed, before, after,
      rewriting.reaches_kept onePad plain least.1 placed before after near⟩
  | goto before branch after widened | jsr before branch after widened =>
    obtain rfl := List.mem_singleton.1 member
    exact .inl (rewriting.reaches_padded onePad plain around least widened placed before
      (by rw [branch]; rfl) after rfl rfl)
  | @split code condition target next first before branch fresh split widened =>
    have short : shortTarget? code.branch = some (target, false) := by rw [branch]; rfl
    have growth := growthOf_of_short before short
    have atBlock := offset [] rfl (Array.getElem?_eq_some_iff.1 split.after).1
    have atAround := offset [block] rfl (Array.getElem?_eq_some_iff.1 split.around).1
    have atOnward := offset [block, first] rfl
      (Array.getElem?_eq_some_iff.1 split.onward).1
    have width : Layout.blockWidth result.blocks block = code.bodyWidth + 3 :=
      blockWidth_of_getElem? split.after
    have aroundWidth : Layout.blockWidth result.blocks first = 3 :=
      blockWidth_of_getElem? split.around
    simp only [List.map_cons, List.map_nil, List.sum_cons, List.sum_nil, width, aroundWidth]
      at atBlock atAround atOnward
    have body : Block.bodyWidth ⟨code.frame, code.instructions,
        .conditional condition (first + 1) first⟩ = code.bodyWidth := rfl
    have empty : ∀ (frame : φ) (branch : Branch Nat Nat Nat),
        Block.bodyWidth (⟨frame, #[], branch⟩ : Block φ ι) = 0 := fun _ _ => rfl
    rcases List.mem_cons.1 member with rfl | member
    · refine .inl ⟨_, split.after, fun target' _ near => ?_, fun _ wide => by cases wide⟩
      obtain ⟨rfl, -⟩ := Prod.mk.inj (Option.some.inj near)
      rw [Result.distance, atBlock, atOnward, body, Range.contains_iff]
      omega
    rcases List.mem_cons.1 member with rfl | member
    · refine .inl ⟨_, split.around, fun target' _ near => ?_, fun _ wide => by cases wide⟩
      obtain ⟨rfl, -⟩ := Prod.mk.inj (Option.some.inj near)
      obtain ⟨nextPlaced, atNext⟩ := plain.grownStart_next far placed before branch
      rw [grownWidth, if_pos widened, growth, blockWidth_of_getElem? before, branch] at atNext
      have three : (.conditional condition target next : Branch Nat Nat Nat).width = 3 := rfl
      rw [Result.distance, atAround, rewriting.offset_block onePad plain nextPlaced, atNext, empty,
        three, Range.contains_iff]
      simp only [Bool.false_eq_true, if_false]
      omega
    · obtain rfl := List.mem_singleton.1 member
      refine .inl (rewriting.reaches_wide onePad plain around least widened placed before short
        split.onward rfl rfl ⟨6, ?_, ?_⟩)
      · rw [growth]
        decide
      · rw [atOnward, empty]
        omega

/-- Where no jump was wide before, all jumps reach their targets. -/
theorem Rewriting.reaches (rewriting : Rewriting pad blank blocks order result far parts)
    (onePad : Wide.width pad = 1) (plain : Plain blocks order)
    (narrow : ∀ block ∈ order, ∀ code, blocks[block]? = some code → wideTarget? code.branch = none)
    (low : range.low ≤ 0) (high : 8 ≤ range.high)
    (least : IsLeast {far : Finset Nat | Enough range blocks order far} far) :
    ∀ part ∈ result.order, result.Reaches range part := by
  intro part placed
  rcases rewriting.reaches_or_kept onePad plain low high least part placed with
    reaches | ⟨code, placed, before, after, fits⟩
  · exact reaches
  · exact fits.reaches after (narrow part placed code before)

/-- In a widened layout every short jump is within range. -/
theorem widen_reachesShort (plain : Plain blocks order) (low : range.low ≤ 0)
    (high : 8 ≤ range.high) (pad : ι) (onePad : Wide.width pad = 1) (blank : φ) :
    ∀ block ∈ (widen range pad blank blocks order).order,
      (widen range pad blank blocks order).ReachesShort range block := by
  have around : range.Around := ⟨low, by omega⟩
  obtain ⟨least, -⟩ := (farJumps_widens plain).least plain around
  obtain ⟨parts, rewriting⟩ := widen_rewriting plain around pad blank
  intro block placed
  rcases rewriting.reaches_or_kept onePad plain low high least block placed with
    reaches | ⟨_, -, -, -, fits⟩
  · exact reaches.short
  · exact fits

/-- In a widened layout every short jump is within range and every wide one is
not.  The branches that were widened are the least set that is enough, and any
run over the jumps of the layout, whatever it takes next, widens the same. -/
theorem widen_reaches_with_least (plain : Plain blocks order)
    (narrow : ∀ block ∈ order, ∀ code, blocks[block]? = some code → wideTarget? code.branch = none)
    (low : range.low ≤ 0) (high : 8 ≤ range.high) (pad : ι) (onePad : Wide.width pad = 1)
    (blank : φ) :
    ∃ far parts,
      Rewriting pad blank blocks order (widen range pad blank blocks order) far parts ∧
      (∀ block ∈ (widen range pad blank blocks order).order,
        (widen range pad blank blocks order).Reaches range block) ∧
      IsLeast {far : Finset Nat | Enough range blocks order far} far ∧
      far.card = (widen range pad blank blocks order).widened ∧
      ∀ widened, Widens range blocks order widened → (widened.map Jump.block).toFinset = far := by
  have around : range.Around := ⟨low, by omega⟩
  obtain ⟨least, distinct⟩ := (farJumps_widens plain).least plain around
  obtain ⟨parts, rewriting⟩ := widen_rewriting plain around pad blank
  refine ⟨_, parts, rewriting, rewriting.reaches onePad plain narrow low high least, least, ?_,
    fun widened widens => (widens.least plain around).1.unique least⟩
  rw [List.toFinset_card_of_nodup distinct, List.length_map, widened_widen plain around]

/-- A branch over a long block and a jump back to it. -/
def loop : Array (Block Unit Nat) :=
  #[⟨(), #[], .conditional (.zero .eq) 2 1⟩, ⟨(), #[20], .goto 0⟩, ⟨(), #[], .stop⟩]

theorem widen_loop :
    ∃ far parts,
      Rewriting 1 () loop [0, 1, 2] (widen ⟨-8, 8⟩ 1 () loop [0, 1, 2]) far parts ∧
      (∀ block ∈ (widen ⟨-8, 8⟩ 1 () loop [0, 1, 2]).order,
        (widen ⟨-8, 8⟩ 1 () loop [0, 1, 2]).Reaches ⟨-8, 8⟩ block) ∧
      IsLeast {far : Finset Nat | Enough ⟨-8, 8⟩ loop [0, 1, 2] far} far ∧
      far.card = (widen ⟨-8, 8⟩ 1 () loop [0, 1, 2]).widened ∧
      ∀ widened, Widens ⟨-8, 8⟩ loop [0, 1, 2] widened →
        (widened.map Jump.block).toFinset = far := by
  refine widen_reaches_with_least ⟨by decide, by decide, ?_, ?_⟩ ?_ (by decide) (by decide) 1 rfl ()
  · intro block placed code there target
    fin_cases placed <;> obtain rfl := Option.some.inj there <;> decide +revert
  · intro block placed code there condition target next branch
    fin_cases placed <;> obtain rfl := Option.some.inj there
    · obtain ⟨-, -, rfl⟩ := Branch.conditional.inj branch
      exact ⟨[], [2], rfl⟩
    · cases branch
    · cases branch
  · intro block placed code there
    fin_cases placed <;> obtain rfl := Option.some.inj there <;> rfl

end

/-! ## A single branch -/

section

variable {range : Range} {pad : ι} {blank : φ} {blocks : Array (Block φ ι)} {order : List Nat}
  {block : Nat} {code : Block φ ι}

/-- The only short branch of a layout is the least that has to be widened if it is out of
range. -/
theorem isLeast_singleton (there : blocks[block]? = some code) {target : Nat} {unconditional : Bool}
    (placed : block ∈ order) (short : shortTarget? code.branch = some (target, unconditional))
    (only : ∀ other code, blocks[other]? = some code → other ≠ block →
      shortTarget? code.branch = none)
    (far : range.contains (grownDistance blocks order ∅ block code target) = false) :
    IsLeast {far : Finset Nat | Enough range blocks order far} {block} := by
  constructor
  · intro other _ found isCode target unconditional short apart
    rw [only other found isCode fun same => apart (Finset.mem_singleton.2 same)] at short
    cases short
  · intro others enough
    refine Finset.singleton_subset_iff.2 (by_contra fun apart => ?_)
    -- No other block can grow, so the distance is as it was.
    have widths : grownWidth blocks others = grownWidth blocks ∅ := by
      funext other
      rw [grownWidth, grownWidth, if_neg (Finset.notMem_empty other)]
      split
      · next member =>
        have still : growthOf blocks other = 0 := by
          rw [growthOf]
          cases found : blocks[other]? with
          | none => rfl
          | some isCode =>
            rw [Option.bind_some, only other isCode found fun same => apart (same ▸ member)]
        rw [still]
      · rfl
    have reaches := enough block placed code there target unconditional short apart
    rw [grownDistance, grownStart, grownStart, widths] at reaches
    cases far.symm.trans reaches

/-- Where the only short branch is conditional and out of range, it is split. -/
theorem widen_one (plain : Plain blocks order) (around : range.Around)
    (there : blocks[block]? = some code) {condition : Condition} {target next : Nat}
    (placed : block ∈ order) (isBranch : code.branch = .conditional condition target next)
    (only : ∀ other code, blocks[other]? = some code → other ≠ block →
      shortTarget? code.branch = none)
    (far : range.contains (grownDistance blocks order ∅ block code target) = false) :
    widen range pad blank blocks order = {
      blocks := splitBranch blank blocks.size blocks block
      order := order.flatMap fun part =>
        if part = block then [block, blocks.size, blocks.size + 1] else [part]
      widened := 1 } := by
  have short : shortTarget? code.branch = some (target, false) := by rw [isBranch]; rfl
  obtain ⟨least, once⟩ := (farJumps_widens plain).least plain around
  have same := least.unique (isLeast_singleton there placed short only far)
  have chosen := chosen_chosenJumps range blocks order
  rw [← List.toFinset_eq_of_perm _ _ ((chosenJumps_perm once).map Jump.block)] at same
  obtain ⟨jump, isJump, isBlock⟩ : ∃ jump, chosenJumps range blocks order = [jump] ∧
      jump.block = block := by
    rw [← List.map_eq_singleton_iff, ← List.perm_singleton]
    exact List.perm_of_nodup_nodup_toFinset_eq chosen.distinct (List.nodup_singleton block) same
  have conditional : jump.unconditional = false := by
    obtain ⟨-, code', target', there', short'⟩ := chosen.short jump (isJump ▸ List.mem_singleton_self jump)
    rw [isBlock] at there'
    obtain rfl := Option.some.inj (there.symm.trans there')
    exact (Prod.mk.inj (Option.some.inj (short.symm.trans short'))).2.symm
  have splits : splitNames [jump] = [block] := by
    rw [splitNames, List.filter_cons_of_pos (by rw [conditional]; rfl), List.filter_nil,
      List.map_singleton, isBlock]
  have pads : padNames [jump] = [] := by
    rw [padNames, List.filter_cons_of_neg (by rw [conditional]; exact Bool.false_ne_true)]
    rfl
  have distinct : (splitNames [jump]).Nodup := splits ▸ List.nodup_singleton block
  have number : firstPart blocks.size [jump] block = blocks.size :=
    firstPart_eq distinct (by rw [splits, List.getElem?_cons_zero])
  have table : ∀ part, partsOf (splitTable blocks.size [jump]) part =
      if part = block then [block, blocks.size, blocks.size + 1] else [part] := by
    intro part
    rcases partsOf_splitTable distinct blocks.size part with
      ⟨absent, isPart⟩ | ⟨index, isSplit, isPart⟩
    · rw [isPart, if_neg fun same => absent (splits ▸ List.mem_singleton.2 same)]
    · rw [splits, List.getElem?_singleton] at isSplit
      split at isSplit
      · next first =>
        obtain rfl := Option.some.inj isSplit
        rw [isPart, if_pos rfl, first, Nat.mul_zero, Nat.add_zero]
      · cases isSplit
  rw [widen_eq_chosen (splitOnce_of_nodup _ blocks plain.distinct), isJump, rewriteBlocks, splits,
    pads, funext table, List.foldl_cons, List.foldl_nil, List.foldl_nil, number]
  rfl

end

end Widening
end ClassFile
