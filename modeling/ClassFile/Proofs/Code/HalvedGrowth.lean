import Mathlib.Data.Finset.Preimage
import ClassFile.Proofs.Code.Laying
import ClassFile.Proofs.Graph.Halving

namespace ClassFile

/-!
# Growth of cut blocks

Cutting a block in two moves no bytes.  The first half has no branch, so it neither needs
padding nor grows, and every branch is where it was.  So the same switches are padded
alike, the same branches are out of range, and all blocks start where they did.
-/

open FlowGraph (Halved past past_of_le past_of_lt past_succ firstHalf secondHalf branchAt
  branchAt_of_ne branchAt_cut branchAt_injective branchAt_ne eq_branchAt)

/-! ## Switches -/

section

variable {number : Nat → Nat}

theorem Branch.withPadding_renumber (branch : Branch Nat Nat Nat) (padding : Nat) :
    (branch.renumber number).withPadding padding = (branch.withPadding padding).renumber number := by
  cases branch <;> rfl

end

namespace Assembly

/-- A block at an offset with its switch padded. -/
def padded (offset : Nat) (code : CodeBlock) : CodeBlock :=
  { code with branch := code.branch.withPadding (Branch.paddingAt (offset + code.bodyWidth)) }

theorem alignedFrom_cons (offset : Nat) (code : CodeBlock) (rest : List CodeBlock) :
    alignedFrom offset (code :: rest) =
      padded offset code :: alignedFrom (offset + (padded offset code).width) rest :=
  rfl

theorem alignedFrom_append (offset : Nat) (front back : List CodeBlock) :
    alignedFrom offset (front ++ back) = alignedFrom offset front ++
      alignedFrom (offset + ((alignedFrom offset front).map Block.width).sum) back := by
  induction front generalizing offset with
  | nil => rfl
  | cons code front ih =>
    rw [List.cons_append, alignedFrom_cons, alignedFrom_cons, ih, List.map_cons, List.sum_cons,
      Nat.add_assoc, List.cons_append]

theorem padded_renumber (number : Nat → Nat) (offset : Nat) (code : CodeBlock) :
    padded offset (code.renumber number) = (padded offset code).renumber number :=
  congrArg (Block.mk _ _) (code.branch.withPadding_renumber _)

theorem alignedFrom_renumber (number : Nat → Nat) (offset : Nat) (blocks : List CodeBlock) :
    alignedFrom offset (blocks.map (Block.renumber number)) =
      (alignedFrom offset blocks).map (Block.renumber number) := by
  induction blocks generalizing offset with
  | nil => rfl
  | cons code blocks ih =>
    rw [List.map_cons, alignedFrom_cons, padded_renumber, Block.width_renumber, ih, alignedFrom_cons,
      List.map_cons]

section

variable {cut : Nat} {code : CodeBlock} {head tail : List Instruction}
  (whole : code.instructions.toList = head ++ tail)
include whole

theorem bodyWidth_halves :
    (firstHalf cut code head).bodyWidth + (secondHalf cut code tail).bodyWidth = code.bodyWidth := by
  rw [Block.bodyWidth, Block.bodyWidth, Block.bodyWidth, whole, Wide.total_append]
  rfl

theorem width_halves :
    (firstHalf cut code head).width + (secondHalf cut code tail).width = code.width := by
  have silent : (firstHalf cut code head).branch.width = 0 := rfl
  have branch : (secondHalf cut code tail).branch.width = code.branch.width :=
    Branch.width_renumber (past cut) code.branch
  rw [Block.width, Block.width, Block.width, ← @bodyWidth_halves cut _ _ _ whole]
  omega

/-- The switch at the end of the second half is padded like that of the block. -/
theorem alignedFrom_halves (offset : Nat) (after : List CodeBlock) :
    alignedFrom offset (firstHalf cut code head :: secondHalf cut code tail :: after) =
      firstHalf cut (padded offset code) head :: secondHalf cut (padded offset code) tail ::
        alignedFrom (offset + (padded offset code).width) after := by
  have first : padded offset (firstHalf cut code head) = firstHalf cut (padded offset code) head := rfl
  have second : padded (offset + (firstHalf cut (padded offset code) head).width)
      (secondHalf cut code tail) = secondHalf cut (padded offset code) tail := by
    have here : offset + (firstHalf cut (padded offset code) head).width +
        (secondHalf cut code tail).bodyWidth = offset + code.bodyWidth := by
      rw [← @bodyWidth_halves cut _ _ _ whole, ← Nat.add_assoc]
      rfl
    rw [padded, here]
    exact congrArg (Block.mk _ _) (code.branch.withPadding_renumber _)
  have wholePadded : (padded offset code).instructions.toList = head ++ tail := whole
  rw [alignedFrom_cons, first, alignedFrom_cons, second, Nat.add_assoc, width_halves wholePadded]

end

/-- Switches are padded alike when a block is cut. -/
theorem alignSwitches_halved {cut : Nat} {code : CodeBlock} {head tail : List Instruction}
    {blocks others : Array CodeBlock} (halved : Halved cut code head tail blocks others) :
    ∃ offset, Halved cut (padded offset code) head tail (alignSwitches blocks)
      (alignSwitches others) := by
  obtain ⟨before, after, isBefore, split, split'⟩ := halved.split
  have same : ((alignedFrom 0 (before.map (Block.renumber (past cut)))).map Block.width).sum =
      ((alignedFrom 0 before).map Block.width).sum := by
    rw [alignedFrom_renumber, List.map_map]
    exact congrArg List.sum (List.map_congr_left fun code _ => Block.width_renumber _ code)
  generalize isOffset : 0 + ((alignedFrom 0 before).map Block.width).sum = offset
  refine ⟨offset, halved.some_, halved.whole, alignedFrom 0 before,
    alignedFrom (offset + (padded offset code).width) after, ?_, ?_, ?_⟩
  · rw [length_alignedFrom, isBefore]
  · rw [alignSwitches_eq, split, alignedFrom_append, alignedFrom_cons, isOffset]
  · rw [alignSwitches_eq, split', alignedFrom_append, same, isOffset, alignedFrom_halves halved.whole,
      alignedFrom_renumber, alignedFrom_renumber]

end Assembly

namespace Widening

open Assembly (around_short width_halves bodyWidth_halves)

section

variable {cut : Nat} {cutCode : CodeBlock} {head tail : List Instruction}
  {blocks others : Array CodeBlock} (halved : Halved cut cutCode head tail blocks others)
  {far far' : Finset Nat} {block : Nat}
include halved

/-! ## Widths -/

/-- A block and the one with its branch. -/
theorem exists_branchAt {code : CodeBlock} (there : blocks[block]? = some code) :
    ∃ code', others[branchAt cut block]? = some code' ∧
      code'.branch = code.branch.renumber (past cut) := by
  by_cases same : block = cut
  · subst same
    obtain rfl := Option.some.inj (halved.there.symm.trans there)
    rw [branchAt_cut]
    exact ⟨_, halved.second, rfl⟩
  · rw [branchAt_of_ne same, halved.apart same, there]
    exact ⟨_, rfl, rfl⟩

theorem blockWidth_apart (apart : block ≠ cut) :
    Layout.blockWidth others (past cut block) = Layout.blockWidth blocks block := by
  rw [Layout.blockWidth, Layout.blockWidth, halved.apart apart]
  cases blocks[block]? with
  | none => rfl
  | some code => exact Block.width_renumber (past cut) code

theorem blockWidth_halves : Layout.blockWidth others cut + Layout.blockWidth others (cut + 1) =
    Layout.blockWidth blocks cut := by
  rw [Layout.blockWidth, Layout.blockWidth, Layout.blockWidth, halved.first, halved.second,
    halved.there]
  exact width_halves halved.whole

omit halved in
theorem shortTarget?_renumber (number : Nat → Nat) (branch : Branch Nat Nat Nat) :
    shortTarget? (branch.renumber number) =
      (shortTarget? branch).map fun (target, unconditional) => (number target, unconditional) := by
  cases branch <;> rfl

theorem growthOf_branchAt (block : Nat) :
    growthOf others (branchAt cut block) = growthOf blocks block := by
  rw [growthOf, growthOf]
  cases there : blocks[block]? with
  | none =>
    have apart : block ≠ cut := by
      rintro rfl
      cases there.symm.trans halved.there
    rw [branchAt_of_ne apart, halved.apart apart, there]
    rfl
  | some code =>
    obtain ⟨code', there', branch⟩ := exists_branchAt halved there
    rw [there', Option.bind_some, Option.bind_some, branch, shortTarget?_renumber]
    cases shortTarget? code.branch <;> rfl

theorem growthOf_cut : growthOf others cut = 0 := by
  rw [growthOf, halved.first]
  rfl

/-! ## Starts -/

omit halved in
/-- A block of an array in the order of its positions starts behind those before it. -/
theorem startOf_range_min (width : Nat → Nat) (count block : Nat) :
    Layout.startOf width (List.range count) block = ((List.range (min block count)).map width).sum := by
  rcases Nat.lt_or_ge block count with inside | outside
  · rw [Layout.startOf_range width inside, Nat.min_eq_left (Nat.le_of_lt inside)]
  · have absent : block ∉ List.range count := fun member =>
      Nat.not_lt_of_le outside (List.mem_range.1 member)
    rw [Layout.startOf, List.idxOf_eq_length absent, List.take_length, Nat.min_eq_right outside]

omit halved in
theorem sum_range_succ (width : Nat → Nat) (count : Nat) :
    ((List.range (count + 1)).map width).sum = ((List.range count).map width).sum + width count := by
  rw [List.range_succ, List.map_append, List.sum_append, List.map_singleton, List.sum_singleton]

variable (same : ∀ block, branchAt cut block ∈ far' ↔ block ∈ far)
include same

theorem grownWidth_apart (apart : block ≠ cut) :
    grownWidth others far' (past cut block) = grownWidth blocks far block := by
  have growth := growthOf_branchAt halved block
  have member := same block
  rw [branchAt_of_ne apart] at growth member
  rw [grownWidth, grownWidth, blockWidth_apart halved apart, growth]
  simp only [member]

theorem grownWidth_halves : grownWidth others far' cut + grownWidth others far' (cut + 1) =
    grownWidth blocks far cut := by
  have growth := growthOf_branchAt halved cut
  have member := same cut
  rw [branchAt_cut] at growth member
  have widths := blockWidth_halves halved
  rw [grownWidth, grownWidth, grownWidth, growthOf_cut halved, growth, ite_self, ← widths]
  simp only [member]
  omega

theorem sum_grownWidth (block : Nat) :
    ((List.range (past cut block)).map (grownWidth others far')).sum =
      ((List.range block).map (grownWidth blocks far)).sum := by
  induction block with
  | zero => rw [past_of_le (Nat.zero_le cut)]; rfl
  | succ block ih =>
    rw [past_succ, sum_range_succ, sum_range_succ]
    by_cases here : block = cut
    · subst here
      rw [past_of_le (Nat.le_refl block)] at ih
      rw [branchAt_cut, sum_range_succ, ih, Nat.add_assoc, grownWidth_halves halved same]
    · rw [branchAt_of_ne here, ih, grownWidth_apart halved same here]

/-- Blocks start where they did. -/
theorem grownStart_past (block : Nat) :
    grownStart others (List.range others.size) far' (past cut block) =
      grownStart blocks (List.range blocks.size) far block := by
  have inside := (Array.getElem?_eq_some_iff.1 halved.there).1
  have count : min (past cut block) others.size = past cut (min block blocks.size) := by
    rw [halved.size_eq]
    unfold past
    split_ifs <;> omega
  rw [grownStart, grownStart, startOf_range_min, startOf_range_min, count, sum_grownWidth halved same]

/-- The second half starts where the first one ends. -/
theorem grownStart_second :
    grownStart others (List.range others.size) far' (cut + 1) =
      grownStart blocks (List.range blocks.size) far cut + Wide.total head := by
  have inside := (Array.getElem?_eq_some_iff.1 halved.there).1
  have first := grownStart_past halved same cut
  have width : Layout.blockWidth others cut = Wide.total head := by
    rw [Layout.blockWidth, halved.first]
    rfl
  rw [past_of_le (Nat.le_refl cut)] at first
  rw [← first, grownStart, grownStart, Layout.startOf_range _ (by rw [halved.size_eq]; omega),
    Layout.startOf_range _ (by rw [halved.size_eq]; omega), sum_range_succ, grownWidth,
    growthOf_cut halved, ite_self, Nat.add_zero, width]

/-- Branches are where they were. -/
theorem grownStart_branchAt {code code' : CodeBlock} (there : blocks[block]? = some code)
    (there' : others[branchAt cut block]? = some code') :
    grownStart others (List.range others.size) far' (branchAt cut block) + code'.bodyWidth =
      grownStart blocks (List.range blocks.size) far block + code.bodyWidth := by
  by_cases here : block = cut
  · subst here
    obtain rfl := Option.some.inj (halved.there.symm.trans there)
    rw [branchAt_cut] at there' ⊢
    obtain rfl := Option.some.inj (halved.second.symm.trans there')
    rw [grownStart_second halved same, Nat.add_assoc, ← @bodyWidth_halves block _ _ _ halved.whole]
    rfl
  · rw [branchAt_of_ne here] at there' ⊢
    rw [halved.apart here, there] at there'
    obtain rfl := Option.some.inj there'
    rw [grownStart_past halved same, Block.bodyWidth_renumber]

/-! ## Branches out of range -/

theorem grownDistance_branchAt {code code' : CodeBlock} (there : blocks[block]? = some code)
    (there' : others[branchAt cut block]? = some code') (target : Nat) :
    grownDistance others (List.range others.size) far' (branchAt cut block) code' (past cut target) =
      grownDistance blocks (List.range blocks.size) far block code target := by
  rw [grownDistance, grownDistance, grownStart_branchAt halved same there there',
    grownStart_past halved same]

/-- It is enough to widen some branches if it was before. -/
theorem enough_halved (range : Range) : Enough range others (List.range others.size) far' ↔
    Enough range blocks (List.range blocks.size) far := by
  constructor
  · intro enough block placed code there target unconditional short near
    obtain ⟨code', there', branch⟩ := exists_branchAt halved there
    have inside := (Array.getElem?_eq_some_iff.1 there').1
    have reaches := enough (branchAt cut block) (List.mem_range.2 inside) code' there' (past cut target)
      unconditional (by rw [branch, shortTarget?_renumber, short]; rfl)
      fun member => near ((same block).1 member)
    rwa [grownDistance_branchAt halved same there there'] at reaches
  · intro enough block' placed' code' there' target' unconditional short' near'
    have apart : block' ≠ cut := by
      rintro rfl
      obtain rfl := Option.some.inj (halved.first.symm.trans there')
      cases short'
    obtain ⟨block, rfl⟩ := eq_branchAt apart
    have inside : block < blocks.size := by
      have inside' := List.mem_range.1 placed'
      have inCut := (Array.getElem?_eq_some_iff.1 halved.there).1
      rw [halved.size_eq] at inside'
      unfold branchAt at inside'
      split_ifs at inside' <;> omega
    have there := Array.getElem?_eq_getElem inside
    obtain ⟨code'', there'', branch⟩ := exists_branchAt halved there
    obtain rfl := Option.some.inj (there'.symm.trans there'')
    rw [branch, shortTarget?_renumber, Option.map_eq_some_iff] at short'
    obtain ⟨⟨target, isUnconditional⟩, short, isTarget⟩ := short'
    obtain ⟨rfl, rfl⟩ := Prod.mk.inj isTarget
    rw [grownDistance_branchAt halved same there there']
    exact enough block (List.mem_range.2 inside) _ there target isUnconditional short
      fun member => near' ((same block).2 member)

omit same in
/-- Just the same branches have to be widened. -/
theorem isLeast_halved {range : Range}
    (least : IsLeast {far : Finset Nat | Enough range blocks (List.range blocks.size) far} far)
    (least' : IsLeast {far : Finset Nat | Enough range others (List.range others.size) far} far')
    (block : Nat) : branchAt cut block ∈ far' ↔ block ∈ far := by
  constructor
  · intro member
    have image : ∀ block, branchAt cut block ∈ far.image (branchAt cut) ↔ block ∈ far :=
      fun block => (branchAt_injective cut).mem_finset_image
    have enough := least'.2 ((enough_halved halved image range).2 least.1)
    exact (image block).1 (enough member)
  · intro member
    have back : ∀ block, branchAt cut block ∈ far' ↔
        block ∈ far'.preimage (branchAt cut) (branchAt_injective cut).injOn :=
      fun block => Finset.mem_preimage.symm
    have enough := least.2 ((enough_halved halved back range).1 least'.1)
    exact (back block).2 (enough member)

end

end Widening
end ClassFile
