import ClassFile.Code.Decoded
import ClassFile.Proofs.Widening.Flow

namespace ClassFile
namespace Branch

variable {σ ν : Type}

/-- A wide jump as a short one. -/
def narrowed : Branch σ σ ν → Branch σ σ ν
  | gotoWide target => goto target
  | jsrWide target next => jsr target next
  | branch => branch

end Branch

/-- Code that is read is recorded without its wide jumps. -/
theorem DecodedCode.recordBranch_narrowed (labels : Labels) (branch : Branch Nat Nat Unit) :
    recordBranch labels branch.narrowed = recordBranch labels branch := by
  cases branch with
  | gotoWide target =>
    simp only [recordBranch, relabelBranch, Branch.narrowed, Branch.withPadding, Branch.mapM]
    cases labelAt labels target <;> rfl
  | jsrWide target next =>
    simp only [recordBranch, relabelBranch, Branch.narrowed, Branch.withPadding, Branch.mapM]
    cases labelAt labels target <;> rfl
  | _ => rfl

namespace Widening

/-!
# Widened code that is read back

The paddings before a widened jump stay when the jump is read as a short one.  A jump
that is out of range by itself is then widened again and padded again, so code with
such a jump never comes back as it was: every pass adds two paddings.
-/

variable {φ ι : Type}

/-- A widened layout as it is read. -/
def Result.reread (result : Result φ ι) : Array (Block φ ι) :=
  result.blocks.map fun code => { code with branch := code.branch.narrowed }

variable [Wide ι]

/-- Widen a layout and read it back. -/
def pass (range : Range) (pad : ι) (blank : φ) (layout : Array (Block φ ι) × List Nat) :
    Array (Block φ ι) × List Nat :=
  let result := widen range pad blank layout.1 layout.2
  (result.reread, result.order)

/-- A jump or call that is out of range even if nothing is widened. -/
structure IsFar (range : Range) (blocks : Array (Block φ ι)) (order : List Nat) (block : Nat)
    (code : Block φ ι) (target : Nat) : Prop where
  placed : block ∈ order
  there : blocks[block]? = some code
  short : shortTarget? code.branch = some (target, true)
  outside : range.contains (grownDistance blocks order ∅ block code target) = false

example : IsFar ⟨-8, 8⟩ loop [0, 1, 2] 1 ⟨(), #[20], .goto 0⟩ 0 :=
  ⟨by decide, rfl, rfl, by decide⟩

section

variable {range : Range} {pad : ι} {blank : φ} {blocks : Array (Block φ ι)} {order : List Nat}
  {result : Result φ ι} {far : Finset Nat} {parts : Nat → List Nat} {block target : Nat}
  {code : Block φ ι}

/-- It is always among the branches that are widened. -/
theorem IsFar.mem (isFar : IsFar range blocks order block code target)
    (plain : Plain blocks order) (around : range.Around) (enough : Enough range blocks order far) :
    block ∈ far := by
  by_contra stays
  -- Widening others only moves the ends of a jump apart, so it would fit with none widened.
  have found := jumpAt_of_short range order isFar.there isFar.short
  have fits := enough block isFar.placed code isFar.there target _ isFar.short stays
  rw [grownDistance_eq_among plain isFar.placed isFar.there isFar.short stays found] at fits
  have outside := isFar.outside
  rw [grownDistance_eq_among plain isFar.placed isFar.there isFar.short (Finset.notMem_empty _)
    found] at outside
  refine Bool.eq_false_iff.1 outside (Jump.contains_among_of_le around ?_ fits)
  refine Jump.added_le_of_subperm (List.monotone_filter_right _ fun jump inside => ?_).subperm _
  exact absurd (of_decide_eq_true inside) (Finset.notMem_empty _)

/-! ## Layouts that are read back -/

omit [Wide ι] in
theorem reread_getElem? {now : Block φ ι} (found : result.blocks[block]? = some now) :
    result.reread[block]? = some { now with branch := now.branch.narrowed } := by
  rw [Result.reread, Array.getElem?_map, found]
  rfl

theorem narrowed_targets (branch : Branch Nat Nat Nat) : branch.narrowed.targets = branch.targets := by
  cases branch <;> rfl

theorem wideTarget?_narrowed (branch : Branch Nat Nat Nat) : wideTarget? branch.narrowed = none := by
  cases branch <;> rfl

theorem conditional_of_narrowed {branch : Branch Nat Nat Nat} {condition : Condition} {next : Nat}
    (narrowed : branch.narrowed = .conditional condition target next) :
    branch = .conditional condition target next := by
  cases branch with
  | conditional => exact narrowed
  | _ => cases narrowed

omit [Wide ι] in
theorem Complete.plain (complete : Complete blocks order) (distinct : order.Nodup) :
    Plain blocks order where
  distinct := distinct
  inside := complete.inside
  placed := complete.placed
  follows := by
    intro block placed code there condition target next branch
    obtain ⟨front, rest, split⟩ := List.append_of_mem placed
    have head := complete.follows block rest ⟨front, split.symm⟩ code condition target next there
      branch
    obtain ⟨back, rfl⟩ := List.head?_eq_some_iff.1 head
    exact ⟨front, back, split⟩

omit [Wide ι] in
theorem Complete.reread (complete : Complete result.blocks order) : Complete result.reread order := by
  have origin : ∀ (block : Nat) (now : Block φ ι), result.reread[block]? = some now →
      ∃ before : Block φ ι, result.blocks[block]? = some before ∧
        now = { before with branch := before.branch.narrowed } := by
    intro block now found
    rw [Result.reread, Array.getElem?_map, Option.map_eq_some_iff] at found
    obtain ⟨before, there, rfl⟩ := found
    exact ⟨before, there, rfl⟩
  constructor
  case inside =>
    intro block placed
    rw [Result.reread, Array.size_map]
    exact complete.inside block placed
  case placed =>
    intro block placed now found target isTarget
    obtain ⟨before, there, rfl⟩ := origin block now found
    rw [narrowed_targets] at isTarget
    exact complete.placed block placed before there target isTarget
  case follows =>
    intro block rest suffix now condition target next found branch
    obtain ⟨before, there, rfl⟩ := origin block now found
    exact complete.follows block rest suffix before condition target next there
      (conditional_of_narrowed branch)

omit [Wide ι] in
/-- A widened jump is read back as it was, behind two paddings. -/
theorem Rewritten.reread_padded {part : List Nat}
    (rewritten : Rewritten pad blank blocks result.blocks far block part)
    (there : blocks[block]? = some code) (short : shortTarget? code.branch = some (target, true))
    (member : block ∈ far) :
    result.reread[block]? =
      some { code with instructions := (code.instructions.push pad).push pad } := by
  cases rewritten with
  | kept before after near => exact absurd member near
  | goto before branch after widened =>
    obtain rfl := Option.some.inj (before.symm.trans there)
    rw [reread_getElem? after, branch]
    rfl
  | jsr before branch after widened =>
    obtain rfl := Option.some.inj (before.symm.trans there)
    rw [reread_getElem? after, branch]
    rfl
  | split before branch fresh split widened =>
    obtain rfl := Option.some.inj (before.symm.trans there)
    rw [branch] at short
    cases short

/-- The parts of a block are read back as no fewer bytes than the block had, and as two
more at least if it was widened. -/
theorem Rewritten.rereadWidth (onePad : Wide.width pad = 1) {part : List Nat}
    (rewritten : Rewritten pad blank blocks result.blocks far block part)
    (narrow : ∀ code, blocks[block]? = some code → wideTarget? code.branch = none) :
    ∃ more, (part.map (Layout.blockWidth result.reread)).sum = Layout.blockWidth blocks block + more ∧
      (block ∈ far → 2 ≤ more) := by
  cases rewritten with
  | @kept code before after near =>
    refine ⟨0, ?_, fun member => absurd member near⟩
    have same : code.branch.narrowed = code.branch := by
      have narrow := narrow code before
      cases isBranch : code.branch <;> rw [isBranch] at narrow <;> first | rfl | cases narrow
    rw [List.map_singleton, List.sum_singleton, blockWidth_of_getElem? (reread_getElem? after),
      blockWidth_of_getElem? before, same]
    rfl
  | goto before branch after widened =>
    refine ⟨2, ?_, fun _ => Nat.le_refl 2⟩
    rw [List.map_singleton, List.sum_singleton, blockWidth_of_getElem? (reread_getElem? after),
      blockWidth_of_getElem? before, branch]
    simp only [bodyWidth_pad onePad]
    rfl
  | jsr before branch after widened =>
    refine ⟨2, ?_, fun _ => Nat.le_refl 2⟩
    rw [List.map_singleton, List.sum_singleton, blockWidth_of_getElem? (reread_getElem? after),
      blockWidth_of_getElem? before, branch]
    simp only [bodyWidth_pad onePad]
    rfl
  | split before branch fresh split widened =>
    refine ⟨6, ?_, fun _ => by decide⟩
    simp only [List.map_cons, List.map_nil, List.sum_cons, List.sum_nil,
      blockWidth_of_getElem? (reread_getElem? split.after),
      blockWidth_of_getElem? (reread_getElem? split.around),
      blockWidth_of_getElem? (reread_getElem? split.onward), blockWidth_of_getElem? before, branch]
    rfl

omit [Wide ι] in
/-- A block of a rewritten layout starts after the parts of those before it. -/
theorem startOf_flatMap (width : Nat → Nat) (once : order.Nodup) (distinct : (order.flatMap parts).Nodup)
    (placed : block ∈ order) {rest : List Nat} (here : parts block = block :: rest) :
    Layout.startOf width (order.flatMap parts) block =
      Layout.startOf (fun block => ((parts block).map width).sum) order block := by
  obtain ⟨front, back, rfl⟩ := List.append_of_mem placed
  have whole : (front ++ block :: back).flatMap parts =
      front.flatMap parts ++ block :: (rest ++ back.flatMap parts) := by
    rw [List.flatMap_append, List.flatMap_cons, here, List.cons_append]
  rw [whole] at distinct ⊢
  rw [Layout.startOf_append_cons distinct, Layout.startOf_append_cons once, List.map_flatMap,
    List.flatMap_def, List.sum_flatten, List.map_map]
  rfl

/-- Blocks start no earlier when a widened layout is read back. -/
theorem Rewriting.rereadStart (rewriting : Rewriting pad blank blocks order result far parts)
    (plain : Plain blocks order) (onePad : Wide.width pad = 1)
    (narrow : ∀ block ∈ order, ∀ code, blocks[block]? = some code → wideTarget? code.branch = none) :
    ∃ more : Nat → Nat, (∀ block ∈ order, block ∈ far → 2 ≤ more block) ∧
      ∀ block ∈ order, grownStart result.reread result.order ∅ block =
        grownStart blocks order ∅ block + Layout.startOf more order block := by
  let width := fun block => ((parts block).map (Layout.blockWidth result.reread)).sum
  have widths : ∀ block ∈ order, ∃ more, width block = Layout.blockWidth blocks block + more ∧
      (block ∈ far → 2 ≤ more) :=
    fun block placed => (rewriting.rewritten block placed).rereadWidth onePad (narrow block placed)
  refine ⟨fun block => width block - Layout.blockWidth blocks block, fun block placed member => ?_,
    fun block placed => ?_⟩
  · obtain ⟨more, same, two⟩ := widths block placed
    have enough := two member
    dsimp only
    omega
  · obtain ⟨⟨rest, here⟩, -⟩ := (rewriting.rewritten block placed).head
    have each : ∀ other ∈ order.take (order.idxOf block), width other =
        Layout.blockWidth blocks other + (width other - Layout.blockWidth blocks other) := by
      intro other member
      obtain ⟨more, same, -⟩ := widths other (List.mem_of_mem_take member)
      omega
    rw [grownStart_empty, grownStart_empty, rewriting.order_eq,
      startOf_flatMap _ plain.distinct (rewriting.order_eq ▸ rewriting.distinct) placed here,
      ← Layout.startOf_add, Layout.startOf, Layout.startOf, List.map_congr_left each]

/-- A jump that is out of range stays so, with two paddings before it, when the layout is
widened and read back. -/
theorem IsFar.reread (isFar : IsFar range blocks order block code target)
    (plain : Plain blocks order) (around : range.Around) (onePad : Wide.width pad = 1)
    (narrow : ∀ block ∈ order, ∀ code, blocks[block]? = some code → wideTarget? code.branch = none)
    (rewriting : Rewriting pad blank blocks order result far parts)
    (enough : Enough range blocks order far) :
    IsFar range result.reread result.order block
      { code with instructions := (code.instructions.push pad).push pad } target := by
  have member := isFar.mem plain around enough
  obtain ⟨placed, there, short, outside⟩ := isFar
  have targetPlaced := plain.targetPlaced placed there short
  have kept : order ⊆ result.order := by
    intro other inOrder
    obtain ⟨⟨rest, here⟩, -⟩ := (rewriting.rewritten other inOrder).head
    rw [rewriting.order_eq]
    exact List.mem_flatMap_of_mem inOrder (here ▸ List.mem_cons_self)
  constructor
  case placed => exact kept placed
  case short => exact short
  case there => exact (rewriting.rewritten block placed).reread_padded there short member
  case outside =>
    obtain ⟨more, two, starts⟩ := rewriting.rereadStart plain onePad narrow
    have padded := two block placed member
    have body := bodyWidth_pad onePad code code.branch
    obtain ⟨low, high⟩ := around
    rw [Bool.eq_false_iff, Ne, Range.contains_iff, grownDistance] at outside ⊢
    rw [starts target targetPlaced, starts block placed]
    rw [grownStart_empty, grownStart_empty] at outside ⊢
    -- Forward, the padding of the block itself moves the target along with the jump.
    rcases lt_or_ge (order.idxOf block) (order.idxOf target) with forward | backward
    · have start := Layout.startOf_eq_add_between (Layout.blockWidth blocks) plain.distinct forward.le
      have moved := Layout.startOf_eq_add_between more plain.distinct forward.le
      have width := Layout.le_between (Layout.blockWidth blocks) placed le_rfl forward
      have own := Layout.le_between more placed le_rfl forward
      rw [blockWidth_of_getElem? there] at width
      omega
    · have start := Layout.startOf_eq_add_between (Layout.blockWidth blocks) plain.distinct backward
      have moved := Layout.startOf_eq_add_between more plain.distinct backward
      omega

/-- One pass over a layout without wide jumps. -/
theorem IsFar.pass (isFar : IsFar range blocks order block code target) (plain : Plain blocks order)
    (around : range.Around) (onePad : Wide.width pad = 1)
    (narrow : ∀ block ∈ order, ∀ code, blocks[block]? = some code → wideTarget? code.branch = none)
    (blank : φ) :
    Plain (pass range pad blank (blocks, order)).1 (pass range pad blank (blocks, order)).2 ∧
      IsFar range (pass range pad blank (blocks, order)).1 (pass range pad blank (blocks, order)).2
        block { code with instructions := (code.instructions.push pad).push pad } target := by
  obtain ⟨parts, rewriting⟩ := widen_rewriting plain around pad blank
  have enough := ((farJumps_widens plain).least plain around).1.1
  have complete := plain.complete.rewritten rewriting.order_eq rewriting.rewritten
  exact ⟨complete.reread.plain rewriting.distinct,
    isFar.reread plain around onePad narrow rewriting enough⟩

omit [Wide ι] in
theorem narrow_reread (result : Result φ ι) {now : Block φ ι}
    (found : result.reread[block]? = some now) : wideTarget? now.branch = none := by
  rw [Result.reread, Array.getElem?_map, Option.map_eq_some_iff] at found
  obtain ⟨before, -, rfl⟩ := found
  exact wideTarget?_narrowed before.branch

/-- Every pass puts two more paddings before a jump that is out of range. -/
theorem IsFar.passes (isFar : IsFar range blocks order block code target) (plain : Plain blocks order)
    (around : range.Around) (onePad : Wide.width pad = 1)
    (narrow : ∀ block ∈ order, ∀ code, blocks[block]? = some code → wideTarget? code.branch = none)
    (blank : φ) (count : Nat) :
    ∃ blocks' order', (Widening.pass range pad blank)^[count] (blocks, order) = (blocks', order') ∧
      IsFar range blocks' order' block
        { code with instructions := code.instructions ++ Array.replicate (2 * count) pad } target := by
  induction count generalizing blocks order code with
  | zero =>
    refine ⟨blocks, order, rfl, ?_⟩
    rw [Nat.mul_zero, Array.replicate_zero, Array.append_empty]
    exact isFar
  | succ count ih =>
    obtain ⟨plain', isFar'⟩ := isFar.pass plain around onePad narrow blank
    obtain ⟨blocks', order', same, last⟩ := ih isFar' plain' fun _ _ _ => narrow_reread _
    refine ⟨blocks', order', same, ?_⟩
    have whole : (code.instructions.push pad).push pad ++ Array.replicate (2 * count) pad =
        code.instructions ++ Array.replicate (2 * (count + 1)) pad := by
      apply Array.toList_inj.1
      simp [Nat.mul_succ, List.replicate_succ]
    rwa [whole] at last

end

end Widening
end ClassFile
