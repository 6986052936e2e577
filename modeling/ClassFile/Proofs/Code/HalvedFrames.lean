import ClassFile.Proofs.Code.HalvedReplay
import ClassFile.Proofs.Code.HalvedRows
import ClassFile.Proofs.Code.RecordedLayout

namespace ClassFile

/-!
# Frames added to cut blocks

Frames are added after the same branches when a block is cut in two, and replaying finds
the same frames for them.  So either both runs fail, or all blocks have the frames that they
have without the cut, and the second half has none.
-/

open Widening
open FlowGraph (CutInTwo Halved past past_of_le past_of_lt past_succ past_inj past_ne past_cases firstHalf branchAt
  branchAt_of_ne branchAt_cut)

namespace Assembly

theorem around?_renumber (number : Nat → Nat) (branch : Branch Nat Nat Nat) :
    around? (branch.renumber number) = (around? branch).map number := by
  cases branch <;> rfl

/-- Cut blocks with the frames that the blocks have. -/
structure FramedAlike (cut count : Nat) (wide wide' blocks others : Array CodeBlock) : Prop where
  sameCode : SameCode wide blocks
  sameCode' : SameCode wide' others
  frames : ∀ block < count,
    frameOf? others (past cut block) = (frameOf? blocks block).map (Frame.renumber (past cut))
  unframed : frameOf? others (cut + 1) = none

section

variable {cut : Nat} {cutCode : CodeBlock} {head tail : List Instruction} {graph other : FlowGraph}
  (isCut : CutInTwo cut cutCode head tail graph other) {method : MethodContext} {pool : Pool}
  {locals block : Nat} {wide wide' blocks others : Array CodeBlock}

/-- Nothing is asked for after the first half of a block, and the same as before after every
other one. -/
structure AsksAlike (cut count : Nat) (wide wide' : Array CodeBlock) : Prop where
  large : count ≤ wide.size
  large' : count + 1 ≤ wide'.size
  inside : ∀ block < count, ∀ next, widenedNext? count wide block = some next → next < count
  same : ∀ block < count, widenedNext? (count + 1) wide' (branchAt cut block) =
    (widenedNext? count wide block).map (past cut)
  first : widenedNext? (count + 1) wide' cut = none

theorem FramedAlike.set {count next : Nat} {code code' : CodeBlock} {frame : BlockFrame}
    (alike : FramedAlike cut count wide wide' blocks others)
    (there : blocks[next]? = some code) (there' : others[past cut next]? = some code') :
    FramedAlike cut count wide wide'
      (blocks.setIfInBounds next ⟨some frame, code.instructions, code.branch⟩)
      (others.setIfInBounds (past cut next)
        ⟨some (frame.renumber (past cut)), code'.instructions, code'.branch⟩) where
  sameCode := alike.sameCode.setFrame there _
  sameCode' := alike.sameCode'.setFrame there' _
  frames block below := by
    rw [frameOf?_setFrame there, frameOf?_setFrame there']
    by_cases here : block = next
    · rw [if_pos here, if_pos (congrArg _ here)]
      rfl
    · rw [if_neg here, if_neg fun same => here (past_inj.1 same)]
      exact alike.frames block below
  unframed := by
    rw [frameOf?_setFrame there', if_neg (past_ne cut next).symm]
    exact alike.unframed

include isCut

theorem giveWidenedFrame_alike (asks : AsksAlike cut graph.blocks.size wide wide')
    (alike : FramedAlike cut graph.blocks.size wide wide' blocks others)
    (inside : block < graph.blocks.size) :
    EndsAlike (FramedAlike cut graph.blocks.size wide wide')
      (giveWidenedFrame ⟨graph, method, pool⟩ locals graph.blocks.size blocks block)
      (giveWidenedFrame ⟨other, method, pool⟩ locals (graph.blocks.size + 1) others
        (branchAt cut block)) := by
  have same := asks.same block inside
  have within := asks.inside block inside
  have large := asks.large
  have large' := asks.large'
  rw [← alike.sameCode.widenedNext?_eq, ← alike.sameCode'.widenedNext?_eq] at same
  rw [← alike.sameCode.widenedNext?_eq] at within
  rw [alike.sameCode.size_eq] at large
  rw [alike.sameCode'.size_eq] at large'
  have runs := @CodeContext.replay_renumber _ _ _ _ _ _ isCut method pool _ locals inside
  rcases giveWidenedFrame_cases ⟨graph, method, pool⟩ locals graph.blocks.size blocks block with
    ⟨run, given⟩ | ⟨next, code, found, there, missing, run⟩
  · rcases giveWidenedFrame_cases ⟨other, method, pool⟩ locals (graph.blocks.size + 1) others
      (branchAt cut block) with ⟨run', -⟩ | ⟨next', code', found', there', missing', -⟩
    · rw [run, run']
      exact .ok alike
    · rw [found', eq_comm, Option.map_eq_some_iff] at same
      obtain ⟨next, found, rfl⟩ := same
      have below := within next found
      obtain ⟨frame, isFrame⟩ := given next found (Nat.lt_of_lt_of_le below large)
      have framed := alike.frames next below
      rw [isFrame, frameOf?, there', Option.bind_some, missing'] at framed
      cases framed
  · rw [found, Option.map_some] at same
    have below := within next found
    have unframed : frameOf? others (past cut next) = none := by
      rw [alike.frames next below, frameOf?, there, Option.bind_some, missing]
      rfl
    rcases giveWidenedFrame_cases ⟨other, method, pool⟩ locals (graph.blocks.size + 1) others
      (branchAt cut block) with ⟨-, given'⟩ | ⟨next', code', found', there', missing', run'⟩
    · have inside' : past cut next < others.size := by
        refine Nat.lt_of_lt_of_le ?_ large'
        unfold past
        split_ifs <;> omega
      obtain ⟨frame, isFrame⟩ := given' _ same inside'
      cases unframed.symm.trans isFrame
    · obtain rfl := Option.some.inj (same.symm.trans found')
      rw [run, run']
      generalize CodeContext.replay ⟨graph, method, pool⟩ locals block = replayed at runs
      generalize CodeContext.replay ⟨other, method, pool⟩ locals (branchAt cut block) = replayed' at runs
      cases runs with
      | ok moved =>
        subst moved
        exact .ok (alike.set there there')
      | error fault fault' => exact .error fault fault'

/-- Frames are added alike to the first blocks and to what became of them. -/
theorem foldlM_alike (asks : AsksAlike cut graph.blocks.size wide wide')
    (alike : FramedAlike cut graph.blocks.size wide wide' wide wide') {count : Nat}
    (inside : count ≤ graph.blocks.size) :
    EndsAlike (FramedAlike cut graph.blocks.size wide wide')
      ((List.range count).foldlM (giveWidenedFrame ⟨graph, method, pool⟩ locals graph.blocks.size) wide)
      ((List.range (past cut count)).foldlM
        (giveWidenedFrame ⟨other, method, pool⟩ locals (graph.blocks.size + 1)) wide') := by
  induction count with
  | zero =>
    rw [past_of_le (Nat.zero_le cut)]
    exact .ok alike
  | succ count ih =>
    have before := ih (Nat.le_of_succ_le inside)
    rw [past_succ, foldlM_range_succ, foldlM_range_succ]
    by_cases here : count = cut
    · subst here
      rw [past_of_le (Nat.le_refl count)] at before
      rw [branchAt_cut, foldlM_range_succ, bind_assoc]
      refine before.bind fun blocks others alike => ?_
      have nothing : giveWidenedFrame ⟨other, method, pool⟩ locals (graph.blocks.size + 1) others count =
          .ok others := by
        unfold giveWidenedFrame
        rw [alike.sameCode'.widenedNext?_eq, asks.first]
        rfl
      have step := @giveWidenedFrame_alike _ _ _ _ _ _ isCut method pool locals _ _ _ _ _ asks alike inside
      rw [branchAt_cut] at step
      rw [nothing]
      exact step
    · have step := fun blocks others alike =>
        @giveWidenedFrame_alike _ _ _ _ _ _ isCut method pool locals _ _ _ blocks others asks alike inside
      rw [branchAt_of_ne here] at step ⊢
      exact before.bind step

end

/-! ## Widened blocks -/

theorem exists_framed_iff {blocks : Array CodeBlock} :
    blocks.any (fun code => code.frame.isSome) = true ↔ ∃ block frame, frameOf? blocks block = some frame := by
  simp only [Array.any_eq_true, Option.isSome_iff_exists, frameOf?_eq_some]
  constructor
  · rintro ⟨block, inside, frame, isFrame⟩
    exact ⟨block, frame, _, Array.getElem?_eq_getElem inside, isFrame⟩
  · rintro ⟨block, frame, code, there, isFrame⟩
    obtain ⟨inside, rfl⟩ := Array.getElem?_eq_some_iff.1 there
    exact ⟨block, inside, frame, isFrame⟩

section

variable {cut : Nat} {cutCode : CodeBlock} {head tail : List Instruction}
  {blocks others : Array CodeBlock} (halved : Halved cut cutCode head tail blocks others)

include halved

theorem frameOf?_second : frameOf? others (cut + 1) = none := by
  rw [frameOf?, halved.second]
  rfl

theorem any_framed_halved :
    (others.any fun code => code.frame.isSome) = blocks.any fun code => code.frame.isSome := by
  rw [Bool.eq_iff_iff, exists_framed_iff, exists_framed_iff]
  constructor
  · rintro ⟨block, frame, isFrame⟩
    have found : ∃ before, block = past cut before := by
      rcases past_cases cut block with rfl | rfl | ⟨before, -, rfl⟩
      · exact ⟨block, (past_of_le (Nat.le_refl block)).symm⟩
      · cases (frameOf?_second halved).symm.trans isFrame
      · exact ⟨before, rfl⟩
    obtain ⟨before, rfl⟩ := found
    rw [frameOf?_past halved, Option.map_eq_some_iff] at isFrame
    obtain ⟨frame, isFrame, -⟩ := isFrame
    exact ⟨before, frame, isFrame⟩
  · rintro ⟨block, frame, isFrame⟩
    exact ⟨past cut block, _, by rw [frameOf?_past halved, isFrame]; rfl⟩

omit halved in
theorem size_le_widened {blocks : Array CodeBlock} {far : Finset Nat} {parts : Nat → List Nat}
    (rewriting : Rewriting .nop none blocks (List.range blocks.size) (widened blocks) far parts) :
    blocks.size ≤ (widened blocks).blocks.size := by
  refine Nat.le_of_not_lt fun less => ?_
  exact Nat.lt_irrefl _ (rewriting.rewritten _ (List.mem_range.2 less)).head.2

variable {far far' : Finset Nat} {parts parts' : Nat → List Nat}
  (rewriting : Rewriting .nop none blocks (List.range blocks.size) (widened blocks) far parts)
  (rewriting' : Rewriting .nop none others (List.range others.size) (widened others) far' parts')
  (same : ∀ block, branchAt cut block ∈ far' ↔ block ∈ far)
  (inside : ∀ (block : Nat) (code : CodeBlock), blocks[block]? = some code →
    ∀ target ∈ code.branch.targets ++ code.branch.next?.toList, target < blocks.size)
  (inside' : ∀ (block : Nat) (code : CodeBlock), others[block]? = some code →
    ∀ target ∈ code.branch.targets ++ code.branch.next?.toList, target < others.size)
include halved rewriting rewriting'

/-- Blocks are widened with the frames that they have. -/
theorem framedAlike_widened :
    FramedAlike cut blocks.size (widened blocks).blocks (widened others).blocks (widened blocks).blocks
      (widened others).blocks where
  sameCode := .refl _
  sameCode' := .refl _
  frames block below := by
    have below' : past cut block < others.size := by
      rw [halved.size_eq]
      unfold past
      split_ifs <;> omega
    rw [frameOf?_widened rewriting' below', frameOf?_widened rewriting below, frameOf?_past halved]
  unframed := by
    rw [frameOf?_widened rewriting' (Array.getElem?_eq_some_iff.1 halved.second).1, frameOf?_second halved]

include same inside inside'

/-- The same branches are widened, so frames are added after the same ones. -/
theorem asksAlike_widened :
    AsksAlike cut blocks.size (widened blocks).blocks (widened others).blocks := by
  have falls : ∀ {blocks : Array CodeBlock}, (∀ (block : Nat) (code : CodeBlock),
      blocks[block]? = some code → ∀ target ∈ code.branch.targets ++ code.branch.next?.toList,
        target < blocks.size) → ∀ {block : Nat} {code : CodeBlock}, blocks[block]? = some code →
          ∀ next, code.branch.next? = some next → next < blocks.size :=
    fun inside block code there next after =>
      inside block code there next (List.mem_append_right _ (Option.mem_toList.2 after))
  constructor
  case large => exact size_le_widened rewriting
  case large' => exact halved.size_eq ▸ size_le_widened rewriting'
  case inside =>
    intro block below next found
    have there := Array.getElem?_eq_getElem below
    rw [widenedNext?_widened rewriting there (falls inside there)] at found
    split at found
    · exact falls inside there next (next?_of_around? found)
    · cases found
  case same =>
    intro block below
    have there := Array.getElem?_eq_getElem below
    obtain ⟨code', there', branch⟩ := exists_branchAt halved there
    rw [← halved.size_eq, widenedNext?_widened rewriting there (falls inside there),
      widenedNext?_widened rewriting' there' (falls inside' there'), branch, around?_renumber]
    simp only [same block]
    split <;> rfl
  case first =>
    rw [← halved.size_eq, widenedNext?_widened rewriting' halved.first (falls inside' halved.first)]
    exact ite_self _

end

/-- The blocks of code are widened and framed alike where one of them is cut. -/
theorem recordedBlocks_alike {cut : Nat} {cutCode : CodeBlock} {head tail : List Instruction}
    {graph other : FlowGraph} (isCut : CutInTwo cut cutCode head tail graph other)
    {method : MethodContext} {pool : Pool} {locals : Nat} {wide wide' : Array CodeBlock}
    (isWide : (widened (alignSwitches graph.blocks)).blocks = wide)
    (isWide' : (widened (alignSwitches other.blocks)).blocks = wide')
    (asks : AsksAlike cut graph.blocks.size wide wide')
    (alike : FramedAlike cut graph.blocks.size wide wide' wide wide') :
    EndsAlike (FramedAlike cut graph.blocks.size wide wide')
      (MethodBody.recordedBlocks ⟨graph, method, pool⟩ locals)
      (MethodBody.recordedBlocks ⟨other, method, pool⟩ locals) := by
  have ran := @foldlM_alike _ _ _ _ _ _ isCut method pool locals _ _ asks alike _ (Nat.le_refl _)
  have inside := (Array.getElem?_eq_some_iff.1 isCut.there).1
  rw [past_of_lt inside, ← isCut.size_eq] at ran
  unfold MethodBody.recordedBlocks
  dsimp only
  rw [any_framed_halved isCut.toHalved, isWide, isWide']
  split
  · exact ran
  · exact .ok alike

end Assembly
end ClassFile
