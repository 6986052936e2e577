import ClassFile.Proofs.Code.Replaying
import ClassFile.Proofs.Frame.Renumbering

namespace ClassFile
namespace CodeContext

/-!
# Replaying a cut block

When a block is cut in two, replaying takes the frame through one half and then through the
other one, which has no frame of its own.  So control falls out of the second half with the
frame with which it fell out of the whole block, and out of every other block as before.
-/

open FlowGraph (past CutInTwo firstHalf secondHalf past_of_le past_succ past_injective branchAt
  branchAt_of_ne branchAt_cut)

theorem entryFrame_renumber (number : Nat → Nat) (method : MethodContext) (slots : Nat) :
    (method.entryFrame.resize slots).renumber number = method.entryFrame.resize slots := by
  rw [Frame.renumber_congr fun site mentions =>
    absurd mentions (Inference.entryFrame_mentions method slots site)]
  exact Frame.renumber_id _

theorem resize_renumber (number : Nat → Nat) (frame : BlockFrame) (slots : Nat) :
    (frame.renumber number).resize slots = (frame.resize slots).renumber number := by
  have locals : (frame.renumber number).locals.take slots ++
      List.replicate (slots - (frame.renumber number).locals.length) .top =
        (frame.resize slots).locals.map (VerificationType.renumber number) := by
    rw [Frame.resize, List.map_append, List.map_replicate, List.map_take, Frame.renumber, List.length_map]
    rfl
  exact congrArg (Frame.mk · _) locals

section

variable {cut : Nat} {cutCode : CodeBlock} {head tail : List Instruction} {graph other : FlowGraph}
  (isCut : CutInTwo cut cutCode head tail graph other) {method : MethodContext} {pool : Pool}
  {block : Nat} {code : CodeBlock} {locals : Nat}
include isCut

/-- Objects are made where they were made before. -/
theorem renumbered_of_cut :
    Renumbered (past cut) ⟨graph, method, pool⟩ ⟨other, method, pool⟩ := by
  refine ⟨rfl, rfl, fun site cls => ?_⟩
  have first : (other.blocks[past cut site]?.bind fun code => code.instructions[0]?) =
      graph.blocks[site]?.bind fun code => code.instructions[0]? := by
    by_cases same : site = cut
    · subst same
      rw [past_of_le (Nat.le_refl site), isCut.first, isCut.there, Option.bind_some, Option.bind_some,
        ← Array.getElem?_toList, ← Array.getElem?_toList, isCut.whole,
        List.getElem?_append_left (List.length_pos_iff.2 isCut.some_)]
      rfl
    · rw [isCut.apart same]
      cases graph.blocks[site]? <;> rfl
  unfold siteClass
  dsimp only
  rw [first]
  split
  · rfl
  · simp only [reduceCtorEq]

theorem there_renumber (there : graph.blocks[block]? = some code) :
    ∃ code', other.blocks[past cut block]? = some code' ∧
      code'.frame = code.frame.map (Frame.renumber (past cut)) := by
  by_cases same : block = cut
  · subst same
    obtain rfl := Option.some.inj (isCut.there.symm.trans there)
    rw [past_of_le (Nat.le_refl block)]
    exact ⟨_, isCut.first, rfl⟩
  · rw [isCut.apart same, there]
    exact ⟨_, rfl, rfl⟩

/-- A block that is not cut does what it did. -/
theorem stepBlock_renumber (apart : block ≠ cut) (frame : BlockFrame) :
    RunsAs (past cut) (stepBlock ⟨graph, method, pool⟩ frame block)
      (stepBlock ⟨other, method, pool⟩ (frame.renumber (past cut)) (past cut block)) := by
  unfold stepBlock
  dsimp only
  rw [isCut.apart apart]
  cases graph.blocks[block]? with
  | none => exact .ok frame
  | some code =>
    exact ((renumbered_of_cut isCut).foldlM_step (past_injective cut) (.inl rfl) frame).bind
      fun last => stepBranch_renumber last code.branch

/-- The halves of a block do together what the block did. -/
theorem stepBlock_halved (frame : BlockFrame) :
    RunsAs (past cut) (stepBlock ⟨graph, method, pool⟩ frame cut)
      (stepBlock ⟨other, method, pool⟩ (frame.renumber (past cut)) cut >>= fun middle =>
        stepBlock ⟨other, method, pool⟩ middle (cut + 1)) := by
  have renumbered := @renumbered_of_cut _ _ _ _ _ _ isCut method pool
  have whole : stepBlock ⟨graph, method, pool⟩ frame cut =
      head.foldlM (step ⟨graph, method, pool⟩ cut) frame >>= fun middle =>
        tail.foldlM (step ⟨graph, method, pool⟩ cut) middle >>= fun last =>
          stepBranch last cutCode.branch := by
    unfold stepBlock
    dsimp only
    rw [isCut.there]
    dsimp only
    rw [isCut.whole, List.foldlM_append, bind_assoc]
  have first : stepBlock ⟨other, method, pool⟩ (frame.renumber (past cut)) cut =
      head.foldlM (step ⟨other, method, pool⟩ cut) (frame.renumber (past cut)) := by
    unfold stepBlock
    dsimp only
    rw [isCut.first]
    exact bind_pure _
  rw [whole, first]
  refine (renumbered.foldlM_step (past_injective cut)
    (.inl (past_of_le (Nat.le_refl cut)).symm) frame).bind fun middle => ?_
  unfold stepBlock
  dsimp only
  rw [isCut.second]
  exact (renumbered.foldlM_step (past_injective cut) (.inr isCut.old) middle).bind
    fun last => stepBranch_renumber last cutCode.branch

theorem replay_of_arriving
    (arrives : RunsAs (past cut) (arriving ⟨graph, method, pool⟩ locals block)
      (arriving ⟨other, method, pool⟩ locals (past cut block))) :
    RunsAs (past cut) (replay ⟨graph, method, pool⟩ locals block)
      (replay ⟨other, method, pool⟩ locals (branchAt cut block)) := by
  by_cases same : block = cut
  · subst same
    rw [past_of_le (Nat.le_refl block)] at arrives
    rw [branchAt_cut, replay_eq, replay_eq, arriving_succ locals isCut.second rfl, replay_eq,
      bind_assoc]
    exact arrives.bind fun frame => stepBlock_halved isCut frame
  · rw [branchAt_of_ne same, replay_eq, replay_eq]
    exact arrives.bind fun frame => stepBlock_renumber isCut same frame

theorem arriving_of_framed (there : graph.blocks[block]? = some code) {frame : BlockFrame}
    (isFrame : code.frame = some frame) :
    RunsAs (past cut) (arriving ⟨graph, method, pool⟩ locals block)
      (arriving ⟨other, method, pool⟩ locals (past cut block)) := by
  obtain ⟨code', there', same⟩ := there_renumber isCut there
  rw [isFrame, Option.map_some] at same
  have length : (frame.renumber (past cut)).locals.length = frame.locals.length := List.length_map _
  rw [arriving_of_some locals there isFrame, arriving_of_some locals there' same, resize_renumber,
    length]
  exact .ok _

theorem framed_or_unframed (inside : block < graph.blocks.size) :
    (∃ code frame, graph.blocks[block]? = some code ∧ code.frame = some frame) ∨
      ∃ code code', graph.blocks[block]? = some code ∧ code.frame = none ∧
        other.blocks[past cut block]? = some code' ∧ code'.frame = none := by
  have there := Array.getElem?_eq_getElem inside
  obtain ⟨code', there', same⟩ := there_renumber isCut there
  cases isFrame : graph.blocks[block].frame with
  | some frame => exact .inl ⟨_, frame, there, isFrame⟩
  | none =>
    rw [isFrame] at same
    exact .inr ⟨_, code', there, isFrame, there', same⟩

/-- Control falls into a block with the same frame. -/
theorem arriving_renumber (inside : block < graph.blocks.size) :
    RunsAs (past cut) (arriving ⟨graph, method, pool⟩ locals block)
      (arriving ⟨other, method, pool⟩ locals (past cut block)) := by
  induction block with
  | zero =>
    rcases framed_or_unframed isCut inside with
      ⟨code, frame, there, isFrame⟩ | ⟨code, code', there, missing, there', missing'⟩
    · exact arriving_of_framed isCut there isFrame
    · rw [past_of_le (Nat.zero_le cut)] at there' ⊢
      rw [arriving_zero locals there missing, arriving_zero locals there' missing']
      have entry := @RunsAs.ok (past cut) (method.entryFrame.resize
        (max locals method.entryFrame.locals.length))
      rwa [entryFrame_renumber] at entry
  | succ block ih =>
    rcases framed_or_unframed isCut inside with
      ⟨code, frame, there, isFrame⟩ | ⟨code, code', there, missing, there', missing'⟩
    · exact arriving_of_framed isCut there isFrame
    · rw [past_succ] at there' ⊢
      rw [arriving_succ locals there missing, arriving_succ locals there' missing']
      exact replay_of_arriving isCut (ih (Nat.lt_of_succ_lt inside))

/-- Control falls out of a block with the same frame. -/
theorem replay_renumber (inside : block < graph.blocks.size) :
    RunsAs (past cut) (replay ⟨graph, method, pool⟩ locals block)
      (replay ⟨other, method, pool⟩ locals (branchAt cut block)) :=
  replay_of_arriving isCut (arriving_renumber isCut inside)

end

end CodeContext
end ClassFile
