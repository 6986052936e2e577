import ClassFile.Code.Assembly
import ClassFile.Proofs.Success

namespace ClassFile
namespace Limits

/-!
# Local variables of dead code

Local variables are counted in all blocks, and so in those that control never
reaches.  A block that only throws in place of such a one has none.  What was
counted is therefore enough for the code that is written, but it may be more than
what is counted when that code is encoded again.
-/

/-- Local variable slots that are needed by parameters and by all blocks. -/
def localsOf (blocks : Array CodeBlock) (parameters : Nat) : Nat :=
  blocks.foldl (fun most code => max most (blockLocals code)) parameters

variable {blocks : Array CodeBlock} {graph : FlowGraph} {pool : Pool} {parameters : Nat}
  {limits : Limits}

theorem locals_of_compute (computed : compute graph pool parameters = .ok limits) :
    limits.locals = localsOf graph.blocks parameters := by
  rcases bind_eq_ok.mp computed with ⟨stack, -, rest⟩
  dsimp only at rest
  split at rest
  · cases rest
  · split at rest
    · cases rest
    · cases rest
      rfl

/-- What is bounded step by step is bounded in the end. -/
theorem foldl_le_iff {α : Type} {step : Nat → α → Nat} {within : α → Prop} {bound : Nat}
    (steps : ∀ most value, step most value ≤ bound ↔ most ≤ bound ∧ within value)
    (values : List α) (start : Nat) :
    values.foldl step start ≤ bound ↔ start ≤ bound ∧ ∀ value ∈ values, within value := by
  induction values generalizing start with
  | nil => simp
  | cons value values ih => rw [List.foldl_cons, ih, steps, List.forall_mem_cons, and_assoc]

theorem localsOf_le_iff {bound : Nat} :
    localsOf blocks parameters ≤ bound ↔
      parameters ≤ bound ∧ ∀ code ∈ blocks.toList, blockLocals code ≤ bound := by
  rw [localsOf, ← Array.foldl_toList]
  exact @foldl_le_iff _ _ (blockLocals · ≤ bound) bound (fun _ _ => Nat.max_le) _ _

theorem blockLocals_bury (code : CodeBlock) : blockLocals (Assembly.bury code) = 0 := by
  rw [blockLocals, Assembly.bury, ← Array.foldl_toList, Array.toList_replicate]
  induction code.width - 1 with
  | zero => rfl
  | succ count ih => exact ih

/-- Blocks of which the dead ones are replaced. -/
def buried (blocks : Array CodeBlock) (dead : Array Bool) : Array CodeBlock :=
  Array.zipWith (fun code isDead => if isDead then Assembly.bury code else code) blocks dead

theorem localsOf_buried_le (blocks : Array CodeBlock) (dead : Array Bool) (parameters : Nat) :
    localsOf (buried blocks dead) parameters ≤ localsOf blocks parameters := by
  have bounds := (@localsOf_le_iff blocks parameters _).mp (Nat.le_refl _)
  refine localsOf_le_iff.mpr ⟨bounds.1, fun code member => ?_⟩
  rw [buried, Array.toList_zipWith, List.mem_iff_getElem?] at member
  rcases member with ⟨place, found⟩
  rcases List.getElem?_zipWith_eq_some.mp found with ⟨before, isDead, here, -, rfl⟩
  split
  · rw [blockLocals_bury]
    exact Nat.zero_le _
  · exact bounds.2 before (List.mem_of_getElem? here)

/-- When the limits of the written code are computed again, they state no more
local variables. -/
theorem locals_buried_le {again : Limits} (dead : Array Bool)
    (computed : compute graph pool parameters = .ok limits)
    (recomputed : compute { graph with blocks := buried graph.blocks dead } pool parameters =
      .ok again) : again.locals ≤ limits.locals := by
  rw [locals_of_compute computed, locals_of_compute recomputed]
  exact localsOf_buried_le graph.blocks dead parameters

/-- Code that returns at once, before a block that control never reaches. -/
def deadAfterReturn (dead : CodeBlock) : FlowGraph :=
  ⟨#[⟨none, #[], .returns none⟩, dead], [], ∅⟩

theorem compute_deadAfterReturn {dead : CodeBlock} (small : blockLocals dead < 65536) :
    compute (deadAfterReturn dead) .empty 0 = .ok ⟨0, blockLocals dead⟩ := by
  have stack : walk (deadAfterReturn dead) .empty #[none, none] 0 [(0, 0)] = .ok 0 := by
    rw [walk.eq_def]
    refine bind_eq_ok.mpr ⟨(0, []), rfl, ?_⟩
    change walk (deadAfterReturn dead) .empty _ _ [] = _
    rw [walk]
    rfl
  have locals : (deadAfterReturn dead).blocks.foldl (fun most code => max most (blockLocals code)) 0 =
      blockLocals dead := Nat.zero_max _
  refine bind_eq_ok.mpr ⟨0, stack, ?_⟩
  rw [locals, if_neg (by decide), if_neg (Nat.not_le_of_lt small)]
  rfl

/-- They may state fewer: slot 3 is used by dead code alone. -/
theorem exists_locals_buried_lt :
    ∃ graph dead limits again, compute graph .empty 0 = .ok limits ∧
      compute { graph with blocks := buried graph.blocks dead } .empty 0 = .ok again ∧
      again.locals < limits.locals := by
  let reads : CodeBlock := ⟨none, #[.load .int 3], .returns none⟩
  have needs : blockLocals reads = 4 := rfl
  have replaced : buried (deadAfterReturn reads).blocks #[false, true] =
      (deadAfterReturn (Assembly.bury reads)).blocks := by
    simp [buried, deadAfterReturn]
  have needsNone := blockLocals_bury reads
  refine ⟨deadAfterReturn reads, #[false, true], ⟨0, 4⟩, ⟨0, 0⟩, ?_, ?_, by decide⟩
  · rw [compute_deadAfterReturn (by rw [needs]; decide), needs]
  · rw [replaced]
    change compute (deadAfterReturn _) .empty 0 = _
    rw [compute_deadAfterReturn (by rw [needsNone]; decide), needsNone]

end Limits
end ClassFile
