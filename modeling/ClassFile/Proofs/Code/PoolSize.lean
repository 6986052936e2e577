import ClassFile.Proofs.Code.Overflow
import ClassFile.Proofs.Frame.Tracing
import ClassFile.Proofs.Graph.Undefined

namespace ClassFile

/-!
# Code and the size of the pool

Code is laid out by what the constants of a pool say, wherever they stand.  How many there are
is no reason for which that fails, nor is it how large an index is.  Only when laid out code is
written an index may turn out not to fit.
-/

open Fault (OfEncoding Plain SparesPool)
open FailsOnly

/-- Anything but a pool that is too large, and an index only where it does not fit. -/
def Fault.OfWriting (fault : Fault) : Prop :=
  fault.SparesPool ∨ ∃ index, 65536 ≤ index ∧ fault = .codec (.wideIndex index)

theorem Fault.OfEncoding.ofWriting {fault : Fault} (misfit : fault.OfEncoding) :
    fault.OfWriting := by
  unfold OfEncoding at misfit
  split at misfit
  · next index => exact .inr ⟨index, misfit, rfl⟩
  · exact misfit.elim
  · next cause narrow short =>
    refine .inl ?_
    cases cause with
    | wideIndex index => exact absurd rfl (narrow index)
    | longPool => exact absurd rfl short
    | _ => trivial
  · exact .inl trivial
  · exact misfit.elim

open Fault (OfWriting)

/-! ## Limits -/

namespace Pool

variable (pool : Pool)

theorem constantWidth_plain (index : PoolIndex) : FailsOnly Plain (pool.constantWidth index) := by
  refine (pool.entry_plain index).bind fun constant _ => ?_
  split
  · exact ok _
  · exact ok _
  · refine (pool.dynamicSignature_plain index).bind fun signature _ => ?_
    exact (FieldType.parse_plain _).bind fun _ _ => ok _
  · exact ok _

theorem fieldWidth_plain (index : PoolIndex) : FailsOnly Plain (pool.fieldWidth index) :=
  (pool.member_plain index).bind fun _ _ => (FieldType.parse_plain _).bind fun _ _ => ok _

end Pool

theorem Instruction.stackEffect_plain (pool : Pool) (instruction : Instruction) :
    FailsOnly Plain (instruction.stackEffect pool) := by
  have parsed := MethodDescriptor.parse_plain
  cases instruction with
  | loadConstant index | loadWideConstant index =>
    exact (pool.constantWidth_plain index).bind fun _ _ => ok _
  | accessField access field => exact (pool.fieldWidth_plain field).bind fun _ _ => ok _
  | invoke mode method =>
    exact (pool.member_plain method).bind fun _ _ => (parsed _).bind fun _ _ => ok _
  | invokeDynamic callSite =>
    exact (pool.dynamicSignature_plain callSite).bind fun _ _ => (parsed _).bind fun _ _ => ok _
  | _ => exact ok _

namespace Limits

variable {graph : FlowGraph} {pool : Pool}

theorem leave_plain (block height : Nat) (code : CodeBlock) :
    FailsOnly Plain (leave graph pool block height code) := by
  refine bind (FailsOnly.foldlM (fun level instruction => ?_) _ _) fun level _ => ?_
  · refine (instruction.stackEffect_plain pool).bind fun effect _ => ?_
    split
    · exact ok _
    · exact error trivial
  · refine bind ?_ fun _ _ => ok _
    rw [Level.finish]
    split
    · exact ok _
    · exact error trivial

theorem walk_plain (heights : Array (Option Nat)) (peak : Nat) (waiting : List Entry) :
    FailsOnly Plain (walk graph pool heights peak waiting) := by
  fun_induction walk graph pool heights peak waiting with
  | case1 => exact ok _
  | case2 heights peak block height waiting code fresh there ih =>
    refine (leave_plain block height code).bind fun left _ => ?_
    exact ih left.1 left.2
  | case3 heights peak block height waiting stale ih => exact ih

theorem compute_plain (parameters : Nat) : FailsOnly Plain (compute graph pool parameters) := by
  refine (walk_plain _ _ _).bind fun stack _ => ?_
  dsimp only
  split
  · exact error trivial
  split
  · exact error trivial
  · exact ok _

end Limits

/-! ## Frames -/

namespace Inference

open Hierarchy.Query

variable {context : CodeContext}

theorem siteClass_sparesPool (site : Nat) : FailsOnly SparesPool (context.siteClass site) :=
  CodeContext.siteClass_fails (fun _ => Plain.sparesPool) (fun _ => trivial) site

theorem reach_sparesPool (target : Nat) (incoming : BlockFrame) (progress : Progress) :
    (reach target incoming progress).Ends SparesPool fun _ => True := by
  unfold reach
  split
  · next known there =>
    have joins := Hierarchy.joinFrames_ends (fun _ => Fault.OfQuestion.sparesPool) target
      (fun _ _ => trivial) known incoming
    refine joins.bind fun joined _ => ?_
    split
    · exact ends_pure trivial
    · exact ends_pure trivial
  · exact ends_pure trivial

theorem run_sparesPool (visits : Nat) (progress : Progress) :
    (run context visits progress).Ends SparesPool fun _ => True := by
  have runs : Resolves (fun _ => True) SparesPool (run context visits progress) fun frames =>
      ∃ rest : Nat, True := by
    refine @run_resolves context _ _ (fun _ _ => True) ?_ ?_ ?_ _ _ trivial
    · intro left frames block waiting code frame there found _
      refine visit_resolves (fun _ => Plain.sparesPool) there ?_ ?_ trivial
      · exact fun _ _ _ site _ => siteClass_sparesPool site
      · exact fun middle target out _ _ => ends_iff.1 (reach_sparesPool target out middle)
    · exact fun _ _ _ _ _ => trivial
    · exact fun _ _ _ _ => trivial
  exact ends_iff.2 (runs.mono fun _ _ => trivial)

theorem inferFrames_sparesPool (locals : Nat) :
    (context.inferFrames locals).Ends SparesPool fun _ => True := by
  unfold CodeContext.inferFrames
  dsimp only
  split
  · exact (ends_throw trivial).bind fun _ => False.elim
  · refine (reach_sparesPool _ _ _).bind fun start _ => ?_
    exact ends_get.bind fun hierarchy _ => run_sparesPool _ start

end Inference

namespace CodeContext

variable (context : CodeContext)

theorem stepBlock_sparesPool (frame : BlockFrame) (block : Nat) :
    FailsOnly SparesPool (context.stepBlock frame block) := by
  have sites := @Inference.siteClass_sparesPool context
  rw [stepBlock]
  split
  · refine bind (FailsOnly.foldlM (fun here instruction => ?_) _ _) fun last _ => ?_
    · exact step_fails (fun _ => Plain.sparesPool) block (fun site _ => sites site) instruction
    · exact (stepBranch_plain last _).mono fun _ => Plain.sparesPool
  · exact ok _

theorem replay_sparesPool (locals block : Nat) :
    FailsOnly SparesPool (context.replay locals block) :=
  FailsOnly.foldlM (context.stepBlock_sparesPool) _ _

theorem addWidenedFrames_sparesPool (locals : Nat) (blocks : Array CodeBlock) :
    FailsOnly SparesPool (Assembly.addWidenedFrames context locals blocks) := by
  refine FailsOnly.foldlM (fun added block => ?_) _ _
  split
  · exact ok _
  split
  · exact (context.replay_sparesPool locals block).bind fun _ _ => ok _
  · exact ok _

end CodeContext

/-! ## Laying out -/

namespace FlowGraph

theorem ofItems_plain (items : List Item) (handlers : List Handler) (subroutines : Bool) :
    FailsOnly Plain (ofItems items handlers subroutines) := by
  have adds : ∀ drafts item, FailsOnly Plain (Drafts.add subroutines drafts item) := by
    intro drafts item
    cases item with
    | label label =>
      rw [Drafts.add, Drafts.addLabel]
      split
      · exact error trivial
      · exact ok _
    | frame | instruction => exact ok _
    | branch branch =>
      rw [Drafts.add]
      split
      · exact error trivial
      · exact ok _
  refine bind ((FailsOnly.foldlM adds items _).bind fun _ _ => ok _) fun drafts _ => ?_
  have undefined : ∀ fault, Undefined drafts.labels fault → fault.Plain := by
    rintro _ ⟨label, rfl, -⟩
    trivial
  refine bind (FailsOnly.mapM ?_ _) fun blocks _ => ?_
  · exact fun _ => (failsOnly_resolveDraft _ _ _).mono undefined
  exact bind (FailsOnly.mapM (fun handler => (failsOnly_resolveHandler handler).mono undefined) _)
    fun _ _ => ok _

end FlowGraph

/-! ## Writing -/

namespace Assembly

variable (laid : LaidCode)

theorem relative_sparesPool (origin : Nat) (branch : Branch Nat Nat Nat) :
    FailsOnly SparesPool (relative laid origin branch) := by
  have distances : ∀ range block, FailsOnly SparesPool (distance laid origin range block) := by
    intro range block
    rw [distance]
    split
    · exact ok _
    · exact error trivial
  apply Branch.failsOnly_mapM
  case shorts => exact fun target => (distances .short target).map _
  case wides => exact fun target => (distances .wide target).map _
  case nexts => exact fun _ => ok _

theorem encodeBlock_ofWriting (block : Nat) : FailsOnly OfWriting (encodeBlock laid block) := by
  have fits : ∀ fault : Fault, fault.OfEncoding → fault.OfWriting :=
    fun _ => OfEncoding.ofWriting
  rw [encodeBlock]
  split
  · exact ok _
  · next code there =>
    refine bind ?_ fun instructions _ => ?_
    · exact (FailsWide.each fun instruction _ => instruction.failsWide_encode).ofEncoding.mono fits
    · refine ((relative_sparesPool laid _ code.branch).mono fun _ => .inl).bind fun written _ => ?_
      exact (written.encode_fails.mono fits).bind fun _ _ => ok _

theorem entriesAfter_sparesPool (made : Array StackMapEntry) (previous? : Option Nat)
    (previous : WrittenFrame) (placed : List (Nat × WrittenFrame)) :
    FailsOnly SparesPool (StackMap.entriesAfter made previous? previous placed) := by
  induction placed generalizing made previous? previous with
  | nil => exact ok _
  | cons first placed ih =>
    rw [StackMap.entriesAfter_cons]
    split
    · exact ih _ _ _
    · exact error trivial

theorem ofFrames_sparesPool (method : MethodContext) (offsets : Array Nat)
    (frames : List (Nat × BlockFrame)) :
    FailsOnlyFor SparesPool (StackMap.ofFrames method offsets frames) := by
  apply StackMap.failsOnly_ofFrames
  case sites =>
    intro site
    rw [StackMap.siteOffset]
    split
    · split
      · exact ok _
      · exact error trivial
    · exact error trivial
  case entries =>
    intro entry placed _
    exact entriesAfter_sparesPool #[] none entry placed

end Assembly

namespace MethodBody

open Assembly

variable (body : MethodBody) (method : MethodContext) (mode : ComputeMode)

/-- Whether code can be laid out does not depend on the size of the pool. -/
theorem layOut_sparesPool : FailsOnlyFor SparesPool (body.layOut method mode) := by
  refine (FailsOnlyFor.lift ((FlowGraph.ofItems_plain _ _ _).mono fun _ => Plain.sparesPool)).bind
    fun graph => ?_
  refine FailsOnlyFor.get.bind fun now => (FailsOnlyFor.lift ?_).bind fun limits => ?_
  · rw [limitsOf]
    split
    · exact (Limits.compute_plain _).mono fun _ => Plain.sparesPool
    · exact ok _
  split
  · have infers := @Inference.inferFrames_sparesPool ⟨graph, method, now.pool⟩ limits.locals
    have asks : FailsOnlyFor SparesPool (Assembler.query
        (CodeContext.inferFrames ⟨graph, method, now.pool⟩ limits.locals)) :=
      fun state => (infers state.hierarchy).2
    exact asks.bind fun _ => .pure _
  · refine (FailsOnlyFor.lift ?_).bind fun _ => .pure _
    rw [recordedBlocks]
    dsimp only
    split
    · exact CodeContext.addWidenedFrames_sparesPool _ _ _
    · exact ok _

/-- Whether it can be written only depends on the indices that are written. -/
theorem assemble_ofWriting (wantsFrames : Bool) :
    FailsOnlyFor OfWriting (body.assemble method mode wantsFrames) := by
  rw [assemble_eq]
  refine ((body.layOut_sparesPool method mode).mono fun _ => .inl).bind fun laidOut => ?_
  apply failsOnly_writeOut
  case fits => exact fun _ => OfEncoding.ofWriting
  case long => exact fun _ => .inl trivial
  case blocks => exact fun block _ => encodeBlock_ofWriting laidOut.laid block
  case frames => exact (ofFrames_sparesPool _ _ _).mono fun _ => .inl

end MethodBody
end ClassFile
