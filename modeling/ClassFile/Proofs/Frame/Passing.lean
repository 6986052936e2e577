import ClassFile.Proofs.Frame.Sites
import ClassFile.Proofs.Frame.Worklist

namespace ClassFile
namespace Inference

/-!
# What visits and runs keep

All that a visit does to the frames found so far is to reach blocks with the frames that it
passes on.  So a visit keeps what every such reach keeps, and fails for the reasons for
which these fail, for plain ones, or for not finding the class of an uninitialized value.
A run keeps what its visits keep.  It fails of itself only when no visits are left.
-/

open Hierarchy.Query
open Fault (Plain)

section

variable {context : CodeContext} {keeps : Hierarchy → Prop} {kind : Fault → Prop}

theorem reachHandlers_resolves {block : Nat} {frame : BlockFrame} {progress : Progress}
    {holds : Progress → Prop} (plain : ∀ fault, Plain fault → kind fault)
    (reaches : ∀ handler ∈ context.graph.handlersOf block, ∀ middle out, holds middle →
      caught context.pool handler frame = .ok out →
        Resolves keeps kind (reach handler.entry out middle) holds)
    (start : holds progress) :
    Resolves keeps kind
      (reachHandlers context.pool (context.graph.handlersOf block) frame progress) holds := by
  apply resolves_foldlM (fun _ => holds) _ start
  intro taken handler left whole middle here
  have covers : handler ∈ context.graph.handlersOf block := by
    rw [← whole]
    exact List.mem_append_right _ List.mem_cons_self
  have fails := (CodeContext.caught_plain context.pool handler frame).mono plain
  exact (resolves_lift fails).bind fun out isCaught => reaches handler covers middle out here isCaught

/-- A visit keeps what reaching blocks with the frames that it passes on keeps. -/
theorem visit_resolves {block : Nat} {code : CodeBlock} {frame : BlockFrame} {progress : Progress}
    {holds : Progress → Prop} (plain : ∀ fault, Plain fault → kind fault)
    (there : context.graph.blocks[block]? = some code)
    (sites : ∀ count here,
      (code.instructions.toList.take count).foldlM (context.step block) frame = .ok here →
        ∀ site, here.Mentions site → FailsOnly kind (context.siteClass site))
    (reaches : ∀ middle target out, holds middle → Passed context block frame target out →
      Resolves keeps kind (reach target out middle) holds)
    (start : holds progress) :
    Resolves keeps kind (visit context block code frame progress) holds := by
  have size : code.instructions.toList.length = code.instructions.size := Array.length_toList
  have handlers : ∀ {count here middle}, count ≤ code.instructions.size →
      (code.instructions.toList.take count).foldlM (context.step block) frame = .ok here →
        holds middle → Resolves keeps kind
          (reachHandlers context.pool (context.graph.handlersOf block) here middle) holds := by
    intro count here middle inside through kept
    apply reachHandlers_resolves plain _ kept
    intro handler covers middle out kept isCaught
    exact reaches middle _ out kept (.thrown there inside through covers isCaught)
  have instructions := @instructions_resolves context keeps kind block code frame progress
    (fun _ => holds) (fun count here instruction fault through => CodeContext.step_fails plain block
      (sites count here through) instruction fault)
    (fun count here middle before through => handlers (Nat.le_of_lt before) through) start
  refine instructions.bind fun (last, middle) ⟨through, kept⟩ => ?_
  have through' : (code.instructions.toList.take code.instructions.size).foldlM
      (context.step block) frame = .ok last := by
    rw [← size, List.take_length]
    exact through
  refine (handlers (Nat.le_refl _) through' kept).bind fun settled kept' => ?_
  have fails := (CodeContext.stepBranch_plain last code.branch).mono plain
  refine (resolves_lift fails).bind fun out left => ?_
  apply resolves_foldlM (fun _ => holds) _ kept'
  intro taken target rest whole state here
  have successor : target ∈ code.successors := by
    rw [← whole]
    exact List.mem_append_right _ List.mem_cons_self
  exact reaches state target out here (.along there through left successor)

/-- A run keeps what visits keep, where a block without a frame is passed over. -/
theorem run_resolves {holds : Nat → Progress → Prop}
    (visits : ∀ left frames block waiting code frame, context.graph.blocks[block]? = some code →
      Progress.frame? ⟨frames, waiting⟩ block = some frame →
        holds (left + 1) ⟨frames, block :: waiting⟩ →
          Resolves keeps kind (visit context block code frame ⟨frames, waiting⟩) (holds left))
    (skips : ∀ left frames block waiting, holds (left + 1) ⟨frames, block :: waiting⟩ →
      holds left ⟨frames, waiting⟩)
    (ends : ∀ frames block waiting, holds 0 ⟨frames, block :: waiting⟩ → kind (.endless "frame"))
    {left : Nat} {progress : Progress} (start : holds left progress) :
    Resolves keeps kind (run context left progress) fun frames =>
      ∃ rest, holds rest ⟨frames, []⟩ := by
  induction left generalizing progress with
  | zero =>
    obtain ⟨frames, waiting⟩ := progress
    cases waiting with
    | nil => exact resolves_pure ⟨0, start⟩
    | cons block waiting =>
      rw [run]
      · exact resolves_throw (ends frames block waiting start)
      · exact fun _ same => by cases same
  | succ left ih =>
    obtain ⟨frames, waiting⟩ := progress
    cases waiting with
    | nil => exact resolves_pure ⟨left + 1, start⟩
    | cons block waiting =>
      rw [run]
      split
      · next code frame there found =>
        have hasFrame : Progress.frame? ⟨frames, waiting⟩ block = some frame := by
          rw [Progress.frame?, found]
          rfl
        exact (visits left frames block waiting code frame there hasFrame start).bind
          fun after kept => ih kept
      · exact ih (skips left frames block waiting start)

end

end Inference
end ClassFile
