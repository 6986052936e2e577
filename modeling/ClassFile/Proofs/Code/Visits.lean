import ClassFile.Proofs.Code.Walks
import ClassFile.Proofs.Frame.Heights
import ClassFile.Proofs.Frame.PostFixed

namespace ClassFile
namespace Limits

/-!
# The two accounts of the stack

The greatest height of the stack is found by walking blocks with a count of slots,
and frames are inferred by visiting them with the types of the operands.  The walk
takes a block at the height at which it comes there first, and inference joins the
frames of all paths, which never raises the stack.  So wherever both have an
answer, the walk visits the blocks that have frames, and their frames stay below
the height that it finds.
-/

/-! ## Within a block -/

/-- All heights in a block, at every instruction and after the branch, stay below
a bound. -/
structure Bounded (context : CodeContext) (block : Nat) (frame : BlockFrame) (code : CodeBlock)
    (bound : Nat) : Prop where
  instructions : ∀ count ≤ code.instructions.size, ∃ here,
    (code.instructions.toList.take count).foldlM (context.step block) frame = .ok here ∧
      here.height ≤ bound
  branch : ∃ last out, code.instructions.toList.foldlM (context.step block) frame = .ok last ∧
    CodeContext.stepBranch last code.branch = .ok out ∧ out.height ≤ bound

/-- Every instruction of a block and its branch finds the operands that it is
for. -/
structure Operable (context : CodeContext) (block : Nat) (frame : BlockFrame) (code : CodeBlock) :
    Prop where
  instructions : ∀ count here instruction,
    (code.instructions.toList.take count).foldlM (context.step block) frame = .ok here →
      code.instructions[count]? = some instruction → here.Fits context.pool instruction
  branch : ∀ last, code.instructions.toList.foldlM (context.step block) frame = .ok last →
    code.branch.operandWidths <+: last.widths

section

variable {context : CodeContext} {block : Nat}

theorem Bounded.mono {frame : BlockFrame} {code : CodeBlock} {bound more : Nat}
    (bounded : Bounded context block frame code bound) (le : bound ≤ more) :
    Bounded context block frame code more where
  instructions count inside := by
    obtain ⟨here, reached, below⟩ := bounded.instructions count inside
    exact ⟨here, reached, below.trans le⟩
  branch := by
    obtain ⟨last, out, through, left, below⟩ := bounded.branch
    exact ⟨last, out, through, left, below.trans le⟩

theorem Level.step_eq_ok {pool : Pool} {level next : Level} {instruction : Instruction}
    (run : level.step pool instruction = .ok next) :
    ∃ effect, instruction.stackEffect pool = .ok effect ∧ effect.pops ≤ level.height ∧
      next = ⟨level.height - effect.pops + effect.pushes,
        max level.peak (level.height - effect.pops + effect.pushes)⟩ := by
  obtain ⟨effect, counted, run⟩ := bind_eq_ok.1 run
  dsimp only at run
  split at run
  · next enough => exact ⟨effect, counted, enough, (pure_eq_ok.1 run).symm⟩
  · cases run

theorem peak_le_of_steps {pool : Pool} {instructions : List Instruction} {level final : Level}
    (run : instructions.foldlM (Level.step pool) level = .ok final) : level.peak ≤ final.peak := by
  induction instructions generalizing level with
  | nil => rw [pure_eq_ok.1 run]
  | cons instruction instructions ih =>
    obtain ⟨next, stepped, run⟩ := foldlM_cons_eq_ok.1 run
    obtain ⟨effect, -, -, rfl⟩ := Level.step_eq_ok stepped
    exact Nat.le_trans (Nat.le_max_left _ _) (ih run)

/-- Frames stay below the levels of a walk that starts no lower. -/
theorem heights_of_steps {instructions : List Instruction} {frame last : BlockFrame}
    {level final : Level} (below : frame.height ≤ level.height) (inside : level.height ≤ level.peak)
    (counted : instructions.foldlM (Level.step context.pool) level = .ok final)
    (run : instructions.foldlM (context.step block) frame = .ok last)
    (fits : ∀ count here instruction,
      (instructions.take count).foldlM (context.step block) frame = .ok here →
        instructions[count]? = some instruction → here.Fits context.pool instruction) :
    last.height ≤ final.height ∧ final.height ≤ final.peak ∧
      ∀ count, ∃ here, (instructions.take count).foldlM (context.step block) frame = .ok here ∧
        here.height ≤ final.peak := by
  induction instructions generalizing frame level with
  | nil =>
    obtain rfl := pure_eq_ok.1 counted
    obtain rfl := pure_eq_ok.1 run
    exact ⟨below, inside, fun count => ⟨frame, by rw [List.take_nil]; rfl, below.trans inside⟩⟩
  | cons instruction instructions ih =>
    have higher := peak_le_of_steps counted
    obtain ⟨next, stepped, counted⟩ := foldlM_cons_eq_ok.1 counted
    obtain ⟨middle, moved, run⟩ := foldlM_cons_eq_ok.1 run
    obtain ⟨effect, isEffect, enough, rfl⟩ := Level.step_eq_ok stepped
    have changes : middle.height + effect.pops = frame.height + effect.pushes :=
      CodeContext.step_changes (fits 0 frame instruction rfl rfl) isEffect moved
    have lower : middle.height ≤ level.height - effect.pops + effect.pushes := by omega
    obtain ⟨lastBelow, finalInside, points⟩ := ih lower (Nat.le_max_right _ _) counted run
      fun count here other reached isOther => fits (count + 1) here other
        (foldlM_cons_eq_ok.2 ⟨middle, moved, reached⟩) isOther
    refine ⟨lastBelow, finalInside, fun count => ?_⟩
    cases count with
    | zero => exact ⟨frame, rfl, (below.trans inside).trans higher⟩
    | succ count =>
      obtain ⟨here, reached, fitting⟩ := points count
      exact ⟨here, foldlM_cons_eq_ok.2 ⟨middle, moved, reached⟩, fitting⟩

theorem exits_of_stepBranch {frame out : BlockFrame} {branch : Branch Nat Nat Nat}
    (run : CodeContext.stepBranch frame branch = .ok out) (height : Nat) :
    exits height branch = (branch.targets ++ branch.next?.toList).map (·, height) := by
  cases branch with
  | jsr | jsrWide => cases run
  | _ => rfl

/-- A block that is walked from a height no lower than its frame. -/
theorem leave_bounded {frames : Array (Option BlockFrame)} {frame : BlockFrame} {code : CodeBlock}
    {height reached : Nat} {next : List Entry}
    (settled : Inference.Settled (fun lower upper => upper.height ≤ lower.height) context
      ⟨frames, []⟩ block frame code)
    (there : context.graph.blocks[block]? = some code)
    (operable : Operable context block frame code) (below : frame.height ≤ height)
    (run : leave context.graph context.pool block height code = .ok (reached, next)) :
    Bounded context block frame code reached ∧
      ∀ entry ∈ next, ∃ arriving, frames[entry.1]? = some (some arriving) ∧
        arriving.height ≤ entry.2 := by
  obtain ⟨level, counted, enough, isReached, rfl⟩ := leave_eq_ok run
  have higher : level.peak ≤ reached := isReached ▸ le_foldl_max _ _
  obtain ⟨last, out, through, left⟩ := settled.passes.along
  obtain ⟨lastBelow, inside, points⟩ := heights_of_steps below (Nat.le_refl height) counted through
    fun count here instruction reached isThere => operable.instructions count here instruction
      reached (by rwa [← Array.getElem?_toList])
  have fits := operable.branch last through
  have exits := exits_of_stepBranch left (level.height - code.branch.pops)
  refine ⟨⟨fun count _ => ?_, last, out, through, left, ?_⟩, fun entry member => ?_⟩
  · obtain ⟨here, arrived, fitting⟩ := points count
    exact ⟨here, arrived, fitting.trans higher⟩
  · have dropped := CodeContext.stepBranch_height_le fits left
    omega
  · rcases List.mem_append.1 member with caught | onward
    · obtain ⟨handler, covers, rfl⟩ := List.mem_map.1 caught
      obtain ⟨here, out, reached, isCaught⟩ :=
        settled.passes.thrown handler covers 0 (Nat.zero_le _)
      obtain ⟨arriving, found, lower⟩ := settled.covered handler.entry out
        (.thrown there (Nat.zero_le _) reached covers isCaught)
      obtain ⟨cls, rfl, -⟩ := Inference.caught_eq_ok isCaught
      exact ⟨arriving, Inference.frame?_eq_some.1 found, lower⟩
    · rw [exits] at onward
      obtain ⟨target, successor, rfl⟩ := List.mem_map.1 onward
      obtain ⟨arriving, found, lower⟩ := settled.covered target out
        (.along there through left successor)
      have dropped := CodeContext.stepBranch_height fits left successor
      exact ⟨arriving, Inference.frame?_eq_some.1 found, by dsimp only at lower ⊢; omega⟩

/-! ## The whole walk -/

/-- What the walk has found so far, given the frames that were inferred. -/
abbrev Walked (context : CodeContext) (frames : Array (Option BlockFrame)) :
    Array (Option Nat) → Nat → List Entry → Prop :=
  Tour context.graph
    (fun block _ peak => ∃ frame code, frames[block]? = some (some frame) ∧
      context.graph.blocks[block]? = some code ∧ Bounded context block frame code peak)
    fun entry => ∃ frame, frames[entry.1]? = some (some frame) ∧ frame.height ≤ entry.2

variable {frames : Array (Option BlockFrame)} {heights : Array (Option Nat)} {peak : Nat}
  {waiting : List Entry}

theorem visits_walked
    (stable : Inference.Stable (fun lower upper => upper.height ≤ lower.height) context
      (fun block _ => context.graph.Reachable block) ⟨frames, []⟩)
    (operable : ∀ (block : Nat) frame code, frames[block]? = some (some frame) →
      context.graph.blocks[block]? = some code → Operable context block frame code)
    {heights' : Array (Option Nat)} {peak' : Nat} (walked : Walked context frames heights peak waiting)
    (run : visits context.graph context.pool heights peak waiting = .ok (heights', peak')) :
    Walked context frames heights' peak' [] ∧
      ∀ block, (∃ height, heights[block]? = some (some height)) ∨ block ∈ waiting.map Prod.fst →
        ∃ height, heights'[block]? = some (some height) := by
  have leaves : ∀ block height code reached next,
      (∃ frame, frames[block]? = some (some frame) ∧ frame.height ≤ height) →
      context.graph.blocks[block]? = some code →
      leave context.graph context.pool block height code = .ok (reached, next) →
      (∃ frame code, frames[block]? = some (some frame) ∧
        context.graph.blocks[block]? = some code ∧ Bounded context block frame code reached) ∧
      ∀ entry ∈ next, ∃ frame, frames[entry.1]? = some (some frame) ∧ frame.height ≤ entry.2 := by
    rintro block height code reached next ⟨frame, found, lower⟩ there left
    obtain ⟨bounded, arriving⟩ := leave_bounded (stable.done found there) there
      (operable block frame code found there) lower left
    exact ⟨⟨frame, code, found, there, bounded⟩, arriving⟩
  have ending := visits_ending ?_ ?_ leaves walked
  · rw [run] at ending
    cases ending with
    | done tour kept => exact ⟨tour, kept⟩
  · rintro block - peak more ⟨frame, code, found, there, bounded⟩ le
    exact ⟨frame, code, found, there, bounded.mono le⟩
  · rintro entry ⟨frame, found, -⟩
    rw [← stable.sound.size]
    exact (Array.getElem?_eq_some_iff.1 found).1

/-- The walk and inference agree on the blocks that control reaches, and the
frames stay below the height that the walk finds. -/
theorem compute_bounds_frames {parameters : Nat} {limits : Limits} {hierarchy after : Hierarchy}
    (closed : context.graph.Closed)
    (computed : compute context.graph context.pool parameters = .ok limits)
    (inferred : (context.inferFrames limits.locals).run hierarchy = (.ok frames, after))
    (operable : ∀ (block : Nat) frame code, frames[block]? = some (some frame) →
      context.graph.blocks[block]? = some code → Operable context block frame code) :
    ∃ heights, visits context.graph context.pool
        (Array.replicate context.graph.blocks.size none) 0 [(0, 0)] = .ok (heights, limits.stack) ∧
      (∀ block : Nat, (∃ height, heights[block]? = some (some height)) ↔
        ∃ frame, frames[block]? = some (some frame)) ∧
      ∀ (block : Nat) frame code, frames[block]? = some (some frame) →
        context.graph.blocks[block]? = some code →
          Bounded context block frame code limits.stack := by
  obtain ⟨result, last, run, -, holds⟩ := Inference.inferFrames_answers
    (Inference.discipline_heights context) closed .refl hierarchy trivial
  obtain ⟨rfl, rfl⟩ := Prod.mk.inj (run.symm.trans inferred)
  obtain ⟨stable, first, isFirst, lower⟩ := holds frames rfl
  obtain ⟨peak, walk, computed⟩ := bind_eq_ok.1 computed
  have isPeak : limits.stack = peak := by
    dsimp only at computed
    split at computed
    · cases computed
    · split at computed
      · cases computed
      · rw [← pure_eq_ok.1 computed]
  rw [walk_eq_visits] at walk
  obtain ⟨⟨heights, _⟩, visited, rfl⟩ := map_eq_ok.1 walk
  have nothing : ∀ block height : Nat,
      (Array.replicate context.graph.blocks.size (none : Option Nat))[block]? ≠ some (some height) := by
    intro block height
    rw [Array.getElem?_replicate]
    split <;> simp
  have start : Walked context frames (Array.replicate context.graph.blocks.size none) 0 [(0, 0)] := by
    refine ⟨Array.size_replicate, fun block height found => absurd found (nothing block height),
      fun entry member => ?_, fun block height found => absurd found (nothing block height)⟩
    obtain rfl := List.mem_singleton.1 member
    exact ⟨first, Inference.frame?_eq_some.1 isFirst, lower⟩
  obtain ⟨final, kept⟩ := visits_walked stable operable start visited
  have reached : ∀ block, context.graph.Reachable block →
      ∃ height, heights[block]? = some (some height) := by
    intro block reachable
    induction reachable with
    | refl => exact kept 0 (.inr List.mem_cons_self)
    | tail _ edge ih =>
      obtain ⟨height, found⟩ := ih
      exact (final.edges _ height found _ edge).resolve_right List.not_mem_nil
  refine ⟨heights, by rw [visited, isPeak], fun block => ⟨?_, ?_⟩,
    fun block frame code found there => ?_⟩
  · rintro ⟨height, found⟩
    obtain ⟨frame, _, isFrame, -⟩ := final.bounded block height found
    exact ⟨frame, isFrame⟩
  · rintro ⟨frame, found⟩
    exact reached block (stable.sound.good block frame (Inference.frame?_eq_some.2 found))
  · obtain ⟨height, isHeight⟩ :=
      reached block (stable.sound.good block frame (Inference.frame?_eq_some.2 found))
    obtain ⟨frame', code', found', there', bounded⟩ := final.bounded block height isHeight
    obtain rfl := Option.some.inj (Option.some.inj (found.symm.trans found'))
    obtain rfl := Option.some.inj (there.symm.trans there')
    rw [isPeak]
    exact bounded

end

/-! ## A method with a branch and a handler -/

open Inference (guarded guardedFrames)

theorem guarded_walk : walk guarded.graph guarded.pool
    (Array.replicate guarded.graph.blocks.size none) 0 [(0, 0)] = .ok 1 :=
  calc
    _ = walk guarded.graph guarded.pool #[none, none, none, none, none] 0 [(0, 0)] := rfl
    _ = walk guarded.graph guarded.pool #[some 0, none, none, none, none] 1
          [(1, 0), (2, 0), (3, 1)] := walk_fresh 1 [(3, 1), (2, 0), (1, 0)] rfl rfl rfl
    _ = walk guarded.graph guarded.pool #[some 0, some 0, none, none, none] 1
          [(2, 0), (3, 1), (2, 0), (3, 1)] := walk_fresh 1 [(3, 1), (2, 0)] rfl rfl rfl
    _ = walk guarded.graph guarded.pool #[some 0, some 0, some 0, none, none] 1
          [(3, 1), (3, 1), (2, 0), (3, 1)] := walk_fresh 1 [(3, 1)] rfl rfl rfl
    _ = walk guarded.graph guarded.pool #[some 0, some 0, some 0, some 1, none] 1
          [(3, 1), (2, 0), (3, 1)] := walk_fresh 1 [] rfl rfl rfl
    _ = .ok 1 := by rw [walk_known rfl, walk_known rfl, walk_known rfl, walk]

theorem guarded_compute : compute guarded.graph guarded.pool 1 = .ok ⟨1, 2⟩ := by
  rw [compute, guarded_walk]
  rfl

theorem guarded_operable (block : Nat) (frame : BlockFrame) (code : CodeBlock)
    (found : guardedFrames[block]? = some (some frame))
    (there : guarded.graph.blocks[block]? = some code) : Operable guarded block frame code := by
  have loads : Frame.Fits guarded.pool
      ⟨[.object ClassName.throwable.text, .top], []⟩ (.load .reference 0) := by
    refine ⟨fun widths same => ?_, fun slot type same loaded => ?_⟩
    · obtain rfl := Except.ok.inj same
      exact List.nil_prefix
    · cases same
      obtain rfl := Option.some.inj loaded
      rfl
  match block with
  | 0 =>
    obtain rfl := Option.some.inj (Option.some.inj found)
    obtain rfl := Option.some.inj there
    refine ⟨fun count here instruction reached isThere => ?_, fun last reached => ?_⟩
    · match count with
      | 0 =>
        obtain rfl := Except.ok.inj reached
        obtain rfl := Option.some.inj isThere
        exact loads
    · obtain rfl := Except.ok.inj reached
      exact List.prefix_refl _
  | 1 =>
    obtain rfl := Option.some.inj (Option.some.inj found)
    obtain rfl := Option.some.inj there
    refine ⟨fun count here instruction reached isThere => ?_, fun last reached => ?_⟩
    · match count with
      | 0 =>
        obtain rfl := Except.ok.inj reached
        obtain rfl := Option.some.inj isThere
        exact loads
      | 1 =>
        obtain rfl := Except.ok.inj reached
        obtain rfl := Option.some.inj isThere
        refine ⟨fun widths same => ?_, fun slot type same => by cases same⟩
        obtain rfl := Except.ok.inj same
        exact List.prefix_refl _
    · exact List.nil_prefix
  | 2 | 3 =>
    obtain rfl := Option.some.inj (Option.some.inj found)
    obtain rfl := Option.some.inj there
    refine ⟨fun count here instruction reached isThere => (by cases isThere), fun last reached => ?_⟩
    obtain rfl := Except.ok.inj reached
    first | exact List.nil_prefix | exact List.prefix_refl _
  | 4 => cases Option.some.inj found

theorem compute_bounds_frames_guarded :
    compute guarded.graph guarded.pool 1 = .ok ⟨1, 2⟩ ∧
      ∃ heights, visits guarded.graph guarded.pool
          (Array.replicate guarded.graph.blocks.size none) 0 [(0, 0)] = .ok (heights, 1) ∧
        (∀ block : Nat, (∃ height, heights[block]? = some (some height)) ↔
          ∃ frame, guardedFrames[block]? = some (some frame)) ∧
        ∀ (block : Nat) frame code, guardedFrames[block]? = some (some frame) →
          guarded.graph.blocks[block]? = some code →
            Bounded guarded block frame code 1 :=
  ⟨guarded_compute, compute_bounds_frames Inference.guarded_closed guarded_compute
    (Inference.guarded_run .standard) guarded_operable⟩

end Limits
end ClassFile
