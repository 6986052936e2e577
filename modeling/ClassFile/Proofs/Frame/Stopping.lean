import Mathlib.Algebra.Order.BigOperators.Group.Finset
import Mathlib.Algebra.Order.Ring.Nat
import ClassFile.Proofs.Frame.Depths
import ClassFile.Proofs.Frame.Passing
import ClassFile.Proofs.Frame.PostFixed

namespace ClassFile
namespace Inference

/-!
# Inference stops

What is left to do is measured by the frames and the blocks that wait.  A block without a
frame counts for more than a frame of any rank could, so reaching it lowers the measure by
at least the one that its waiting adds.  So does joining a frame that changes, and a visit
takes a block off those that wait.

A rank is bounded by the size of a frame.  Stacks only grow along instructions, by two
operands at most, and a path that comes back to a block meets the stack that is there.  So
no stack is larger than the instructions of the blocks that have frames allow.
-/

open Hierarchy (Falls Ranks Shallow frameRank)

/-! ## Measures of frames -/

/-- The instructions of a block. -/
def codeSize (context : CodeContext) (block : Nat) : Nat :=
  context.graph.blocks[block]?.elim 0 fun code => code.instructions.size

/-- What the frames of all blocks come to, by a value for each. -/
def total (context : CodeContext) (value : Nat → Option BlockFrame → Nat) (progress : Progress) :
    Nat :=
  ∑ block ∈ Finset.range context.graph.blocks.size, value block (progress.frame? block)

/-- The instructions of the blocks that have frames. -/
def weight (context : CodeContext) : Progress → Nat :=
  total context fun block frame? => frame?.elim 0 fun _ => codeSize context block

/-- What is left to do, by the ranks of frames and the value of having none. -/
def left (context : CodeContext) (rank : BlockFrame → Nat) (none_ : Nat) (progress : Progress) :
    Nat :=
  total context (fun _ frame? => frame?.elim none_ rank) progress + progress.waiting.length

section

variable {context : CodeContext} {progress : Progress} {block : Nat} {frame : BlockFrame}

/-- Giving a block a frame changes the sum by what the block counts for. -/
theorem total_set (value : Nat → Option BlockFrame → Nat) (inside : block < context.graph.blocks.size)
    (size : progress.frames.size = context.graph.blocks.size) (waiting : List Nat) :
    total context value ⟨progress.frames.setIfInBounds block (some frame), waiting⟩ +
        value block (progress.frame? block) =
      total context value progress + value block (some frame) := by
  have here : Progress.frame? ⟨progress.frames.setIfInBounds block (some frame), waiting⟩ block =
      some frame := frame?_set_self (size ▸ inside)
  have member := Finset.mem_range.2 inside
  have elsewhere : ∀ other ∈ (Finset.range context.graph.blocks.size).erase block,
      value other (Progress.frame? ⟨progress.frames.setIfInBounds block (some frame), waiting⟩ other) =
        value other (progress.frame? other) := by
    intro other isOther
    rw [frame?_set_of_ne (Finset.ne_of_mem_erase isOther).symm]
  rw [total, total, ← Finset.add_sum_erase _ _ member, ← Finset.add_sum_erase _ _ member,
    Finset.sum_congr rfl elsewhere, here]
  omega

theorem foldl_add_eq_sum {α : Type} (value : α → Nat) (values : List α) (start : Nat) :
    values.foldl (fun sum one => sum + value one) start =
      start + ∑ index ∈ Finset.range values.length, values[index]?.elim 0 value := by
  induction values generalizing start with
  | nil => simp
  | cons first rest ih =>
    rw [List.foldl_cons, ih, List.length_cons, Finset.sum_range_succ']
    simp only [List.getElem?_cons_succ, List.getElem?_cons_zero, Option.elim_some]
    omega

/-- No block counts for more instructions than it has. -/
theorem weight_le (context : CodeContext) (progress : Progress) :
    weight context progress ≤
      context.graph.blocks.foldl (fun total code => total + code.instructions.size) 0 := by
  have sum : context.graph.blocks.foldl (fun total code => total + code.instructions.size) 0 =
      ∑ block ∈ Finset.range context.graph.blocks.size, codeSize context block := by
    rw [← Array.foldl_toList, foldl_add_eq_sum, Nat.zero_add, Array.length_toList]
    simp only [Array.getElem?_toList, codeSize]
  rw [sum, weight, total]
  apply Finset.sum_le_sum
  intro block _
  cases progress.frame? block with
  | none => exact Nat.zero_le _
  | some frame => exact Nat.le_refl _

theorem length_enqueue_le (block : Nat) (waiting : List Nat) :
    (enqueue block waiting).length ≤ waiting.length + 1 := by
  induction waiting with
  | nil => exact Nat.le_refl _
  | cons next rest ih =>
    rw [enqueue]
    split
    · exact Nat.le_refl _
    · split
      · exact Nat.le_succ _
      · exact Nat.succ_le_succ ih

/-- More blocks with frames, more instructions. -/
theorem weight_set (inside : block < context.graph.blocks.size)
    (size : progress.frames.size = context.graph.blocks.size) (waiting : List Nat) :
    weight context progress ≤
        weight context ⟨progress.frames.setIfInBounds block (some frame), waiting⟩ ∧
      (progress.frame? block = none →
        weight context ⟨progress.frames.setIfInBounds block (some frame), waiting⟩ =
          weight context progress + codeSize context block) := by
  have changed := @total_set context progress block frame
    (fun block frame? => frame?.elim 0 fun _ => codeSize context block) inside size waiting
  rw [← weight] at changed
  cases found : progress.frame? block with
  | none =>
    rw [found, Option.elim_none, Option.elim_some] at changed
    exact ⟨by omega, fun _ => by omega⟩
  | some known =>
    rw [found, Option.elim_some, Option.elim_some] at changed
    exact ⟨by omega, nofun⟩

/-- A frame that counts for less than what was there pays for a visit. -/
theorem left_set {rank : BlockFrame → Nat} {none_ : Nat} (inside : block < context.graph.blocks.size)
    (size : progress.frames.size = context.graph.blocks.size)
    (lower : rank frame < (progress.frame? block).elim none_ rank) :
    left context rank none_
        ⟨progress.frames.setIfInBounds block (some frame), enqueue block progress.waiting⟩ ≤
      left context rank none_ progress := by
  have changed := @total_set context progress block frame (fun _ frame? => frame?.elim none_ rank)
    inside size (enqueue block progress.waiting)
  have waits := length_enqueue_le block progress.waiting
  rw [Option.elim_some] at changed
  unfold left
  dsimp only
  omega

end

/-! ## What a visit passes on -/

/-- A frame of a method, with a number of locals and arrays no deeper than they can get. -/
structure Tame (context : CodeContext) (locals : Nat) (frame : BlockFrame) : Prop where
  locals : frame.locals.length = locals
  shallow : frame.Each (Shallow (deepest context))

section

variable {context : CodeContext} {locals block target : Nat} {frame after out : BlockFrame}

theorem Tame.steps (tame : Tame context locals frame) {instructions : List Instruction}
    (run : instructions.foldlM (context.step block) frame = .ok after) :
    Tame context locals after :=
  ⟨(CodeContext.length_steps run).trans tame.locals,
    foldlM_preserves (fun _ _ _ _ shallow stepped => shallow_step shallow stepped) tame.shallow run⟩

/-- What a visit passes on has the locals of the frame it was given. -/
theorem Tame.passed (tame : Tame context locals frame)
    (passed : Passed context block frame target out) : Tame context locals out := by
  cases passed with
  | along there through leaves successor =>
    have atEnd := tame.steps through
    obtain ⟨same, fewer⟩ := CodeContext.suffix_of_stepBranch leaves
    obtain ⟨kept, stack⟩ := out
    subst same
    exact ⟨atEnd.locals, atEnd.shallow.leave fewer.subset⟩
  | thrown there inside through covers isCaught =>
    have here := tame.steps through
    obtain ⟨cls, same, -⟩ := caught_eq_ok isCaught
    refine ⟨?_, shallow_caught here.shallow isCaught⟩
    rw [same]
    exact here.locals

theorem length_stack_steps_le {instructions : List Instruction}
    (run : instructions.foldlM (context.step block) frame = .ok after) :
    after.stack.length ≤ frame.stack.length + 2 * instructions.length := by
  induction instructions generalizing frame with
  | nil =>
    obtain rfl := pure_eq_ok.1 run
    exact Nat.le_refl _
  | cons instruction instructions ih =>
    obtain ⟨next, first, rest⟩ := foldlM_cons_eq_ok.1 run
    obtain ⟨effect, -, turns⟩ := (CodeContext.step_eq_ok block instruction next).1 first
    have grown := turns.length_stack_le
    have later := ih rest
    rw [List.length_cons]
    omega

/-- A stack that is passed on has grown by two operands an instruction at most, or holds what
was caught. -/
theorem length_stack_passed_le (passed : Passed context block frame target out) :
    out.stack.length ≤ max 1 (frame.stack.length + 2 * codeSize context block) := by
  cases passed with
  | along there through leaves successor =>
    have grown := length_stack_steps_le through
    have fewer := (CodeContext.suffix_of_stepBranch leaves).2.length_le
    rw [codeSize, there, Option.elim_some, ← Array.length_toList]
    omega
  | thrown there inside through covers isCaught =>
    obtain ⟨cls, rfl, -⟩ := caught_eq_ok isCaught
    exact Nat.le_max_left _ _

end

/-! ## The measure falls -/

/-- What the frames found so far have in common.  A stack leaves room for what the instructions
of its own block can add. -/
structure Bounded (context : CodeContext) (locals : Nat) (progress : Progress) : Prop where
  size : progress.frames.size = context.graph.blocks.size
  tame : ∀ block frame, progress.frame? block = some frame → Tame context locals frame
  stack : ∀ block frame, progress.frame? block = some frame →
    frame.stack.length + 2 * codeSize context block ≤ 2 * weight context progress + 1

/-- The greatest rank that a frame of a method can have. -/
def highest (context : CodeContext) (locals classes : Nat) : Nat :=
  let instructions := context.graph.blocks.foldl
    (fun total code => total + code.instructions.size) 0
  (locals + 2 * instructions + 2) * (classes + deepest context + 3)

/-- What is left to do, where ranks of classes are no greater than `classes + 1`. -/
def remaining (context : CodeContext) (locals classes : Nat) (rank : String → Nat) :
    Progress → Nat :=
  left context (frameRank rank (classes + deepest context + 3)) (highest context locals classes + 1)

/-- What a part of a visit does to the frames. -/
structure Spends (context : CodeContext) (locals : Nat) (measure : Progress → Nat)
    (before after : Progress) : Prop where
  bounded : Bounded context locals after
  weight : weight context before ≤ weight context after
  measure : measure after ≤ measure before

section

variable {origin : Hierarchy} (ends : Hierarchy.ChainsEnd origin.known) {rank : String → Nat}
  (ranks : Ranks origin.known rank) {classes : Nat} (bound : ∀ name, rank name ≤ classes + 1)
  {context : CodeContext} {locals : Nat} {progress : Progress}

/-- Giving a block a frame that is small enough. -/
theorem Bounded.set {target : Nat} {frame : BlockFrame} (bounded : Bounded context locals progress)
    (inside : target < context.graph.blocks.size) (tame : Tame context locals frame)
    (small : frame.stack.length + 2 * codeSize context target ≤
      2 * weight context ⟨progress.frames.setIfInBounds target (some frame),
        enqueue target progress.waiting⟩ + 1) :
    Bounded context locals
      ⟨progress.frames.setIfInBounds target (some frame), enqueue target progress.waiting⟩ := by
  have grows := (@weight_set context progress target frame inside bounded.size
    (enqueue target progress.waiting)).1
  constructor
  case size => exact Array.size_setIfInBounds.trans bounded.size
  case tame =>
    intro block known found
    rcases frame?_set_eq_some found with ⟨-, rfl⟩ | before
    · exact tame
    · exact bounded.tame block known before
  case stack =>
    intro block known found
    rcases frame?_set_eq_some found with ⟨rfl, rfl⟩ | before
    · exact small
    · have := bounded.stack block known before
      omega

include ends ranks bound

theorem reach_resolves (bounded : Bounded context locals progress) {target : Nat}
    (inside : target < context.graph.blocks.size) {incoming : BlockFrame}
    (tame : Tame context locals incoming)
    (small : incoming.stack.length ≤ 2 * weight context progress + 1) :
    Hierarchy.Query.Resolves (Hierarchy.Follows origin) Fault.Finite (reach target incoming progress)
      (Spends context locals (remaining context locals classes rank) progress) := by
  have grows : ∀ frame, weight context progress ≤ weight context
      ⟨progress.frames.setIfInBounds target (some frame), enqueue target progress.waiting⟩ :=
    fun frame => (weight_set inside bounded.size _).1
  unfold reach
  split
  · next known there =>
    have found : progress.frame? target = some known := by rw [Progress.frame?, there]; rfl
    have knownTame := bounded.tame target known found
    refine (Hierarchy.joinFrames_lowers ends ranks bound target
      (knownTame.locals.trans tame.locals.symm) knownTame.shallow tame.shallow).bind
        fun joined lowers => ?_
    split
    · exact Hierarchy.Query.resolves_pure ⟨bounded, Nat.le_refl _, Nat.le_refl _⟩
    · next changed =>
      have own := bounded.stack target known found
      refine Hierarchy.Query.resolves_pure ⟨bounded.set inside
        ⟨lowers.locals.trans knownTame.locals, lowers.shallow⟩ ?_, grows joined, ?_⟩
      · have := grows joined
        rw [lowers.stack]
        omega
      · apply left_set inside bounded.size
        rw [found]
        exact lowers.falls.resolve_left changed
  · next absent =>
    have none_ : progress.frame? target = none := by
      cases found : progress.frame? target with
      | none => rfl
      | some known => exact absurd (Option.join_eq_some_iff.1 found) (absent known)
    refine Hierarchy.Query.resolves_pure ⟨bounded.set inside tame ?_, grows incoming, ?_⟩
    · rw [(weight_set inside bounded.size _).2 none_]
      omega
    · apply left_set inside bounded.size
      rw [none_, Option.elim_none]
      apply Nat.lt_succ_of_le
      apply Hierarchy.frameRank_le bound tame.shallow
      have := weight_le context progress
      rw [tame.locals]
      omega

/-- A visit leaves no more to do than there was apart from it. -/
theorem visit_spends (closed : context.graph.Closed) (bounded : Bounded context locals progress)
    {block : Nat} {code : CodeBlock} {frame : BlockFrame}
    (there : context.graph.blocks[block]? = some code) (found : progress.frame? block = some frame) :
    Hierarchy.Query.Resolves (Hierarchy.Follows origin) Fault.Finite
      (visit context block code frame progress)
      (Spends context locals (remaining context locals classes rank) progress) := by
  have tame := bounded.tame block frame found
  have room := bounded.stack block frame found
  apply visit_resolves (fun _ => Fault.Plain.finite) there
  · intro _ _ _ site _
    exact CodeContext.siteClass_fails (fun _ => Fault.Plain.finite) (fun _ _ same => by cases same) site
  · intro middle target out spends passed
    have grown := length_stack_passed_le passed
    have more := spends.weight
    have inside := closed.edge passed.edge
    refine (reach_resolves ends ranks bound spends.bounded inside (tame.passed passed) (by omega)).mono
      fun after spends' => ?_
    exact ⟨spends'.bounded, Nat.le_trans spends.weight spends'.weight,
      Nat.le_trans spends'.measure spends.measure⟩
  · exact ⟨bounded, Nat.le_refl _, Nat.le_refl _⟩

/-- As many visits as are left to do are enough. -/
theorem run_spends (closed : context.graph.Closed) {visits : Nat}
    (bounded : Bounded context locals progress)
    (enough : remaining context locals classes rank progress ≤ visits) :
    Hierarchy.Query.Resolves (Hierarchy.Follows origin) Fault.Finite (run context visits progress)
      fun _ => True := by
  have popped : ∀ {frames block waiting}, Bounded context locals ⟨frames, block :: waiting⟩ →
      Bounded context locals ⟨frames, waiting⟩ :=
    fun bounded => ⟨bounded.size, bounded.tame, bounded.stack⟩
  have fewer : ∀ frames block waiting,
      remaining context locals classes rank ⟨frames, block :: waiting⟩ =
        remaining context locals classes rank ⟨frames, waiting⟩ + 1 :=
    fun _ _ _ => rfl
  have resolves : Hierarchy.Query.Resolves (Hierarchy.Follows origin) Fault.Finite
      (run context visits progress) fun frames => ∃ rest, Bounded context locals ⟨frames, []⟩ ∧
        remaining context locals classes rank ⟨frames, []⟩ ≤ rest := by
    refine @run_resolves context _ _ (fun visits progress => Bounded context locals progress ∧
      remaining context locals classes rank progress ≤ visits) ?_ ?_ ?_ _ _ ⟨bounded, enough⟩
    · intro visits frames block waiting code frame there found ⟨bounded, enough⟩
      rw [fewer] at enough
      refine (visit_spends ends ranks bound closed (popped bounded) there found).mono
        fun after spends => ⟨spends.bounded, ?_⟩
      exact Nat.le_trans spends.measure (Nat.le_of_succ_le_succ enough)
    · intro visits frames block waiting ⟨bounded, enough⟩
      rw [fewer] at enough
      exact ⟨popped bounded, Nat.le_of_succ_le_succ enough⟩
    · intro frames block waiting ⟨_, enough⟩
      rw [fewer] at enough
      exact absurd enough (Nat.not_succ_le_zero _)
  exact resolves.mono fun _ _ => trivial

end

/-! ## Enough visits -/

section

variable {context : CodeContext}

@[simp] theorem run_nil (visits : Nat) (frames : Array (Option BlockFrame)) :
    run context visits ⟨frames, []⟩ = pure frames := by
  rw [run]

/-- Visits beyond those that a run needs are not made. -/
theorem run_more {visits : Nat} {progress : Progress} {hierarchy : Hierarchy} (more : Nat)
    (finite : ∀ what, ((run context visits progress).run hierarchy).1 ≠ .error (.endless what)) :
    (run context (visits + more) progress).run hierarchy =
      (run context visits progress).run hierarchy := by
  induction visits generalizing progress hierarchy with
  | zero =>
    obtain ⟨frames, waiting⟩ := progress
    cases waiting with
    | nil => rw [run_nil, run_nil]
    | cons block waiting => exact absurd rfl (finite "frame")
  | succ visits ih =>
    obtain ⟨frames, waiting⟩ := progress
    cases waiting with
    | nil => rw [run_nil, run_nil]
    | cons block waiting =>
      rw [Nat.succ_add]
      rw [run] at finite ⊢
      conv_rhs => rw [run]
      split
      · next code frame there found =>
        rw [there, found] at finite
        dsimp only at finite
        rcases visited : (visit context block code frame ⟨frames, waiting⟩).run hierarchy with
          ⟨_ | next, after⟩
        · rw [Hierarchy.Query.run_bind_error visited, Hierarchy.Query.run_bind_error visited]
        · rw [Hierarchy.Query.run_bind_ok visited] at finite
          rw [Hierarchy.Query.run_bind_ok visited, Hierarchy.Query.run_bind_ok visited]
          exact ih finite
      · next nothing =>
        apply ih
        split at finite
        · next code frame there found => exact absurd found (nothing code frame there)
        · exact finite

/-- What is known when inference starts: the frame of the first block, which waits. -/
def start (context : CodeContext) (locals : Nat) : Progress :=
  ⟨(Array.replicate context.graph.blocks.size none).setIfInBounds 0
    (some (context.method.entryFrame.resize locals)), [0]⟩

theorem reach_start (context : CodeContext) (locals : Nat) (hierarchy : Hierarchy) :
    (reach 0 (context.method.entryFrame.resize locals)
        ⟨Array.replicate context.graph.blocks.size none, []⟩).run hierarchy =
      (.ok (start context locals), hierarchy) := by
  unfold reach
  dsimp only
  rw [Array.getElem?_replicate]
  by_cases inside : 0 < context.graph.blocks.size
  · rw [if_pos inside]
    rfl
  · rw [if_neg inside]
    rfl

theorem inferFrames_eq_run {locals : Nat} (fits : context.method.entryFrame.locals.length ≤ locals)
    (hierarchy : Hierarchy) :
    (context.inferFrames locals).run hierarchy =
      (run context (visitBound context locals hierarchy.classCount) (start context locals)).run
        hierarchy := by
  unfold CodeContext.inferFrames
  dsimp only
  rw [if_neg (Nat.not_lt.2 fits), Hierarchy.Query.run_bind_ok (reach_start context locals hierarchy),
    Hierarchy.Query.run_bind_ok (Hierarchy.Query.run_get _)]

theorem visitBound_eq (context : CodeContext) (locals classes : Nat) :
    visitBound context locals classes =
      context.graph.blocks.size * (highest context locals classes + 1) + 1 := by
  unfold visitBound highest deepest
  dsimp only
  congr 4

/-- Before any block is reached, each counts for more than any frame. -/
theorem remaining_nothing (context : CodeContext) (locals classes : Nat) (rank : String → Nat) :
    remaining context locals classes rank ⟨Array.replicate context.graph.blocks.size none, []⟩ =
      context.graph.blocks.size * (highest context locals classes + 1) := by
  simp [remaining, left, total, frame?_nothing]

/-- The visits allowed are enough. -/
theorem run_start_resolves (closed : context.graph.Closed) {hierarchy : Hierarchy}
    (ends : Hierarchy.ChainsEnd hierarchy.known) (learned : Hierarchy.Learned hierarchy)
    (locals : Nat) :
    Hierarchy.Query.Resolves (Hierarchy.Follows hierarchy) Fault.Finite
      (run context (visitBound context locals hierarchy.classCount) (start context locals))
      fun _ => True := by
  obtain ⟨rank, ranks, bound⟩ := ends.exists_ranks
  have nothing : Bounded context locals ⟨Array.replicate context.graph.blocks.size none, []⟩ := by
    constructor
    case size => exact Array.size_replicate
    all_goals
      intro block frame found
      rw [frame?_nothing] at found
      cases found
  have tame : Tame context locals (context.method.entryFrame.resize locals) :=
    ⟨Frame.length_resize _ _, shallow_entry context locals⟩
  obtain ⟨result, after, reached, -, -, reaches⟩ := reach_resolves ends ranks bound nothing
    closed.some_ tame (Nat.zero_le _) hierarchy learned.follows
  rw [reach_start] at reached
  obtain ⟨rfl, rfl⟩ := Prod.mk.inj reached
  have spends := reaches _ rfl
  apply run_spends ends ranks bound closed spends.bounded
  calc remaining context locals hierarchy.classCount rank (start context locals)
      ≤ context.graph.blocks.size * (highest context locals hierarchy.classCount + 1) :=
        remaining_nothing context locals hierarchy.classCount rank ▸ spends.measure
    _ ≤ visitBound context locals hierarchy.classCount := by
        rw [visitBound_eq]
        exact Nat.le_succ _

/-- Inference in a hierarchy without endless superclasses is not cut off, neither for visiting
too many blocks nor for following too many superclasses.  It makes as many visits as it needs,
and all that are allowed beyond change nothing. -/
theorem inferFrames_stops (closed : context.graph.Closed) {hierarchy : Hierarchy}
    (learned : Hierarchy.Learned hierarchy) (ends : Hierarchy.ChainsEnd hierarchy.known)
    (locals : Nat) :
    (∀ what, ((context.inferFrames locals).run hierarchy).1 ≠ .error (.endless what)) ∧
      (context.method.entryFrame.locals.length ≤ locals → ∀ visits,
        visitBound context locals hierarchy.classCount ≤ visits →
          (run context visits (start context locals)).run hierarchy =
            (context.inferFrames locals).run hierarchy) := by
  by_cases fits : context.method.entryFrame.locals.length ≤ locals
  · obtain ⟨result, after, answered, -, fails, -⟩ :=
      run_start_resolves closed ends learned locals hierarchy learned.follows
    have finite : ∀ what, ((run context (visitBound context locals hierarchy.classCount)
        (start context locals)).run hierarchy).1 ≠ .error (.endless what) := by
      rw [answered]
      exact fun what same => fails _ same what rfl
    rw [inferFrames_eq_run fits]
    refine ⟨finite, fun _ visits enough => ?_⟩
    obtain ⟨more, rfl⟩ := Nat.exists_eq_add_of_le enough
    exact run_more more finite
  · refine ⟨fun what => ?_, fun fits' => absurd fits' fits⟩
    unfold CodeContext.inferFrames
    dsimp only
    rw [if_pos (Nat.lt_of_not_le fits)]
    exact nofun

end

/-- Inference for `guarded` ends with its frames however many visits are allowed, from what
suffices. -/
theorem inferFrames_stops_guarded :
    guarded.graph.Closed ∧ Hierarchy.Learned (.ofGraph .standard []) ∧
      Hierarchy.ChainsEnd (Hierarchy.ofGraph .standard []).known ∧
      (∀ what, ((guarded.inferFrames 2).run (.ofGraph .standard [])).1 ≠ .error (.endless what)) ∧
        ∀ visits, visitBound guarded 2 (Hierarchy.ofGraph .standard []).classCount ≤ visits →
          (run guarded visits (start guarded 2)).run (.ofGraph .standard []) =
            (.ok guardedFrames, .ofGraph .standard []) := by
  have rooted : Hierarchy.Rooted (Hierarchy.ofGraph .standard []).known :=
    Hierarchy.known_ofGraph .standard ▸ ClassGraph.standard_rooted
  obtain ⟨finite, same⟩ :=
    inferFrames_stops guarded_closed (.fresh .standard []) rooted.chainsEnd 2
  refine ⟨guarded_closed, .fresh .standard [], rooted.chainsEnd, finite, fun visits enough => ?_⟩
  rw [same (by decide) visits enough]
  exact guarded_run .standard

end Inference
end ClassFile
