import ClassFile.Proofs.Frame.Known
import ClassFile.Proofs.Frame.Pairs
import ClassFile.Proofs.Frame.Stopping

namespace ClassFile
namespace Inference

/-!
# The moments of a run

A run of inference is many small acts: joining a frame into that of one block, or
taking one through an instruction.  `Moment` says where a run stands between two
acts and `advance` is the next act.  What is left of a run is `finish`, and every
act makes what is left smaller by just itself.  So the moments that acts lead to
from the start are all that a run goes through, and an invariant of the acts holds
of every frame that a run ever has.

Here the invariant is the shape of the local variables.
-/

open Hierarchy (Query)
open Hierarchy.Query

/-- Where a run stands, with the number of visits that it may still begin. -/
inductive Moment
  /-- Between visits. -/
  | resting (visits : Nat) (progress : Progress)
  /-- In a block, before some instructions that are left, while the frame there is
  given to some handlers that are left. -/
  | visiting (visits block : Nat) (code : CodeBlock) (instructions : List Instruction)
      (handlers : List Handler) (frame : BlockFrame) (progress : Progress)
  /-- Behind the branch of a block, while the frame there is given to some
  successors that are left. -/
  | leaving (visits : Nat) (targets : List Nat) (frame : BlockFrame) (progress : Progress)

namespace Moment

/-- The frames of the blocks reached so far. -/
def progress : Moment → Progress
  | resting _ progress | visiting _ _ _ _ _ _ progress | leaving _ _ _ progress => progress

/-- The frames that are taken through the code, or are on their way to other blocks. -/
inductive Takes (context : CodeContext) : Moment → BlockFrame → Prop
  | through {visits block : Nat} {code : CodeBlock} {instructions : List Instruction}
      {handlers : List Handler} {frame : BlockFrame} {progress : Progress} :
      Takes context (.visiting visits block code instructions handlers frame progress) frame
  | thrown {visits block : Nat} {code : CodeBlock} {instructions : List Instruction}
      {handlers : List Handler} {frame out : BlockFrame} {progress : Progress} {handler : Handler}
      (left : handler ∈ handlers) (isCaught : caught context.pool handler frame = .ok out) :
      Takes context (.visiting visits block code instructions handlers frame progress) out
  | along {visits : Nat} {targets : List Nat} {out : BlockFrame} {progress : Progress} :
      Takes context (.leaving visits targets out progress) out

/-- The frames that a run has at a moment. -/
def Has (context : CodeContext) (moment : Moment) (frame : BlockFrame) : Prop :=
  (∃ block, moment.progress.frame? block = some frame) ∨ moment.Takes context frame

/-- What a run does next: it ends with frames, or comes to another moment. -/
def advance (context : CodeContext) : Moment → Query (Array (Option BlockFrame) ⊕ Moment)
  | resting _ ⟨frames, []⟩ => return .inl frames
  | resting 0 _ => throw (.endless "frame")
  | resting (visits + 1) ⟨frames, block :: waiting⟩ =>
    match context.graph.blocks[block]?, frames[block]? with
    | some code, some (some frame) =>
      return .inr (.visiting visits block code code.instructions.toList
        (context.graph.handlersOf block) frame ⟨frames, waiting⟩)
    | _, _ => return .inr (.resting visits ⟨frames, waiting⟩)
  | visiting visits block code instructions (handler :: handlers) frame progress => do
    let progress ← reach handler.entry (← caught context.pool handler frame) progress
    return .inr (.visiting visits block code instructions handlers frame progress)
  | visiting visits block code (instruction :: instructions) [] frame progress => do
    let next ← context.step block frame instruction
    return .inr (.visiting visits block code instructions (context.graph.handlersOf block) next
      progress)
  | visiting visits _ code [] [] frame progress => do
    let out ← CodeContext.stepBranch frame code.branch
    return .inr (.leaving visits code.successors out progress)
  | leaving visits (target :: targets) out progress => do
    return .inr (.leaving visits targets out (← reach target out progress))
  | leaving visits [] _ progress => return .inr (.resting visits progress)

/-- What is left of a run in a block once its frame was given to the handlers. -/
def onwards (context : CodeContext) (visits block : Nat) (code : CodeBlock) :
    List Instruction → BlockFrame → Progress → Query (Array (Option BlockFrame))
  | [], frame, progress => do
    let out ← CodeContext.stepBranch frame code.branch
    let progress ← code.successors.foldlM (fun progress target => reach target out progress) progress
    run context visits progress
  | instruction :: instructions, frame, progress => do
    let next ← context.step block frame instruction
    let progress ← reachHandlers context.pool (context.graph.handlersOf block) next progress
    onwards context visits block code instructions next progress

/-- What is left of a run. -/
def finish (context : CodeContext) : Moment → Query (Array (Option BlockFrame))
  | resting visits progress => run context visits progress
  | visiting visits block code instructions handlers frame progress => do
    let progress ← reachHandlers context.pool handlers frame progress
    onwards context visits block code instructions frame progress
  | leaving visits targets out progress => do
    let progress ← targets.foldlM (fun progress target => reach target out progress) progress
    run context visits progress

end Moment

/-- A run from a hierarchy comes to a moment, and to another hierarchy by then. -/
inductive Comes (context : CodeContext) (locals : Nat) (origin : Hierarchy) : Moment → Hierarchy → Prop
  | start (fits : context.method.entryFrame.locals.length ≤ locals) :
      Comes context locals origin
        (.resting (visitBound context locals origin.classCount) (start context locals)) origin
  | advance {moment next : Moment} {before after : Hierarchy}
      (there : Comes context locals origin moment before)
      (act : (moment.advance context).run before = (.ok (.inr next), after)) :
      Comes context locals origin next after

/-! ## What is left of a run -/

section

variable {context : CodeContext} {visits block : Nat} {code : CodeBlock}

theorem instructions_onwards (instructions : List Instruction) (frame : BlockFrame)
    (progress : Progress) :
    (do
      let (frame, progress) ← instructions.foldlM (fun (frame, progress) instruction => do
        let progress ← reachHandlers context.pool (context.graph.handlersOf block) frame progress
        return (← context.step block frame instruction, progress)) (frame, progress)
      let progress ← reachHandlers context.pool (context.graph.handlersOf block) frame progress
      let frame ← CodeContext.stepBranch frame code.branch
      let progress ← code.successors.foldlM (fun progress target => reach target frame progress) progress
      run context visits progress) =
    (do
      let progress ← reachHandlers context.pool (context.graph.handlersOf block) frame progress
      Moment.onwards context visits block code instructions frame progress) := by
  induction instructions generalizing frame progress with
  | nil => simp only [List.foldlM_nil, pure_bind, Moment.onwards]
  | cons instruction instructions ih =>
    simp only [List.foldlM_cons, bind_assoc, pure_bind, ih, Moment.onwards]

theorem visit_bind_run (frame : BlockFrame) (progress : Progress) :
    (visit context block code frame progress >>= run context visits) =
      Moment.finish context (.visiting visits block code code.instructions.toList
        (context.graph.handlersOf block) frame progress) := by
  rw [Moment.finish, ← instructions_onwards, visit]
  simp only [bind_assoc]

/-- An act is the first thing that is left of a run, and the rest is left after it. -/
theorem Moment.finish_eq (moment : Moment) :
    moment.finish context = moment.advance context >>= Sum.elim pure (Moment.finish context) := by
  fun_cases advance context moment with
  | case1 visits frames =>
    cases visits <;> rfl
  | case2 progress waits =>
    rcases progress with ⟨frames, _ | ⟨block, waiting⟩⟩
    · exact absurd rfl (waits frames)
    · rfl
  | case3 visits frames block waiting code frame found there =>
    rw [pure_bind, Sum.elim_inr, ← visit_bind_run, finish, run, there, found]
  | case4 visits frames block waiting nothing =>
    rw [pure_bind, Sum.elim_inr, finish, finish, run]
    split
    · next code frame there found => exact absurd found (nothing code frame there)
    · rfl
  | case5 | case6 | case7 | case8 | case9 =>
    simp only [finish, reachHandlers, onwards, List.foldlM_cons, List.foldlM_nil, bind_assoc, pure_bind,
      Sum.elim_inr]

end

section

variable {context : CodeContext} {locals : Nat} {origin before after : Hierarchy}
  {moment next : Moment}

/-- From every moment on, a run ends as it does from the start. -/
theorem Comes.run_eq (comes : Comes context locals origin moment before) :
    (context.inferFrames locals).run origin = (moment.finish context).run before := by
  induction comes with
  | start fits => exact inferFrames_eq_run fits origin
  | @advance moment next before after there act ih =>
    rw [ih, Moment.finish_eq]
    exact run_bind_ok act

/-- The last act of a run is the one that it ends with. -/
def Ends (context : CodeContext) (locals : Nat) (origin : Hierarchy) : Prop :=
  ∃ last between, Comes context locals origin last between ∧
    (last.advance context).run between = (Sum.inl <$> context.inferFrames locals).run origin

/-- A run ends with an act, or comes to another moment by it. -/
theorem Comes.ends_or_next (comes : Comes context locals origin moment before) :
    Ends context locals origin ∨
      ∃ next after, (moment.advance context).run before = (.ok (.inr next), after) ∧
        Comes context locals origin next after := by
  have whole := comes.run_eq
  rw [Moment.finish_eq] at whole
  rcases act : (moment.advance context).run before with ⟨fault | frames | next, after⟩
  · refine .inl ⟨moment, before, comes, ?_⟩
    rw [run_bind_error act] at whole
    rw [act, map_eq_pure_bind, run_bind_error whole]
  · refine .inl ⟨moment, before, comes, ?_⟩
    rw [run_bind_ok act] at whole
    rw [act, map_eq_pure_bind, run_bind_ok whole]
    rfl
  · exact .inr ⟨next, after, rfl, comes.advance act⟩

section

variable {visits : Nat} (rests : ∀ progress between,
  Comes context locals origin (.resting visits progress) between → Ends context locals origin)
include rests

theorem Comes.ends_leaving {targets : List Nat} {out : BlockFrame} {progress : Progress}
    (comes : Comes context locals origin (.leaving visits targets out progress) before) :
    Ends context locals origin := by
  induction targets generalizing progress before with
  | nil =>
    rcases comes.ends_or_next with ends | ⟨next, after, act, there⟩
    · exact ends
    · cases act
      exact rests _ _ there
  | cons target targets ih =>
    rcases comes.ends_or_next with ends | ⟨next, after, act, there⟩
    · exact ends
    · rcases run_bind_eq_ok.1 act with ⟨reached, between, -, last⟩
      cases last
      exact ih there

omit rests in
theorem Comes.ends_throwing {block : Nat} {code : CodeBlock} {instructions : List Instruction}
    {frame : BlockFrame} (thrown : ∀ progress between,
      Comes context locals origin (.visiting visits block code instructions [] frame progress) between →
        Ends context locals origin)
    {handlers : List Handler} {progress : Progress}
    (comes : Comes context locals origin
      (.visiting visits block code instructions handlers frame progress) before) :
    Ends context locals origin := by
  induction handlers generalizing progress before with
  | nil => exact thrown _ _ comes
  | cons handler handlers ih =>
    rcases comes.ends_or_next with ends | ⟨next, after, act, there⟩
    · exact ends
    · rcases run_bind_eq_ok.1 act with ⟨out, between, -, onward⟩
      rcases run_bind_eq_ok.1 onward with ⟨reached, between', -, last⟩
      cases last
      exact ih there

theorem Comes.ends_visiting {block : Nat} {code : CodeBlock} {instructions : List Instruction}
    {handlers : List Handler} {frame : BlockFrame} {progress : Progress}
    (comes : Comes context locals origin
      (.visiting visits block code instructions handlers frame progress) before) :
    Ends context locals origin := by
  induction instructions generalizing handlers frame progress before with
  | nil =>
    refine comes.ends_throwing fun progress between thrown => ?_
    rcases thrown.ends_or_next with ends | ⟨next, after, act, there⟩
    · exact ends
    · rcases run_bind_eq_ok.1 act with ⟨out, between', -, last⟩
      cases last
      exact there.ends_leaving rests
  | cons instruction instructions ih =>
    refine comes.ends_throwing fun progress between thrown => ?_
    rcases thrown.ends_or_next with ends | ⟨next, after, act, there⟩
    · exact ends
    · rcases run_bind_eq_ok.1 act with ⟨out, between', -, last⟩
      cases last
      exact ih there

end

theorem Comes.ends_resting {visits : Nat} {progress : Progress}
    (comes : Comes context locals origin (.resting visits progress) before) :
    Ends context locals origin := by
  induction visits generalizing progress before with
  | zero =>
    rcases comes.ends_or_next with ends | ⟨next, after, act, there⟩
    · exact ends
    · rcases progress with ⟨frames, _ | ⟨block, waiting⟩⟩ <;> cases act
  | succ visits ih =>
    rcases comes.ends_or_next with ends | ⟨next, after, act, there⟩
    · exact ends
    · rcases progress with ⟨frames, _ | ⟨block, waiting⟩⟩
      · cases act
      · rw [Moment.advance] at act
        split at act
        · cases act
          exact there.ends_visiting fun _ _ => ih
        · cases act
          exact ih there

end

/-! ## Shapes -/

section

variable {context : CodeContext} {slots : Nat} {progress : Progress} {frame : BlockFrame}

/-- All frames found so far are well shaped. -/
def Progress.Shaped (slots : Nat) (progress : Progress) : Prop :=
  ∀ block frame, progress.frame? block = some frame → frame.Shaped slots

theorem reach_shaped (shaped : progress.Shaped slots) (incoming : frame.Shaped slots) (block : Nat) :
    Answers (fun _ => True) (reach block frame progress) (Progress.Shaped slots) := by
  have kept : ∀ {joined : BlockFrame}, joined.Shaped slots → ∀ waiting,
      Progress.Shaped slots ⟨progress.frames.setIfInBounds block (some joined), waiting⟩ := by
    intro joined good waiting other known found
    rcases frame?_set_eq_some found with ⟨-, rfl⟩ | before
    · exact good
    · exact shaped other known before
  unfold reach
  split
  · next known there =>
    have found : progress.frame? block = some known := by rw [Progress.frame?, there]; rfl
    refine (Hierarchy.joinFrames_shaped (shaped block known found) incoming).bind fun joined good => ?_
    split
    · exact (succeeds_pure shaped).answers
    · exact (succeeds_pure (kept good _)).answers
  · exact (succeeds_pure (kept incoming _)).answers

/-- All frames that a run has at a moment are well shaped. -/
structure Moment.Shaped (context : CodeContext) (slots : Nat) (moment : Moment) : Prop where
  found : moment.progress.Shaped slots
  taken : ∀ frame, moment.Takes context frame → frame.Shaped slots

theorem Moment.shaped_resting (found : progress.Shaped slots) (visits : Nat) :
    Moment.Shaped context slots (.resting visits progress) := by
  refine ⟨found, fun frame takes => ?_⟩
  cases takes

theorem Moment.shaped_leaving {visits : Nat} {targets : List Nat} (found : progress.Shaped slots)
    (shaped : frame.Shaped slots) :
    Moment.Shaped context slots (.leaving visits targets frame progress) := by
  refine ⟨found, fun other takes => ?_⟩
  cases takes
  exact shaped

theorem Moment.shaped_visiting {visits block : Nat} {code : CodeBlock}
    {instructions : List Instruction} {handlers : List Handler} (found : progress.Shaped slots)
    (shaped : frame.Shaped slots) :
    Moment.Shaped context slots (.visiting visits block code instructions handlers frame progress) := by
  refine ⟨found, fun other takes => ?_⟩
  cases takes with
  | through => exact shaped
  | thrown left isCaught =>
    rcases caught_eq_ok isCaught with ⟨cls, rfl, -⟩
    exact shaped.of_locals rfl

theorem Moment.Shaped.next {moment : Moment} (shaped : moment.Shaped context slots) :
    Answers (fun _ => True) (pure (.inr moment) : Query (Array (Option BlockFrame) ⊕ Moment))
      (Sum.elim (fun _ => True) (Moment.Shaped context slots)) := by
  have here : Sum.elim (fun _ => True) (Moment.Shaped context slots)
      (.inr moment : Array (Option BlockFrame) ⊕ Moment) := shaped
  exact (succeeds_pure here).answers

/-- An act keeps the shape of all frames. -/
theorem Moment.Shaped.advance {moment : Moment} (shaped : moment.Shaped context slots) :
    Answers (fun _ => True) (moment.advance context)
      (Sum.elim (fun _ => True) (Moment.Shaped context slots)) := by
  fun_cases Moment.advance context moment with
  | case1 visits frames => exact (succeeds_pure trivial).answers
  | case2 progress waits => exact answers_throw
  | case3 visits frames block waiting code frame found there =>
    have known : Progress.frame? ⟨frames, waiting⟩ block = some frame := by
      rw [Progress.frame?, found]
      rfl
    have rest : Progress.Shaped slots ⟨frames, waiting⟩ := shaped.found
    exact (shaped_visiting rest (rest block frame known)).next
  | case4 visits frames block waiting nothing =>
    have rest : Progress.Shaped slots ⟨frames, waiting⟩ := shaped.found
    exact (shaped_resting rest visits).next
  | case5 visits block code instructions handler handlers frame progress =>
    refine (answers_lift _).bind fun out isCaught => ?_
    have thrown := shaped.taken out (.thrown List.mem_cons_self isCaught)
    refine (reach_shaped shaped.found thrown handler.entry).bind fun reached found => ?_
    exact (shaped_visiting found (shaped.taken frame .through)).next
  | case6 visits block code instruction instructions frame progress =>
    refine (answers_lift _).bind fun next stepped => ?_
    have after := (shaped.taken frame .through).step stepped
    exact (shaped_visiting shaped.found after).next
  | case7 visits block code frame progress =>
    refine (answers_lift _).bind fun out left => ?_
    have after := (shaped.taken frame .through).of_locals (CodeContext.suffix_of_stepBranch left).1
    exact (shaped_leaving shaped.found after).next
  | case8 visits target targets out progress =>
    have along := shaped.taken out .along
    refine (reach_shaped shaped.found along target).bind fun reached found => ?_
    exact (shaped_leaving found along).next
  | case9 visits out progress => exact (shaped_resting shaped.found visits).next

theorem shaped_start (fits : context.method.entryFrame.locals.length ≤ slots) :
    (start context slots).Shaped slots := by
  intro block frame found
  rw [start] at found
  rcases @frame?_set_eq_some ⟨Array.replicate context.graph.blocks.size none, []⟩ _ _ _ _ _ found with
    ⟨-, rfl⟩ | before
  · exact context.method.shaped_entryFrame fits
  · rw [frame?_nothing] at before
    cases before

theorem Comes.shaped {origin before : Hierarchy} {moment : Moment}
    (comes : Comes context slots origin moment before) : moment.Shaped context slots := by
  induction comes with
  | start fits => exact Moment.shaped_resting (shaped_start fits) _
  | @advance moment next before after there act ih =>
    rcases ih.advance before trivial with ⟨result, between, run, -, holds⟩
    rw [act] at run
    cases run
    exact holds _ rfl

end

/-- At every moment that a run comes to, the rest of the run is what is left from there, and
all frames have a type for each local variable slot, with an unusable slot after each wide
one, so that they can be had back from what a class file lists of them.  Whether a run ends
with frames or fails, it does so from such a moment. -/
theorem inferFrames_keeps_shapes (context : CodeContext) (locals : Nat) (origin : Hierarchy) :
    (∀ moment between, Comes context locals origin moment between →
      (context.inferFrames locals).run origin = (moment.finish context).run between ∧
        ∀ frame, moment.Has context frame → frame.Shaped locals ∧
          (Frame.ofEntries frame.entries frame.operands).resize locals = frame) ∧
    (context.method.entryFrame.locals.length ≤ locals → Ends context locals origin) := by
  constructor
  · intro moment between comes
    refine ⟨comes.run_eq, fun frame has => ?_⟩
    have shaped : frame.Shaped locals := by
      rcases has with ⟨block, found⟩ | taken
      · exact comes.shaped.found block frame found
      · exact comes.shaped.taken frame taken
    exact ⟨shaped, shaped.resize_ofEntries⟩
  · exact fun fits => (Comes.start fits).ends_resting

/-- A method with a `long` and an `int` that stores the second into the upper slot of the first. -/
def overlapping : CodeContext where
  graph := {
    blocks := #[⟨none, #[.load .int 2, .store .int 1], .returns none⟩]
    handlers := []
    labels := ∅ }
  method := ⟨ClassName.object.text, "cut", ⟨[.base .long, .base .int], none⟩, true⟩
  pool := .empty

/-- The frame behind the store. -/
def overlapped : BlockFrame :=
  ⟨[.top, .integer, .integer], []⟩

theorem overlapping_comes (graph : ClassGraph) :
    ∃ moment, Comes overlapping 3 (.ofGraph graph []) moment (.ofGraph graph []) ∧
      moment.Has overlapping overlapped := by
  have some_ : 0 < overlapping.graph.blocks.size := Nat.succ_pos 0
  rcases exists_visitBound some_ 3 (Hierarchy.classCount (.ofGraph graph [])) with ⟨more, enough⟩
  have before : Comes overlapping 3 (.ofGraph graph []) _ _ := .start (Nat.le_refl 3)
  rw [enough] at before
  have visited := before.advance rfl
  have loaded := visited.advance rfl
  have stored := loaded.advance rfl
  exact ⟨_, stored, .inr .through⟩

theorem overlapping_keeps_shapes : ∃ origin moment between,
    Comes overlapping 3 origin moment between ∧
      (overlapping.inferFrames 3).run origin = (moment.finish overlapping).run between ∧
      overlapped.Shaped 3 ∧ (Frame.ofEntries overlapped.entries overlapped.operands).resize 3 =
        overlapped := by
  rcases overlapping_comes .empty with ⟨moment, comes, has⟩
  have kept := (inferFrames_keeps_shapes overlapping 3 _).1 moment _ comes
  exact ⟨_, moment, _, comes, kept.1, kept.2 overlapped has⟩

end Inference
end ClassFile
