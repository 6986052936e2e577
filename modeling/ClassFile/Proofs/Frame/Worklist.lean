import ClassFile.Frame.Inference
import ClassFile.Proofs.Frame.Joining
import ClassFile.Proofs.Graph.Closed

namespace ClassFile

/-!
# Visiting blocks until no frame changes

A visit joins frames into those of other blocks, and `Passed` says which.  Frames
only ever move up, so a block that was covered once stays covered, and a block
whose frame has changed waits to be visited again.  Hence the blocks that do not
wait are at all times `Settled`: all that they pass on is covered.  When none
waits any more, this is so for every block.

What is said of the single frames is left open.  A `Discipline` is any property
that starts out true and that joins and visits keep.
-/

namespace Inference

/-- The frames that a visit with the given frame of a block passes on, and the
blocks that it passes them to. -/
inductive Passed (context : CodeContext) (block : Nat) (frame : BlockFrame) : Nat → BlockFrame → Prop
  | along {code : CodeBlock} {last out : BlockFrame} {target : Nat}
      (there : context.graph.blocks[block]? = some code)
      (through : code.instructions.toList.foldlM (context.step block) frame = .ok last)
      (left : CodeContext.stepBranch last code.branch = .ok out)
      (successor : target ∈ code.successors) : Passed context block frame target out
  | thrown {code : CodeBlock} {here out : BlockFrame} {handler : Handler} {count : Nat}
      (there : context.graph.blocks[block]? = some code) (inside : count ≤ code.instructions.size)
      (through : (code.instructions.toList.take count).foldlM (context.step block) frame = .ok here)
      (covers : handler ∈ context.graph.handlersOf block)
      (caught : caught context.pool handler here = .ok out) :
      Passed context block frame handler.entry out

theorem Passed.edge {context : CodeContext} {block target : Nat} {frame out : BlockFrame}
    (passed : Passed context block frame target out) : context.graph.Edge block target := by
  cases passed with
  | along there through left successor =>
    refine .inl ?_
    rw [FlowGraph.successors, there]
    exact successor
  | thrown there inside through covers caught => exact .inr ⟨_, covers, rfl⟩

/-- A visit with the given frame of a block does not fail in the block. -/
structure Passes (context : CodeContext) (block : Nat) (frame : BlockFrame) (code : CodeBlock) :
    Prop where
  along : ∃ last out, code.instructions.toList.foldlM (context.step block) frame = .ok last ∧
    CodeContext.stepBranch last code.branch = .ok out
  thrown : ∀ handler ∈ context.graph.handlersOf block, ∀ count ≤ code.instructions.size,
    ∃ here out, (code.instructions.toList.take count).foldlM (context.step block) frame = .ok here ∧
      caught context.pool handler here = .ok out

/-- A frame covers two others and has a property. -/
structure Joins (below : BlockFrame → BlockFrame → Prop) (good : BlockFrame → Prop)
    (known incoming joined : BlockFrame) : Prop where
  covers : below known joined
  coversOther : below incoming joined
  good : good joined

/-- A property of frames that a visit passes on, together with an order in which
joining frames that have it goes up.  Joining may ask questions of a hierarchy
with a property that they keep. -/
structure Discipline (context : CodeContext) (keeps : Hierarchy → Prop)
    (below : BlockFrame → BlockFrame → Prop) (good : Nat → BlockFrame → Prop) : Prop where
  refl : ∀ frame, below frame frame
  trans : ∀ lower middle upper, below lower middle → below middle upper → below lower upper
  join : ∀ block known incoming, good block known → good block incoming →
    Hierarchy.Query.Answers keeps (Hierarchy.joinFrames block known incoming)
      (Joins below (good block) known incoming)
  passed : ∀ block frame target out, good block frame → Passed context block frame target out →
    good target out

/-- The frame of a block, if one was found. -/
def Progress.frame? (progress : Progress) (block : Nat) : Option BlockFrame :=
  progress.frames[block]?.join

section

variable (below : BlockFrame → BlockFrame → Prop)

/-- A block has a frame that covers the given one. -/
def Reached (progress : Progress) (target : Nat) (incoming : BlockFrame) : Prop :=
  ∃ there, progress.frame? target = some there ∧ below incoming there

/-- Frames move up, and blocks whose frame has changed wait. -/
structure Grows (before after : Progress) : Prop where
  size : after.frames.size = before.frames.size
  waits : ∀ block ∈ before.waiting, block ∈ after.waiting
  up : ∀ block frame, before.frame? block = some frame → Reached below after block frame
  kept : ∀ block, block ∉ after.waiting → after.frame? block = before.frame? block

/-- All frames have a property, and there is room for one at every block. -/
structure Sound (context : CodeContext) (good : Nat → BlockFrame → Prop) (progress : Progress) :
    Prop where
  size : progress.frames.size = context.graph.blocks.size
  good : ∀ block frame, progress.frame? block = some frame → good block frame

/-- All that a visit would pass on is covered already. -/
structure Settled (context : CodeContext) (progress : Progress) (block : Nat) (frame : BlockFrame)
    (code : CodeBlock) : Prop where
  passes : Passes context block frame code
  covered : ∀ target out, Passed context block frame target out →
    Reached below progress target out

/-- The frames that handlers of a block are given after some of its instructions
are covered. -/
def Handled (context : CodeContext) (block : Nat) (frame : BlockFrame) (code : CodeBlock)
    (count : Nat) (progress : Progress) : Prop :=
  ∀ handler ∈ context.graph.handlersOf block, ∃ here out,
    (code.instructions.toList.take count).foldlM (context.step block) frame = .ok here ∧
      caught context.pool handler here = .ok out ∧ Reached below progress handler.entry out

/-- What holds between visits. -/
structure Stable (context : CodeContext) (good : Nat → BlockFrame → Prop) (progress : Progress) :
    Prop where
  sound : Sound context good progress
  settled : ∀ block frame code, block ∉ progress.waiting → progress.frame? block = some frame →
    context.graph.blocks[block]? = some code → Settled below context progress block frame code

end

/-! ## Queues and frames -/

theorem mem_enqueue {block other : Nat} {waiting : List Nat} :
    other ∈ enqueue block waiting ↔ other = block ∨ other ∈ waiting := by
  induction waiting with
  | nil => rw [enqueue, List.mem_singleton, List.mem_nil_iff, or_false]
  | cons next rest ih =>
    rw [enqueue]
    split
    · rw [List.mem_cons]
    · split
      · next same =>
        rw [same, List.mem_cons]
        exact ⟨.inr, fun either => either.elim .inl id⟩
      · rw [List.mem_cons, ih, List.mem_cons, or_left_comm]

/-- At first no block has a frame. -/
theorem frame?_nothing (blocks block : Nat) :
    Progress.frame? ⟨Array.replicate blocks none, []⟩ block = none := by
  rw [Progress.frame?, Array.getElem?_replicate]
  split <;> rfl

section

variable {progress : Progress} {block other : Nat} {frame : BlockFrame} {waiting : List Nat}

theorem frame?_set_self (inside : block < progress.frames.size) :
    Progress.frame? ⟨progress.frames.setIfInBounds block (some frame), waiting⟩ block =
      some frame := by
  rw [Progress.frame?, Array.getElem?_setIfInBounds_self_of_lt inside]
  rfl

theorem frame?_set_of_ne (different : block ≠ other) :
    Progress.frame? ⟨progress.frames.setIfInBounds block (some frame), waiting⟩ other =
      progress.frame? other := by
  rw [Progress.frame?, Progress.frame?, Array.getElem?_setIfInBounds_ne different]

theorem frame?_set_eq_some {known : BlockFrame}
    (found : Progress.frame? ⟨progress.frames.setIfInBounds block (some frame), waiting⟩ other =
      some known) : block = other ∧ frame = known ∨ progress.frame? other = some known := by
  by_cases same : block = other
  · subst same
    by_cases inside : block < progress.frames.size
    · exact .inl ⟨rfl, Option.some.inj ((frame?_set_self inside).symm.trans found)⟩
    · rw [Progress.frame?, Array.getElem?_eq_none (by simpa using inside)] at found
      cases found
  · exact .inr ((frame?_set_of_ne same).symm.trans found)

end

/-! ## Instructions -/

/-- Going through a block keeps what is kept by reaching its handlers before each instruction. -/
theorem instructions_resolves {context : CodeContext} {keeps : Hierarchy → Prop}
    {kind : Fault → Prop} {block : Nat} {code : CodeBlock} {frame : BlockFrame}
    {progress : Progress} {holds : Nat → Progress → Prop}
    (steps : ∀ count here instruction fault,
      (code.instructions.toList.take count).foldlM (context.step block) frame = .ok here →
        context.step block here instruction = .error fault → kind fault)
    (handlers : ∀ count here middle, count < code.instructions.size →
      (code.instructions.toList.take count).foldlM (context.step block) frame = .ok here →
        holds count middle → Hierarchy.Query.Resolves keeps kind
          (reachHandlers context.pool (context.graph.handlersOf block) here middle)
          (holds (count + 1)))
    (start : holds 0 progress) :
    Hierarchy.Query.Resolves keeps kind
      (code.instructions.toList.foldlM (fun (frame, progress) instruction => do
        let progress ← reachHandlers context.pool (context.graph.handlersOf block) frame progress
        return (← context.step block frame instruction, progress)) (frame, progress))
      fun state => code.instructions.toList.foldlM (context.step block) frame = .ok state.1 ∧
        holds code.instructions.size state.2 := by
  rw [← Array.length_toList]
  refine Hierarchy.Query.resolves_foldlM (fun taken (state : BlockFrame × Progress) =>
    taken.foldlM (context.step block) frame = .ok state.1 ∧ holds taken.length state.2)
    ?_ ⟨rfl, start⟩
  intro taken instruction left whole (here, middle) ⟨through, kept⟩
  have inside : taken.length < code.instructions.size := by
    rw [← Array.length_toList, ← whole, List.length_append]
    exact Nat.lt_add_of_pos_right (Nat.succ_pos _)
  have through' : (code.instructions.toList.take taken.length).foldlM (context.step block) frame =
      .ok here := by
    rw [← whole, List.take_left]
    exact through
  refine (handlers taken.length here middle inside through' kept).bind fun after kept' => ?_
  have fails := fun fault => steps taken.length here instruction fault through'
  refine (Hierarchy.Query.resolves_lift fails).bind fun next stepped =>
    Hierarchy.Query.resolves_pure ⟨?_, ?_⟩
  · exact foldlM_append_eq_ok.2 ⟨here, through, foldlM_cons_eq_ok.2 ⟨next, stepped, rfl⟩⟩
  · rw [List.length_append]
    exact kept'

section

variable {context : CodeContext} {keeps : Hierarchy → Prop}
  {below : BlockFrame → BlockFrame → Prop} {good : Nat → BlockFrame → Prop}
  (discipline : Discipline context keeps below good)
include discipline

theorem Grows.refl (progress : Progress) : Grows below progress progress :=
  ⟨rfl, fun _ => id, fun _ frame found => ⟨frame, found, discipline.refl frame⟩, fun _ _ => rfl⟩

theorem Grows.reached {before after : Progress} (grows : Grows below before after) {target : Nat}
    {incoming : BlockFrame} (reached : Reached below before target incoming) :
    Reached below after target incoming := by
  obtain ⟨there, found, covers⟩ := reached
  obtain ⟨higher, found', above⟩ := grows.up target there found
  exact ⟨higher, found', discipline.trans _ _ _ covers above⟩

theorem Grows.trans {first second third : Progress} (earlier : Grows below first second)
    (later : Grows below second third) : Grows below first third := by
  refine ⟨later.size.trans earlier.size, fun block waits => later.waits _ (earlier.waits _ waits),
    fun block frame found => later.reached discipline (earlier.up block frame found),
    fun block waits => ?_⟩
  rw [later.kept block waits]
  exact earlier.kept block fun there => waits (later.waits block there)

/-- Giving a block a frame above the one it had. -/
theorem Grows.set {progress : Progress} {block : Nat} {frame : BlockFrame}
    (inside : block < progress.frames.size)
    (up : ∀ known, progress.frame? block = some known → below known frame) :
    Grows below progress
      ⟨progress.frames.setIfInBounds block (some frame), enqueue block progress.waiting⟩ := by
  refine ⟨Array.size_setIfInBounds, fun other waits => mem_enqueue.2 (.inr waits), ?_, ?_⟩
  · intro other known found
    by_cases same : block = other
    · subst same
      exact ⟨frame, frame?_set_self inside, up known found⟩
    · exact ⟨known, (frame?_set_of_ne same).trans found, discipline.refl known⟩
  · intro other waits
    have different : block ≠ other := fun same => waits (mem_enqueue.2 (.inl same.symm))
    exact frame?_set_of_ne different

omit discipline in
theorem Sound.set {progress : Progress} (sound : Sound context good progress) {block : Nat}
    {frame : BlockFrame} (inside : block < progress.frames.size) (frameGood : good block frame)
    (waiting : List Nat) :
    Sound context good ⟨progress.frames.setIfInBounds block (some frame), waiting⟩ := by
  refine ⟨Array.size_setIfInBounds.trans sound.size, fun other known found => ?_⟩
  by_cases same : block = other
  · subst same
    obtain rfl := Option.some.inj ((frame?_set_self inside).symm.trans found)
    exact frameGood
  · exact sound.good other known ((frame?_set_of_ne same).symm.trans found)

/-! ## Visits -/

/-- What a part of a visit does to the frames. -/
structure Moves (context : CodeContext) (below : BlockFrame → BlockFrame → Prop)
    (good : Nat → BlockFrame → Prop) (before after : Progress) : Prop where
  sound : Sound context good after
  grows : Grows below before after

theorem Moves.trans {first second third : Progress} (earlier : Moves context below good first second)
    (later : Moves context below good second third) : Moves context below good first third :=
  ⟨later.sound, earlier.grows.trans discipline later.grows⟩

theorem reach_answers {progress : Progress} (sound : Sound context good progress) {target : Nat}
    (inside : target < context.graph.blocks.size) {incoming : BlockFrame}
    (incomingGood : good target incoming) :
    Hierarchy.Query.Answers keeps (reach target incoming progress) fun after =>
      Moves context below good progress after ∧ Reached below after target incoming := by
  rw [← sound.size] at inside
  unfold reach
  split
  · next known there =>
    have found : progress.frame? target = some known := by rw [Progress.frame?, there]; rfl
    have knownGood := sound.good target known found
    refine (discipline.join target known incoming knownGood incomingGood).bind
      fun joined isJoin => ?_
    split
    · next same =>
      subst same
      exact (Hierarchy.Query.succeeds_pure
        ⟨⟨sound, .refl discipline progress⟩, joined, found, isJoin.coversOther⟩).answers
    · refine (Hierarchy.Query.succeeds_pure ⟨⟨sound.set inside isJoin.good _,
        .set discipline inside fun other found' => ?_⟩, joined, ?_, isJoin.coversOther⟩).answers
      · obtain rfl := Option.some.inj (found.symm.trans found')
        exact isJoin.covers
      · exact frame?_set_self inside
  · next absent =>
    refine (Hierarchy.Query.succeeds_pure ⟨⟨sound.set inside incomingGood _,
      .set discipline inside fun other found' => ?_⟩, incoming, ?_, discipline.refl _⟩).answers
    · exact absurd (Option.join_eq_some_iff.1 found') (absent other)
    · exact frame?_set_self inside

theorem Handled.grow {block count : Nat} {frame : BlockFrame} {code : CodeBlock}
    {before after : Progress} (handled : Handled below context block frame code count before)
    (grows : Grows below before after) : Handled below context block frame code count after := by
  intro handler covers
  obtain ⟨here, out, through, caught, reached⟩ := handled handler covers
  exact ⟨here, out, through, caught, grows.reached discipline reached⟩

theorem reachHandlers_answers (closed : context.graph.Closed) {progress : Progress}
    (sound : Sound context good progress) {block count : Nat} {frame here : BlockFrame}
    {code : CodeBlock} (frameGood : good block frame)
    (there : context.graph.blocks[block]? = some code) (inside : count ≤ code.instructions.size)
    (through : (code.instructions.toList.take count).foldlM (context.step block) frame =
      .ok here) :
    Hierarchy.Query.Answers keeps
      (reachHandlers context.pool (context.graph.handlersOf block) here progress) fun after =>
        Moves context below good progress after ∧
          Handled below context block frame code count after := by
  refine Hierarchy.Query.Answers.mono (Hierarchy.Query.answers_foldlM
    (fun taken after => Moves context below good progress after ∧
      ∀ handler ∈ taken, ∃ out, caught context.pool handler here = .ok out ∧
        Reached below after handler.entry out)
    ?_ ⟨⟨sound, .refl discipline progress⟩, fun _ member => (by cases member)⟩) ?_
  · intro taken handler left whole middle ⟨moves, all⟩
    have covers : handler ∈ context.graph.handlersOf block := by
      rw [← whole]
      exact List.mem_append_right _ List.mem_cons_self
    refine (Hierarchy.Query.answers_lift _).bind fun out caught => ?_
    have outGood := discipline.passed block frame handler.entry out frameGood
      (.thrown there inside through covers caught)
    have entryInside := closed.handlers handler (List.mem_of_mem_filter covers)
    refine (reach_answers discipline moves.sound entryInside outGood).mono
      fun after ⟨moves', reached⟩ => ⟨moves.trans discipline moves', fun other member => ?_⟩
    rcases List.mem_append.1 member with earlier | last
    · obtain ⟨out', caught', reached'⟩ := all other earlier
      exact ⟨out', caught', moves'.grows.reached discipline reached'⟩
    · obtain rfl := List.mem_singleton.1 last
      exact ⟨out, caught, reached⟩
  · intro after ⟨moves, all⟩
    refine ⟨moves, fun handler covers => ?_⟩
    obtain ⟨out, caught, reached⟩ := all handler covers
    exact ⟨here, out, through, caught, reached⟩

theorem reachAll_answers (closed : context.graph.Closed) {progress : Progress}
    (sound : Sound context good progress) {block : Nat} {frame last out : BlockFrame}
    {code : CodeBlock} (frameGood : good block frame)
    (there : context.graph.blocks[block]? = some code)
    (through : code.instructions.toList.foldlM (context.step block) frame = .ok last)
    (left : CodeContext.stepBranch last code.branch = .ok out) :
    Hierarchy.Query.Answers keeps
      (code.successors.foldlM (fun progress target => reach target out progress) progress)
      fun after => Moves context below good progress after ∧
        ∀ target ∈ code.successors, Reached below after target out := by
  refine Hierarchy.Query.answers_foldlM
    (fun taken after => Moves context below good progress after ∧
      ∀ target ∈ taken, Reached below after target out)
    ?_ ⟨⟨sound, .refl discipline progress⟩, fun _ member => (by cases member)⟩
  intro taken target left' whole middle before
  obtain ⟨moves, all⟩ := before
  have successor : target ∈ code.successors := by
    rw [← whole]
    exact List.mem_append_right _ List.mem_cons_self
  have inside : target < context.graph.blocks.size := by
    refine closed.successors block target ?_
    rw [FlowGraph.successors, there]
    exact successor
  have outGood := discipline.passed block frame target out frameGood
    (.along there through left successor)
  refine (reach_answers discipline moves.sound inside outGood).mono fun after reaches => ?_
  obtain ⟨moves', reached⟩ := reaches
  refine ⟨moves.trans discipline moves', fun other member => ?_⟩
  rcases List.mem_append.1 member with earlier | last
  · exact moves'.grows.reached discipline (all other earlier)
  · obtain rfl := List.mem_singleton.1 last
    exact reached

/-- The part of a visit that leads up to the branch. -/
theorem instructions_answers (closed : context.graph.Closed) {progress : Progress}
    (sound : Sound context good progress) {block : Nat} {frame : BlockFrame} {code : CodeBlock}
    (frameGood : good block frame) (there : context.graph.blocks[block]? = some code) :
    Hierarchy.Query.Answers keeps
      (code.instructions.toList.foldlM (fun (frame, progress) instruction => do
        let progress ← reachHandlers context.pool (context.graph.handlersOf block) frame progress
        return (← context.step block frame instruction, progress)) (frame, progress))
      fun state => code.instructions.toList.foldlM (context.step block) frame = .ok state.1 ∧
        Moves context below good progress state.2 ∧
        ∀ count < code.instructions.size, Handled below context block frame code count state.2 := by
  have nothing : ∀ count < 0, Handled below context block frame code count progress :=
    fun _ less => absurd less (Nat.not_lt_zero _)
  refine Hierarchy.Query.resolves_anyhow.1 (@instructions_resolves context keeps _ block code frame
    progress (fun taken after => Moves context below good progress after ∧
      ∀ count < taken, Handled below context block frame code count after)
    (fun _ _ _ _ _ _ => trivial) ?_ ⟨⟨sound, .refl discipline progress⟩, nothing⟩)
  intro count here middle before through ⟨moves, handled⟩
  refine Hierarchy.Query.resolves_anyhow.2 ((reachHandlers_answers discipline closed moves.sound
    frameGood there (Nat.le_of_lt before) through).mono fun after ⟨moves', atHere⟩ => ?_)
  refine ⟨moves.trans discipline moves', fun earlier inside => ?_⟩
  rcases Nat.lt_or_eq_of_le (Nat.le_of_lt_succ inside) with before | rfl
  · exact (handled earlier before).grow discipline moves'.grows
  · exact atHere

theorem visit_answers (closed : context.graph.Closed) {progress : Progress}
    (sound : Sound context good progress) {block : Nat} {frame : BlockFrame} {code : CodeBlock}
    (frameGood : good block frame) (there : context.graph.blocks[block]? = some code) :
    Hierarchy.Query.Answers keeps (visit context block code frame progress) fun after =>
      Moves context below good progress after ∧ Settled below context after block frame code := by
  refine (instructions_answers discipline closed sound frameGood there).bind
    fun (last, middle) ⟨through, moves, handled⟩ => ?_
  have whole : code.instructions.toList.take code.instructions.size = code.instructions.toList :=
    List.take_of_length_le (Nat.le_of_eq Array.length_toList)
  refine (reachHandlers_answers discipline closed moves.sound frameGood there (Nat.le_refl _)
    (by rw [whole]; exact through)).bind fun settled ⟨moves', atEnd⟩ => ?_
  refine (Hierarchy.Query.answers_lift _).bind fun out left => ?_
  refine (reachAll_answers discipline closed moves'.sound frameGood there through left).mono
    fun after ⟨moves'', reached⟩ => ?_
  have grows := moves'.grows.trans discipline moves''.grows
  have all : ∀ count ≤ code.instructions.size,
      Handled below context block frame code count after := by
    intro count inside
    rcases Nat.lt_or_eq_of_le inside with before | rfl
    · exact (handled count before).grow discipline grows
    · exact atEnd.grow discipline moves''.grows
  refine ⟨(moves.trans discipline moves').trans discipline moves'',
    ⟨⟨last, out, through, left⟩, fun handler covers count inside => ?_⟩,
    fun target incoming passed => ?_⟩
  · obtain ⟨here, out, through, caught, -⟩ := all count inside handler covers
    exact ⟨here, out, through, caught⟩
  · cases passed with
    | along there' through' left' successor =>
      obtain rfl := Option.some.inj (there.symm.trans there')
      obtain rfl := Except.ok.inj (through.symm.trans through')
      obtain rfl := Except.ok.inj (left.symm.trans left')
      exact reached target successor
    | thrown there' inside through' covers caught' =>
      obtain rfl := Option.some.inj (there.symm.trans there')
      obtain ⟨here, out, through, caught, reached⟩ := all _ inside _ covers
      obtain rfl := Except.ok.inj (through.symm.trans through')
      obtain rfl := Except.ok.inj (caught.symm.trans caught')
      exact reached

/-! ## Runs -/

/-- A visit to a block that waits leaves only blocks that wait unsettled. -/
theorem Stable.visited {progress after : Progress} {block : Nat} {waiting : List Nat}
    {frame : BlockFrame} {code : CodeBlock}
    (stable : Stable below context good ⟨progress.frames, block :: waiting⟩)
    (found : progress.frame? block = some frame)
    (there : context.graph.blocks[block]? = some code)
    (moves : Moves context below good ⟨progress.frames, waiting⟩ after)
    (settled : Settled below context after block frame code) : Stable below context good after := by
  refine ⟨moves.sound, fun other otherFrame otherCode waits found' there' => ?_⟩
  have same := moves.grows.kept other waits
  by_cases here : other = block
  · subst here
    obtain rfl := Option.some.inj (there.symm.trans there')
    obtain rfl := Option.some.inj (found.symm.trans (same.symm.trans found'))
    exact settled
  · have waits' : other ∉ block :: waiting := by
      rw [List.mem_cons, not_or]
      exact ⟨here, fun member => waits (moves.grows.waits other member)⟩
    have before := stable.settled other otherFrame otherCode waits' (same.symm.trans found') there'
    exact ⟨before.passes, fun target out passed =>
      moves.grows.reached discipline (before.covered target out passed)⟩

theorem done_answers {frames : Array (Option BlockFrame)} {visits : Nat}
    (stable : Stable below context good ⟨frames, []⟩) :
    Hierarchy.Query.Answers keeps (run context visits ⟨frames, []⟩) fun last =>
      Stable below context good ⟨last, []⟩ ∧
        ∀ block frame, Progress.frame? ⟨frames, []⟩ block = some frame →
          Reached below ⟨last, []⟩ block frame := by
  rw [run]
  refine (Hierarchy.Query.succeeds_pure ⟨stable, fun block frame found => ?_⟩).answers
  exact ⟨frame, found, discipline.refl frame⟩

theorem run_answers (closed : context.graph.Closed) (visits : Nat) {progress : Progress}
    (stable : Stable below context good progress) :
    Hierarchy.Query.Answers keeps (run context visits progress) fun frames =>
      Stable below context good ⟨frames, []⟩ ∧
        ∀ block frame, progress.frame? block = some frame →
          Reached below ⟨frames, []⟩ block frame := by
  induction visits generalizing progress with
  | zero =>
    obtain ⟨frames, waiting⟩ := progress
    cases waiting with
    | nil => exact done_answers discipline stable
    | cons block waiting =>
      rw [run]
      · exact Hierarchy.Query.answers_throw
      · exact fun _ same => by cases same
  | succ visits ih =>
    obtain ⟨frames, waiting⟩ := progress
    cases waiting with
    | nil => exact done_answers discipline stable
    | cons block waiting =>
      rw [run]
      split
      · next code frame there found =>
        have hasFrame : Progress.frame? ⟨frames, block :: waiting⟩ block = some frame := by
          rw [Progress.frame?, found]
          rfl
        have sound : Sound context good ⟨frames, waiting⟩ := ⟨stable.sound.size, stable.sound.good⟩
        refine (visit_answers discipline closed sound (sound.good block frame hasFrame) there).bind
          fun after ⟨moves, settled⟩ => ?_
        refine (ih (stable.visited discipline hasFrame there moves settled)).mono
          fun last ⟨stable', up⟩ => ⟨stable', fun other otherFrame found' => ?_⟩
        obtain ⟨middle, isMiddle, below'⟩ := moves.grows.up other otherFrame found'
        obtain ⟨final, isFinal, below''⟩ := up other middle isMiddle
        exact ⟨final, isFinal, discipline.trans _ _ _ below' below''⟩
      · next nothing =>
        refine ih ⟨⟨stable.sound.size, stable.sound.good⟩,
          fun other otherFrame code waits found there => ?_⟩
        have here : other ≠ block := by
          rintro rfl
          exact nothing code otherFrame there (Option.join_eq_some_iff.1 found)
        have before := stable.settled other otherFrame code
          (fun member => (List.mem_cons.1 member).elim here waits) found there
        exact ⟨before.passes, before.covered⟩

/-- Inferred frames cover all that the blocks they belong to pass on, and the
frame at the start of the method. -/
theorem inferFrames_answers (closed : context.graph.Closed) {locals : Nat}
    (entryGood : good 0 (context.method.entryFrame.resize locals)) :
    Hierarchy.Query.Answers keeps (context.inferFrames locals) fun frames =>
      Stable below context good ⟨frames, []⟩ ∧
        Reached below ⟨frames, []⟩ 0 (context.method.entryFrame.resize locals) := by
  unfold CodeContext.inferFrames
  dsimp only
  split
  · exact Hierarchy.Query.answers_throw.bind fun _ => False.elim
  · have empty := frame?_nothing context.graph.blocks.size
    have sound : Sound context good ⟨Array.replicate context.graph.blocks.size none, []⟩ := by
      refine ⟨Array.size_replicate, fun block frame found => ?_⟩
      rw [empty] at found
      cases found
    refine (reach_answers discipline sound closed.some_ entryGood).bind
      fun start ⟨moves, reached⟩ => ?_
    have stable : Stable below context good start := by
      refine ⟨moves.sound, fun block frame code waits found => ?_⟩
      rw [moves.grows.kept block waits, empty] at found
      cases found
    refine Hierarchy.Query.answers_get.bind fun hierarchy _ => ?_
    refine (run_answers discipline closed _ stable).mono fun frames ⟨stable', up⟩ => ⟨stable', ?_⟩
    obtain ⟨there, found, covers⟩ := reached
    obtain ⟨higher, found', above⟩ := up 0 there found
    exact ⟨higher, found', discipline.trans _ _ _ covers above⟩

end

/-! ## When no block waits -/

section

variable {context : CodeContext} {below : BlockFrame → BlockFrame → Prop}
  {good : Nat → BlockFrame → Prop} {frames : Array (Option BlockFrame)}

theorem frame?_eq_some {block : Nat} {frame : BlockFrame} {waiting : List Nat} :
    Progress.frame? ⟨frames, waiting⟩ block = some frame ↔ frames[block]? = some (some frame) :=
  Option.join_eq_some_iff

/-- There is code for every block that has room for a frame. -/
theorem Sound.code {progress : Progress} (sound : Sound context good progress) {block : Nat}
    {frame? : Option BlockFrame} (found : progress.frames[block]? = some frame?) :
    ∃ code, context.graph.blocks[block]? = some code := by
  have inside := (Array.getElem?_eq_some_iff.1 found).1
  rw [sound.size] at inside
  exact ⟨_, Array.getElem?_eq_getElem inside⟩

theorem Stable.done (stable : Stable below context good ⟨frames, []⟩) {block : Nat}
    {frame : BlockFrame} {code : CodeBlock} (found : frames[block]? = some (some frame))
    (isCode : context.graph.blocks[block]? = some code) :
    Settled below context ⟨frames, []⟩ block frame code :=
  stable.settled block frame code List.not_mem_nil (frame?_eq_some.2 found) isCode

/-- Control goes from blocks that have frames to blocks that have frames. -/
theorem Stable.edge (stable : Stable below context good ⟨frames, []⟩) {block target : Nat}
    {frame : BlockFrame} (found : frames[block]? = some (some frame))
    (edge : context.graph.Edge block target) :
    ∃ there, frames[target]? = some (some there) := by
  obtain ⟨code, isCode⟩ := stable.sound.code found
  have settled := stable.done found isCode
  rcases edge with successor | ⟨handler, covers, rfl⟩
  · obtain ⟨last, out, through, left⟩ := settled.passes.along
    rw [FlowGraph.successors, isCode] at successor
    obtain ⟨there, isThere, -⟩ := settled.covered target out (.along isCode through left successor)
    exact ⟨there, frame?_eq_some.1 isThere⟩
  · obtain ⟨here, out, through, caught⟩ := settled.passes.thrown handler covers 0 (Nat.zero_le _)
    obtain ⟨there, isThere, -⟩ :=
      settled.covered handler.entry out (.thrown isCode (Nat.zero_le _) through covers caught)
    exact ⟨there, frame?_eq_some.1 isThere⟩

theorem Stable.reachable (stable : Stable below context good ⟨frames, []⟩) {first : BlockFrame}
    (start : frames[0]? = some (some first)) {block : Nat}
    (reachable : context.graph.Reachable block) : ∃ frame, frames[block]? = some (some frame) := by
  induction reachable with
  | refl => exact ⟨first, start⟩
  | tail _ edge ih =>
    obtain ⟨frame, found⟩ := ih
    exact stable.edge found edge

end

/-! ## A few visits -/

section

variable {context : CodeContext}

/-- A few visits are always allowed. -/
theorem exists_visitBound (some_ : 0 < context.graph.blocks.size) (locals classes : Nat) :
    ∃ more, visitBound context locals classes = more + 10 := by
  refine ⟨_, (Nat.sub_add_cancel ?_).symm⟩
  unfold visitBound
  dsimp only
  refine Nat.succ_le_succ (Nat.le_trans (Nat.succ_le_succ ?_) (Nat.le_mul_of_pos_left _ some_))
  exact Nat.mul_le_mul (by omega : 2 ≤ _) (by omega : 4 ≤ _)

/-- Frames that are found with a few visits are inferred. -/
theorem run_inferFrames {locals : Nat} {start : Progress} {frames : Array (Option BlockFrame)}
    {before between after : Hierarchy} (some_ : 0 < context.graph.blocks.size)
    (fits : context.method.entryFrame.locals.length ≤ locals)
    (started : (reach 0 (context.method.entryFrame.resize locals)
      ⟨Array.replicate context.graph.blocks.size none, []⟩).run before = (.ok start, between))
    (found : ∀ more, (run context (more + 10) start).run between = (.ok frames, after)) :
    (context.inferFrames locals).run before = (.ok frames, after) := by
  obtain ⟨more, enough⟩ := exists_visitBound some_ locals between.classCount
  unfold CodeContext.inferFrames
  dsimp only
  rw [if_neg (Nat.not_lt.2 fits), Hierarchy.Query.run_bind_ok started,
    Hierarchy.Query.run_bind_ok (Hierarchy.Query.run_get _), enough]
  exact found more

theorem run_visit {frames : Array (Option BlockFrame)} {block : Nat} {waiting : List Nat}
    {code : CodeBlock} {frame : BlockFrame} {next : Progress} {before after : Hierarchy}
    (visits : Nat) (there : context.graph.blocks[block]? = some code)
    (found : frames[block]? = some (some frame))
    (visited : (visit context block code frame ⟨frames, waiting⟩).run before =
      (.ok next, after)) :
    (run context (visits + 1) ⟨frames, block :: waiting⟩).run before =
      (run context visits next).run after := by
  rw [run, there, found]
  exact Hierarchy.Query.run_bind_ok visited

/-- Instructions that do nothing may be left out where nothing is caught. -/
theorem visit_nops {block : Nat} (plain : context.graph.handlersOf block = []) (nops : Nat)
    (instructions : List Instruction) (frame? : Option BlockFrame) (branch : Branch Nat Nat Nat)
    (frame : BlockFrame) (progress : Progress) :
    visit context block
        ⟨frame?, (List.replicate nops Instruction.nop ++ instructions).toArray, branch⟩
        frame progress =
      visit context block ⟨frame?, instructions.toArray, branch⟩ frame progress := by
  unfold visit
  dsimp only
  rw [plain, List.foldlM_append, foldlM_replicate rfl, pure_bind]
  rfl

end

end Inference
end ClassFile
