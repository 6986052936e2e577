import ClassFile.Frame.Replay
import ClassFile.Proofs.Code.FrameBlind
import ClassFile.Proofs.Frame.Nearness

namespace ClassFile

/-!
# Replaying blocks between supplied frames

Where the inferred frames are supplied at all blocks that need one, every other block is
only fallen into.  Taking the last supplied frame through the blocks since then gives a
frame near the inferred one, if no operand is ever unusable: replaying does not fail.
-/

/-- Control arrives at a block other than from the instruction before, or the instruction
before never falls through. -/
inductive FlowGraph.NeedsFrame (graph : FlowGraph) (block : Nat) : Prop
  | jumped {source : Nat} {code : CodeBlock} (there : graph.blocks[source]? = some code)
      (isTarget : block ∈ code.branch.targets)
  | caught {handler : Handler} (member : handler ∈ graph.handlers) (isEntry : handler.entry = block)
  | left {before : Nat} {code : CodeBlock} (there : graph.blocks[before]? = some code)
      (leaves : code.branch.next? = none) (isNext : before + 1 = block)

/-- A graph is another one whose blocks carry inferred frames, just where they need one. -/
structure FlowGraph.Supplied (graph : FlowGraph) (frames : Array (Option BlockFrame))
    (supplied : FlowGraph) : Prop where
  size : supplied.blocks.size = graph.blocks.size
  handlers : supplied.handlers = graph.handlers
  needed : ∀ (block : Nat) code, graph.blocks[block]? = some code → graph.NeedsFrame block →
    ∃ frame?, frames[block]? = some frame? ∧
      supplied.blocks[block]? = some ⟨frame?, code.instructions, code.branch⟩
  unneeded : ∀ (block : Nat) code, graph.blocks[block]? = some code → ¬graph.NeedsFrame block →
    supplied.blocks[block]? = some ⟨none, code.instructions, code.branch⟩

namespace FlowGraph

variable {graph supplied : FlowGraph} {frames : Array (Option BlockFrame)}

theorem Supplied.exists_code (isSupplied : graph.Supplied frames supplied) {block : Nat}
    {code : CodeBlock} (there : graph.blocks[block]? = some code) :
    ∃ frame?, supplied.blocks[block]? = some ⟨frame?, code.instructions, code.branch⟩ := by
  by_cases needs : graph.NeedsFrame block
  · obtain ⟨frame?, -, found⟩ := isSupplied.needed block code there needs
    exact ⟨frame?, found⟩
  · exact ⟨none, isSupplied.unneeded block code there needs⟩

/-- A supplied frame is the inferred one of a block that needs one. -/
theorem Supplied.frame (isSupplied : graph.Supplied frames supplied) {block : Nat}
    {code : CodeBlock} (there : supplied.blocks[block]? = some code) {frame : BlockFrame}
    (isFrame : code.frame = some frame) :
    graph.NeedsFrame block ∧ frames[block]? = some (some frame) := by
  have inside := (Array.getElem?_eq_some_iff.1 there).1
  rw [isSupplied.size] at inside
  have recorded := Array.getElem?_eq_getElem inside
  by_cases needs : graph.NeedsFrame block
  · obtain ⟨frame?, isInferred, found⟩ := isSupplied.needed block _ recorded needs
    obtain rfl := Option.some.inj (there.symm.trans found)
    exact ⟨needs, isFrame ▸ isInferred⟩
  · obtain rfl := Option.some.inj (there.symm.trans (isSupplied.unneeded block _ recorded needs))
    cases isFrame

theorem Supplied.sameCode (isSupplied : graph.Supplied frames supplied) :
    Assembly.SameCode graph.blocks supplied.blocks := by
  intro block
  cases there : graph.blocks[block]? with
  | some code =>
    obtain ⟨frame?, found⟩ := isSupplied.exists_code there
    rw [found]
    rfl
  | none =>
    rw [Array.getElem?_eq_none_iff, ← isSupplied.size, ← Array.getElem?_eq_none_iff] at there
    rw [there]

/-- The same code makes the same objects. -/
theorem alike_of_sameCode (same : Assembly.SameCode graph.blocks supplied.blocks)
    (method : MethodContext) (pool : Pool) :
    CodeContext.Alike ⟨graph, method, pool⟩ ⟨supplied, method, pool⟩ := by
  refine ⟨rfl, rfl, fun site => ?_⟩
  unfold CodeContext.siteClass
  rcases same.both site with ⟨there, there'⟩ | ⟨code, frame, there, there'⟩
  · rw [there, there']
  · rw [there, there']
    rfl

theorem Supplied.alike (isSupplied : graph.Supplied frames supplied) (method : MethodContext)
    (pool : Pool) : CodeContext.Alike ⟨graph, method, pool⟩ ⟨supplied, method, pool⟩ :=
  alike_of_sameCode isSupplied.sameCode method pool

end FlowGraph

namespace CodeContext

variable {context : CodeContext} {block : Nat} {code : CodeBlock}

/-! ## Blocks since the last supplied frame -/

/-- The frame with which control falls into a block, or the one supplied for it. -/
def arriving (context : CodeContext) (locals block : Nat) : Except Fault BlockFrame :=
  let (first, frame) := context.lastRecorded block
  (List.range' first (block - first)).foldlM context.stepBlock
    (frame.resize (max locals frame.locals.length))

/-- The frame recorded for a block, beside the block. -/
def recorded? (context : CodeContext) (block : Nat) : Option (Nat × BlockFrame) := do
  return (block, ← (← context.graph.blocks[block]?).frame)

theorem lastRecorded_eq (context : CodeContext) (block : Nat) :
    context.lastRecorded block =
      ((List.range (block + 1)).reverse.findSome? context.recorded?).getD
        (0, context.method.entryFrame) :=
  rfl

theorem recorded?_of_some {frame : BlockFrame} (there : context.graph.blocks[block]? = some code)
    (isFrame : code.frame = some frame) : context.recorded? block = some (block, frame) := by
  rw [recorded?, there, Option.bind_eq_bind, Option.bind_some, isFrame]
  rfl

theorem recorded?_of_none (there : context.graph.blocks[block]? = some code)
    (missing : code.frame = none) : context.recorded? block = none := by
  rw [recorded?, there, Option.bind_eq_bind, Option.bind_some, missing]
  rfl

theorem lastRecorded_of_some {frame : BlockFrame} (there : context.graph.blocks[block]? = some code)
    (isFrame : code.frame = some frame) : context.lastRecorded block = (block, frame) := by
  rw [lastRecorded_eq, List.range_succ, List.reverse_append, List.reverse_singleton,
    List.singleton_append, List.findSome?_cons_of_isSome (by rw [recorded?_of_some there isFrame]; rfl),
    recorded?_of_some there isFrame]
  rfl

theorem lastRecorded_of_none (there : context.graph.blocks[block + 1]? = some code)
    (missing : code.frame = none) :
    context.lastRecorded (block + 1) = context.lastRecorded block := by
  rw [lastRecorded_eq, List.range_succ, List.reverse_append, List.reverse_singleton,
    List.singleton_append, List.findSome?_cons_of_isNone (by rw [recorded?_of_none there missing]; rfl)]
  rfl

theorem lastRecorded_zero (there : context.graph.blocks[0]? = some code)
    (missing : code.frame = none) : context.lastRecorded 0 = (0, context.method.entryFrame) := by
  rw [lastRecorded_eq, List.range_one, List.reverse_singleton,
    List.findSome?_cons_of_isNone (by rw [recorded?_of_none there missing]; rfl)]
  rfl

theorem lastRecorded_le (context : CodeContext) (block : Nat) :
    (context.lastRecorded block).1 ≤ block := by
  rw [lastRecorded_eq]
  cases found : (List.range (block + 1)).reverse.findSome? context.recorded? with
  | none => exact Nat.zero_le _
  | some last =>
    obtain ⟨earlier, member, isLast⟩ := List.exists_of_findSome?_eq_some found
    obtain ⟨code, -, isFrame⟩ := Option.bind_eq_some_iff.1 isLast
    obtain ⟨frame, -, same⟩ := Option.bind_eq_some_iff.1 isFrame
    obtain rfl := Option.some.inj same
    exact Nat.lt_succ_iff.1 (List.mem_range.1 (List.mem_reverse.1 member))

theorem replay_eq (locals : Nat) :
    context.replay locals block =
      (context.arriving locals block) >>= fun frame => context.stepBlock frame block := by
  have before := context.lastRecorded_le block
  unfold replay arriving
  rcases isLast : context.lastRecorded block with ⟨first, frame⟩
  rw [isLast] at before
  dsimp only at before ⊢
  rw [Nat.sub_add_comm before, List.range'_concat, List.foldlM_append, Nat.one_mul,
    Nat.add_sub_cancel' before]
  simp only [List.foldlM_cons, List.foldlM_nil, bind_pure]

theorem arriving_of_some {frame : BlockFrame} (locals : Nat)
    (there : context.graph.blocks[block]? = some code) (isFrame : code.frame = some frame) :
    context.arriving locals block = .ok (frame.resize (max locals frame.locals.length)) := by
  rw [arriving, lastRecorded_of_some there isFrame]
  dsimp only
  rw [Nat.sub_self]
  rfl

theorem arriving_zero (locals : Nat) (there : context.graph.blocks[0]? = some code)
    (missing : code.frame = none) :
    context.arriving locals 0 =
      .ok (context.method.entryFrame.resize (max locals context.method.entryFrame.locals.length)) := by
  rw [arriving, lastRecorded_zero there missing]
  rfl

/-- A block without a frame of its own is fallen into. -/
theorem arriving_succ (locals : Nat) (there : context.graph.blocks[block + 1]? = some code)
    (missing : code.frame = none) :
    context.arriving locals (block + 1) = context.replay locals block := by
  unfold arriving replay
  rw [lastRecorded_of_none there missing]

end CodeContext

/-! ## Replaying under supplied frames -/

theorem Frame.resize_self {frame : BlockFrame} {locals : Nat}
    (length : frame.locals.length = locals) :
    frame.resize (max locals frame.locals.length) = frame := by
  rw [length, Nat.max_self, Frame.resize, length, Nat.sub_self, ← length, List.take_length,
    List.replicate_zero, List.append_nil]

namespace Assembly

open Inference (Stable Reached PointFrame Traces)

/-- Every point of a block with a frame has usable operands only. -/
def Usable (context : CodeContext) (frames : Array (Option BlockFrame)) : Prop :=
  ∀ block count here, PointFrame context frames block count here → .top ∉ here.stack

/-- The operands are usable wherever some of the instructions lead. -/
theorem Usable.points {context : CodeContext} {frames : Array (Option BlockFrame)}
    (usable : Usable context frames) {block : Nat} {frame : BlockFrame} {code : CodeBlock}
    (found : frames[block]? = some (some frame)) (there : context.graph.blocks[block]? = some code)
    {instructions rest : List Instruction} (whole : instructions ++ rest = code.instructions.toList)
    (taken left : List Instruction) (here : BlockFrame) (part : taken ++ left = instructions)
    (through : taken.foldlM (context.step block) frame = .ok here) : .top ∉ here.stack := by
  subst part
  rw [List.append_assoc] at whole
  refine usable block taken.length here ⟨frame, code, found, there, ?_, ?_⟩
  · rw [← Array.length_toList, ← whole, List.length_append]
    exact Nat.le_add_right _ _
  · rw [← whole, List.take_left]
    exact through

variable {graph supplied : FlowGraph} {method : MethodContext} {pool : Pool}
  {frames : Array (Option BlockFrame)} {locals : Nat}

/-- What a block passes on when it is taken from a frame near its inferred one. -/
structure Replayed (graph : FlowGraph) (frames : Array (Option BlockFrame)) (block : Nat)
    (frame : BlockFrame) : Prop where
  near : ∀ code next there, graph.blocks[block]? = some code → code.branch.next? = some next →
    frames[next]? = some (some there) → FrameNear frame there
  made : ∀ site, frame.Mentions site → site < graph.blocks.size

/-- A frame near the inferred one of a block. -/
structure Arrives (graph : FlowGraph) (frames : Array (Option BlockFrame)) (block : Nat)
    (frame : BlockFrame) : Prop where
  near : ∃ there, frames[block]? = some (some there) ∧ FrameNear frame there
  made : ∀ site, frame.Mentions site → site < graph.blocks.size

section

variable
  (stable : Stable FrameNear ⟨graph, method, pool⟩ (fun _ frame => frame.locals.length = locals)
    ⟨frames, []⟩)
  (usable : Usable ⟨graph, method, pool⟩ frames)
  (isSupplied : graph.Supplied frames supplied)

include stable usable isSupplied

theorem stepBlock_replayed {block : Nat} {frame : BlockFrame}
    (arrives : Arrives graph frames block frame) :
    ∃ out, CodeContext.stepBlock ⟨supplied, method, pool⟩ frame block = .ok out ∧
      Replayed graph frames block out := by
  obtain ⟨⟨inferred, found, near⟩, made⟩ := arrives
  obtain ⟨code, there⟩ := stable.sound.code found
  have settled := stable.done found there
  obtain ⟨last, out, through, left⟩ := settled.passes.along
  have alike := isSupplied.alike method pool
  obtain ⟨last', through', onLast⟩ :=
    alike.steps (TypeNear.stepsKeep _) near.related
      (usable.points found there (List.append_nil _)) through
  obtain ⟨out', left', onOut⟩ := CodeContext.stepBranch_related onLast left
  have nearOut := onOut.near
  obtain ⟨frame?, there'⟩ := isSupplied.exists_code there
  refine ⟨out', ?_, ?_, ?_⟩
  · unfold CodeContext.stepBlock
    dsimp only
    rw [there']
    exact bind_eq_ok.2 ⟨last', through', left'⟩
  · intro code' next known there'' falls isKnown
    obtain rfl := Option.some.inj (there.symm.trans there'')
    obtain ⟨known', isKnown', nearNext⟩ := settled.covered next out (.along there through left
      (List.mem_append_right _ (Option.mem_toList.2 falls)))
    obtain rfl := Option.some.inj (Option.some.inj
      (isKnown.symm.trans (Inference.frame?_eq_some.1 isKnown')))
    exact nearOut.trans nearNext
  · intro site mentions
    rcases CodeContext.mentions_of_steps through' (CodeContext.stepBranch_mentions left' mentions) with
      before | ⟨-, rfl⟩
    · exact made site before
    · exact (Array.getElem?_eq_some_iff.1 there).1

omit stable usable isSupplied in
/-- A block with a frame that needs none supplied is fallen into. -/
theorem fallen_of_not_needsFrame (inferred : Inferred graph frames) {block : Nat}
    (found : ∃ frame, frames[block + 1]? = some (some frame))
    (unneeded : ¬graph.NeedsFrame (block + 1)) :
    ∃ code, graph.blocks[block]? = some code ∧ code.branch.next? = some (block + 1) ∧
      ∃ frame, frames[block]? = some (some frame) := by
  cases (inferred.reachable _).1 found with
  | @tail source _ reached edge =>
    rcases edge with successor | ⟨handler, covers, isEntry⟩
    · rw [FlowGraph.successors] at successor
      split at successor
      · next code recorded =>
        rcases List.mem_append.1 successor with isTarget | falls
        · exact absurd (.jumped recorded isTarget) unneeded
        · have falls := Option.mem_toList.1 falls
          obtain rfl := Nat.succ.inj (inferred.next source code _ recorded falls)
          exact ⟨code, recorded, falls, (inferred.reachable block).2 reached⟩
      · cases successor
    · exact absurd (.caught (List.mem_of_mem_filter covers) isEntry) unneeded

variable (inferred : Inferred graph frames)
  (traces : Traces ⟨graph, method, pool⟩ frames)
  (started : Reached FrameNear ⟨frames, []⟩ 0 (method.entryFrame.resize locals))
  (fits : method.entryFrame.locals.length ≤ locals)

include inferred traces started fits

omit usable inferred started fits in
theorem arriving_of_needsFrame {block : Nat} {frame : BlockFrame} {code : CodeBlock}
    (isFrame : frames[block]? = some (some frame)) (there : graph.blocks[block]? = some code)
    (needs : graph.NeedsFrame block) :
    ∃ frame, CodeContext.arriving ⟨supplied, method, pool⟩ locals block = .ok frame ∧
      Arrives graph frames block frame := by
  obtain ⟨frame?, isInferred, found⟩ := isSupplied.needed block code there needs
  obtain rfl := Option.some.inj (isInferred.symm.trans isFrame)
  have length := stable.sound.good block frame (Inference.frame?_eq_some.2 isFrame)
  refine ⟨frame, ?_, ⟨frame, isFrame, .refl frame⟩, fun site mentions => ?_⟩
  · rw [CodeContext.arriving_of_some locals found rfl, Frame.resize_self length]
  · obtain ⟨⟨first, isFirst⟩, -⟩ := traces.origin block 0 frame site
      ⟨frame, code, isFrame, there, Nat.zero_le _, rfl⟩ mentions
    rw [← stable.sound.size]
    exact (Array.getElem?_eq_some_iff.1 isFirst).1

/-- Replaying gets to every block that control reaches. -/
theorem arriving_arrives {block : Nat} (found : ∃ frame, frames[block]? = some (some frame)) :
    ∃ frame, CodeContext.arriving ⟨supplied, method, pool⟩ locals block = .ok frame ∧
      Arrives graph frames block frame := by
  have resized : method.entryFrame.resize (max locals method.entryFrame.locals.length) =
      method.entryFrame.resize locals := by rw [Nat.max_eq_left fits]
  induction block with
  | zero =>
    obtain ⟨frame, isFrame⟩ := found
    obtain ⟨code, there⟩ := stable.sound.code isFrame
    by_cases needs : graph.NeedsFrame 0
    · exact arriving_of_needsFrame stable isSupplied traces isFrame there needs
    · refine ⟨_, CodeContext.arriving_zero locals (isSupplied.unneeded 0 code there needs) rfl, ?_⟩
      obtain ⟨first, isFirst, near⟩ := started
      rw [resized]
      exact ⟨⟨first, Inference.frame?_eq_some.1 isFirst, near⟩,
        fun site mentions => absurd mentions (Inference.entryFrame_mentions method locals site)⟩
  | succ block ih =>
    obtain ⟨frame, isFrame⟩ := found
    obtain ⟨code, there⟩ := stable.sound.code isFrame
    by_cases needs : graph.NeedsFrame (block + 1)
    · exact arriving_of_needsFrame stable isSupplied traces isFrame there needs
    · obtain ⟨before, recorded, falls, found⟩ :=
        fallen_of_not_needsFrame inferred ⟨frame, isFrame⟩ needs
      obtain ⟨here, isArriving, arrives⟩ := ih found
      obtain ⟨out, stepped, replayed⟩ := stepBlock_replayed stable usable isSupplied arrives
      refine ⟨out, ?_, ⟨frame, isFrame, replayed.near before _ frame recorded falls isFrame⟩,
        replayed.made⟩
      rw [CodeContext.arriving_succ locals (isSupplied.unneeded _ code there needs) rfl,
        CodeContext.replay_eq]
      exact bind_eq_ok.2 ⟨here, isArriving, stepped⟩

/-- Replaying never fails out of a block that control reaches. -/
theorem replay_replayed {block : Nat} (found : ∃ frame, frames[block]? = some (some frame)) :
    ∃ frame, CodeContext.replay ⟨supplied, method, pool⟩ locals block = .ok frame ∧
      Replayed graph frames block frame := by
  obtain ⟨frame, isArriving, arrives⟩ :=
    arriving_arrives stable usable isSupplied inferred traces started fits found
  obtain ⟨out, stepped, replayed⟩ := stepBlock_replayed stable usable isSupplied arrives
  exact ⟨out, (CodeContext.replay_eq locals).trans (bind_eq_ok.2 ⟨frame, isArriving, stepped⟩),
    replayed⟩

end

end Assembly

end ClassFile
