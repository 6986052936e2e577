import ClassFile.Frame.Replay
import ClassFile.Proofs.Frame.Known
import ClassFile.Proofs.Frame.Worklist
import ClassFile.Proofs.Hierarchy.Standard

namespace ClassFile
namespace Inference

/-!
# Inferred frames account for every path

The frame inferred for a block covers the frames with which control enters the
block, in the sense that joining any of them into it again would change nothing.
This is shown of classes that are known and whose chains of superclasses end at
the root, since other hierarchies leave some of the joins without an answer.
-/

/-- Joining a frame into another one would change none of the types there. -/
structure FlowsInto (hierarchy : Hierarchy) (source target : BlockFrame) : Prop where
  locals_length : source.locals.length = target.locals.length
  stack_length : source.stack.length = target.stack.length
  locals : ∀ pair ∈ target.locals.zip source.locals,
    ((Hierarchy.joinTypes pair.1 pair.2).run hierarchy).1 = .ok pair.1
  stack : ∀ pair ∈ target.stack.zip source.stack,
    ((Hierarchy.joinTypes pair.1 pair.2).run hierarchy).1 = .ok pair.1

/-- Frames that account for the start of the method and for every way in which
control leaves a block that has one. -/
structure PostFixed (context : CodeContext) (locals : Nat) (hierarchy : Hierarchy)
    (frames : Array (Option BlockFrame)) : Prop where
  entry : ∃ first, frames[0]? = some (some first) ∧
    FlowsInto hierarchy (context.method.entryFrame.resize locals) first
  successors : ∀ block frame, frames[block]? = some (some frame) →
    ∃ out, context.stepBlock frame block = .ok out ∧
      ∀ target ∈ context.graph.successors block,
        ∃ there, frames[target]? = some (some there) ∧ FlowsInto hierarchy out there
  handlers : ∀ block code frame, context.graph.blocks[block]? = some code →
    frames[block]? = some (some frame) →
      ∀ handler ∈ context.graph.handlersOf block, ∀ count ≤ code.instructions.size,
        ∃ here cls, (code.instructions.toList.take count).foldlM (context.step block) frame =
            .ok here ∧
          caught context.pool handler here = .ok ⟨here.locals, [.object cls]⟩ ∧
            ∃ there, frames[handler.entry]? = some (some there) ∧
              FlowsInto hierarchy ⟨here.locals, [.object cls]⟩ there
  size : frames.size = context.graph.blocks.size
  missing : ∀ block, frames[block]? = some none ↔
    block < context.graph.blocks.size ∧ ¬context.graph.Reachable block

section

variable {context : CodeContext} {known : String → Option ClassInfo} {slots : Nat}

theorem Passed.frameKnown {block target : Nat} {frame out : BlockFrame}
    (names : Hierarchy.NamesKnown known context)
    (before : Hierarchy.FrameKnown known slots frame)
    (passed : Passed context block frame target out) : Hierarchy.FrameKnown known slots out := by
  cases passed with
  | along there through left successor =>
    exact Hierarchy.NamesKnown.stepBranch (names.steps before through) left
  | thrown there inside through covers caught => exact names.caught (names.steps before through) caught

/-- Frames over known classes, at blocks that control may reach. -/
theorem discipline_known {origin : Hierarchy} (rooted : Hierarchy.Rooted origin.known)
    (names : Hierarchy.NamesKnown origin.known context) :
    Discipline context (Hierarchy.Follows origin) (Hierarchy.FrameBelow origin.known) fun block frame =>
      Hierarchy.FrameKnown origin.known slots frame ∧ context.graph.Reachable block where
  refl := Hierarchy.FrameBelow.refl origin.known
  trans := fun _ _ _ first second => first.trans rooted second
  join := by
    intro block known incoming ⟨knownKnown, reachable⟩ ⟨incomingKnown, _⟩
    refine (Hierarchy.joinFrames_answers rooted names.root block knownKnown incomingKnown).mono
      fun joined isJoin => ?_
    exact ⟨isJoin.covers, isJoin.coversOther, isJoin.known, reachable⟩
  passed := fun _ _ _ _ ⟨frameKnown, reachable⟩ passed =>
    ⟨passed.frameKnown names frameKnown, reachable.tail passed.edge⟩

/-- One type covers another if joining them changes nothing. -/
theorem flowsInto_of_below {origin after : Hierarchy} (rooted : Hierarchy.Rooted origin.known)
    (rootKnown : ∃ info, origin.known Hierarchy.root = some info)
    (follows : Hierarchy.Follows origin after) {source target : BlockFrame}
    (sourceKnown : Hierarchy.FrameKnown origin.known slots source)
    (targetKnown : Hierarchy.FrameKnown origin.known slots target)
    (below : Hierarchy.FrameBelow origin.known source target) : FlowsInto after source target := by
  have each : ∀ {sources targets : List BlockType},
      List.Forall₂ (Hierarchy.TypeBelow origin.known) sources targets →
        (∀ type ∈ sources, Hierarchy.TypeKnown origin.known type) →
          (∀ type ∈ targets, Hierarchy.TypeKnown origin.known type) →
            ∀ pair ∈ targets.zip sources,
              ((Hierarchy.joinTypes pair.1 pair.2).run after).1 = .ok pair.1 := by
    intro sources targets covered sourcesKnown targetsKnown pair member
    have here := (List.forall₂_iff_zip.1 covered.flip).2 member
    obtain ⟨inTargets, inSources⟩ := List.of_mem_zip member
    obtain ⟨joined, later, run, -, isJoin⟩ := Hierarchy.joinTypes_succeeds rooted rootKnown
      (targetsKnown _ inTargets) (sourcesKnown _ inSources) after follows
    rw [run, isJoin.settled here]
  exact ⟨below.locals.length_eq, below.stack.length_eq,
    each below.locals sourceKnown.locals targetKnown.locals,
    each below.stack sourceKnown.stack targetKnown.stack⟩

end

/-- What a block passes on flows into the frames that are there when no block
waits any more. -/
theorem flows_of_stable {context : CodeContext} {locals : Nat} {origin after : Hierarchy}
    {frames : Array (Option BlockFrame)} (rooted : Hierarchy.Rooted origin.known)
    (names : Hierarchy.NamesKnown origin.known context)
    (follows : Hierarchy.Follows origin after)
    (stable : Stable (Hierarchy.FrameBelow origin.known) context (fun block frame =>
      Hierarchy.FrameKnown origin.known locals frame ∧ context.graph.Reachable block) ⟨frames, []⟩)
    {block target : Nat} {frame out : BlockFrame} {code : CodeBlock}
    (found : frames[block]? = some (some frame))
    (isCode : context.graph.blocks[block]? = some code)
    (passed : Passed context block frame target out) :
    ∃ there, frames[target]? = some (some there) ∧ FlowsInto after out there := by
  obtain ⟨there, isThere, below⟩ := (stable.done found isCode).covered target out passed
  have frameKnown := (stable.sound.good block frame (frame?_eq_some.2 found)).1
  have thereKnown := (stable.sound.good target there isThere).1
  exact ⟨there, frame?_eq_some.1 isThere, flowsInto_of_below rooted names.root follows
    (passed.frameKnown names frameKnown) thereKnown below⟩

/-- Inferred frames account for every way in which control reaches a block, and
only blocks that it never reaches have none. -/
theorem inferFrames_postFixed {context : CodeContext} {locals : Nat} {hierarchy after : Hierarchy}
    {frames : Array (Option BlockFrame)} (learned : Hierarchy.Learned hierarchy)
    (rooted : Hierarchy.Rooted hierarchy.known)
    (names : Hierarchy.NamesKnown hierarchy.known context) (closed : context.graph.Closed)
    (run : (context.inferFrames locals).run hierarchy = (.ok frames, after)) :
    PostFixed context locals after frames := by
  have entryKnown := names.entry locals
  obtain ⟨result, last, run', follows, holds⟩ := inferFrames_answers
    (discipline_known rooted names) closed ⟨entryKnown, .refl⟩ hierarchy learned.follows
  obtain ⟨rfl, rfl⟩ := Prod.mk.inj (run'.symm.trans run)
  obtain ⟨stable, first, isFirst, entryBelow⟩ := holds frames rfl
  have firstKnown := (stable.sound.good 0 first isFirst).1
  have start := frame?_eq_some.1 isFirst
  constructor
  case entry =>
    exact ⟨first, start,
      flowsInto_of_below rooted names.root follows entryKnown firstKnown entryBelow⟩
  case successors =>
    intro block frame found
    obtain ⟨code, isCode⟩ := stable.sound.code found
    obtain ⟨middle, out, through, left⟩ := (stable.done found isCode).passes.along
    refine ⟨out, ?_, fun target successor => ?_⟩
    · rw [CodeContext.stepBlock, isCode]
      exact bind_eq_ok.2 ⟨middle, through, left⟩
    · rw [FlowGraph.successors, isCode] at successor
      exact flows_of_stable rooted names follows stable found isCode
        (.along isCode through left successor)
  case handlers =>
    intro block code frame isCode found handler covers count inside
    obtain ⟨here, out, through, isCaught⟩ :=
      (stable.done found isCode).passes.thrown handler covers count inside
    obtain ⟨cls, rfl, -⟩ := caught_eq_ok isCaught
    exact ⟨here, cls, through, isCaught, flows_of_stable rooted names follows stable found isCode
      (.thrown isCode inside through covers isCaught)⟩
  case size => exact stable.sound.size
  case missing =>
    intro block
    constructor
    · intro absent
      refine ⟨?_, fun reachable => ?_⟩
      · rw [← stable.sound.size]
        exact (Array.getElem?_eq_some_iff.1 absent).1
      · obtain ⟨frame, found⟩ := stable.reachable start reachable
        rw [absent] at found
        cases Option.some.inj found
    · rintro ⟨inside, unreachable⟩
      rw [← stable.sound.size] at inside
      rw [Array.getElem?_eq_getElem inside]
      cases found : frames[block] with
      | none => rfl
      | some frame =>
        have isFrame : frames[block]? = some (some frame) :=
          (Array.getElem?_eq_getElem inside).trans (congrArg some found)
        exact absurd (stable.sound.good block frame (frame?_eq_some.2 isFrame)).2 unreachable

/-! ## A method with a branch and a handler -/

/-- A method of throwables that stores its receiver in a local variable unless it
is missing, with a handler for all of it.  The last block is never reached. -/
def guarded : CodeContext where
  graph := {
    blocks := #[
      ⟨none, #[.load .reference 0], .conditional (.null .eq) 2 1⟩,
      ⟨none, #[.load .reference 0, .store .reference 1], .fallThrough 2⟩,
      ⟨none, #[], .returns none⟩,
      ⟨none, #[], .throws⟩,
      ⟨none, #[], .stop⟩]
    handlers := [⟨0, 3, 3, none⟩]
    labels := ∅ }
  method := ⟨ClassName.throwable.text, "log", ⟨[], none⟩, false⟩
  pool := .empty

/-- The frames of `guarded`, in which the second local variable is never usable. -/
def guardedFrames : Array (Option BlockFrame) :=
  let receiver := VerificationType.object ClassName.throwable.text
  #[some ⟨[receiver, .top], []⟩, some ⟨[receiver, .top], []⟩, some ⟨[receiver, .top], []⟩,
    some ⟨[receiver, .top], [receiver]⟩, none]

theorem guarded_run (graph : ClassGraph) :
    (guarded.inferFrames 2).run (.ofGraph graph []) = (.ok guardedFrames, .ofGraph graph []) := by
  have start : (reach 0 (guarded.method.entryFrame.resize 2)
      ⟨Array.replicate guarded.graph.blocks.size none, []⟩).run (.ofGraph graph []) =
        (.ok ⟨#[some ⟨[.object ClassName.throwable.text, .top], []⟩, none, none, none, none], [0]⟩,
          .ofGraph graph []) := rfl
  exact run_inferFrames (Nat.succ_pos 4) (by decide) start fun more => rfl

/-- A method of throwables without parameters or constants speaks of standard classes only. -/
theorem namesKnown_throwable {context : CodeContext} (pool : context.pool = .empty)
    (thisClass : context.method.thisClass = ClassName.throwable.text)
    (parameters : context.method.descriptor.parameters = []) :
    Hierarchy.NamesKnown ClassGraph.standard.find? context := by
  have entry : ∀ index, context.pool.entry index = .error (.missingConstant index) := by
    rw [pool]
    exact fun _ => rfl
  have standard : ∀ info ∈ ClassGraph.standardClasses,
      Hierarchy.NameKnown ClassGraph.standard.find? info.name.text :=
    fun info member => Hierarchy.nameKnown_className (ClassGraph.find?_standard member)
  have throwable := standard ⟨.throwable, _, _, _⟩ (List.mem_of_getElem? (i := 20) rfl)
  constructor
  case root => exact ⟨_, ClassGraph.find?_standard (List.mem_of_getElem? (i := 0) rfl)⟩
  case throwable => exact throwable
  case thisClass => exact thisClass ▸ throwable
  case parameters => exact fun _ member => by cases parameters ▸ member
  case classes =>
    intro index text found
    rw [Pool.className, entry] at found
    cases found
  case constants =>
    intro index type found
    rw [CodeContext.constantType, entry] at found
    cases found
  case fields =>
    intro index type found
    rw [CodeContext.fieldType, Pool.member, entry] at found
    cases found
  case results =>
    intro index member descriptor type found
    rw [Pool.member, entry] at found
    cases found
  case dynamicResults =>
    intro index signature descriptor type found
    rw [Pool.dynamicSignature, entry] at found
    cases found

theorem guarded_names : Hierarchy.NamesKnown ClassGraph.standard.find? guarded :=
  namesKnown_throwable rfl rfl rfl

theorem guarded_closed : guarded.graph.Closed where
  some_ := by decide
  successors := by
    have all : ∀ block < guarded.graph.blocks.size,
        ∀ target ∈ guarded.graph.successors block, target < guarded.graph.blocks.size := by decide
    intro block target successor
    by_cases inside : block < guarded.graph.blocks.size
    · exact all block inside target successor
    · rw [FlowGraph.successors, Array.getElem?_eq_none (Nat.le_of_not_lt inside)] at successor
      cases successor
  handlers := by decide

theorem inferFrames_guarded :
    (guarded.inferFrames 2).run (.ofGraph .standard []) =
        (.ok guardedFrames, .ofGraph .standard []) ∧
      PostFixed guarded 2 (.ofGraph .standard []) guardedFrames := by
  have known := Hierarchy.known_ofGraph .standard
  have rooted : Hierarchy.Rooted (Hierarchy.ofGraph .standard []).known :=
    known ▸ ClassGraph.standard_rooted
  have names : Hierarchy.NamesKnown (Hierarchy.ofGraph .standard []).known guarded :=
    known ▸ guarded_names
  exact ⟨guarded_run .standard,
    inferFrames_postFixed (.fresh .standard []) rooted names guarded_closed (guarded_run .standard)⟩

end Inference
end ClassFile
