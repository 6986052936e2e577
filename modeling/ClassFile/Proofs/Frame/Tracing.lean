import ClassFile.Proofs.Frame.Passing

namespace ClassFile

/-!
# Where uninitialized values come from

A block is only mentioned once it has a frame.  So the first frame of a block does not
mention the block itself, and joining other frames into that one adds no block to those
that it mentions.  Hence a `new` never meets a value that it made before, and the class of
an uninitialized value is always found.
-/

/-! ## Joins -/

namespace Hierarchy

open Fault (OfQuestion)
open Query

/-- Joining two types keeps a value that waits for its constructor only where both are it. -/
theorem joinTypes_ends (first second : BlockType) :
    (joinTypes first second).Ends OfQuestion fun joined =>
      ∀ site, joined = .uninitialized site → first = .uninitialized site := by
  unfold joinTypes
  split
  · exact ends_pure fun _ same => same
  · split
    · exact ends_pure nofun
    · exact ends_pure nofun
    · exact (joinNames_ends _ _).bind fun _ _ => ends_pure nofun
    · exact ends_pure nofun

theorem uninitialized_mem_of_zip {site : Nat} {firsts seconds joined : List BlockType}
    (each : List.Forall₂ (fun pair join => ∀ site, join = .uninitialized site →
      pair.1 = .uninitialized site) (firsts.zip seconds) joined)
    (member : .uninitialized site ∈ joined) : .uninitialized site ∈ firsts := by
  obtain ⟨⟨first, second⟩, isPair, here⟩ := forall₂_mem each member
  obtain rfl := here site rfl
  exact (List.of_mem_zip isPair).1

theorem joinLocals_ends (known incoming : List BlockType) :
    (joinLocals known incoming).Ends OfQuestion fun joined =>
      ∀ site, .uninitialized site ∈ joined → .uninitialized site ∈ known := by
  refine (ends_mapM fun pair _ => joinTypes_ends pair.1 pair.2).bind fun shared each =>
    ends_pure fun site member => ?_
  rcases List.mem_append.1 member with inside | lone
  · exact uninitialized_mem_of_zip each inside
  · cases List.eq_of_mem_replicate lone

/-- Joining frames adds nothing to what the first one mentions.  It fails because their stacks
disagree, or as questions do. -/
theorem joinFrames_ends {kind : Fault → Prop} (asks : ∀ fault, OfQuestion fault → kind fault)
    (block : Nat) (mismatch : ∀ expected found, kind (.incompatibleHeights block expected found))
    (known incoming : BlockFrame) :
    (joinFrames block known incoming).Ends kind fun joined =>
      ∀ site, joined.Mentions site → known.Mentions site := by
  rw [joinFrames]
  dsimp only
  split
  · exact ends_throw (mismatch _ _)
  · have onOperands : ∀ pair ∈ known.operands.zip incoming.operands,
        (if pair.1.width = pair.2.width then joinTypes pair.1 pair.2
          else throw (.incompatibleHeights block known.height incoming.height)).Ends kind
            fun joined => ∀ site, joined = .uninitialized site → pair.1 = .uninitialized site := by
      intro pair _
      split
      · exact (joinTypes_ends pair.1 pair.2).widen asks
      · exact ends_throw (mismatch _ _)
    refine (ends_mapM onOperands).bind fun operands eachOperand => ?_
    have onLocals := (joinLocals_ends known.locals incoming.locals).widen asks
    refine onLocals.bind fun locals eachLocal => ends_pure fun site => Or.imp (eachLocal site) fun member => ?_
    have inside := uninitialized_mem_of_zip eachOperand (List.mem_reverse.1 member)
    exact List.mem_reverse.1 inside

end Hierarchy

/-! ## Visits -/

namespace Inference

open Fault (SparesSites)
open Hierarchy.Query

/-- A block that values come from has a frame and starts with the `new` that makes them. -/
structure Origin (context : CodeContext) (progress : Progress) (site : Nat) : Prop where
  found : ∃ frame, progress.frame? site = some frame
  starts : context.graph.StartsWithNew site

/-- All values of a frame that wait for their constructor have an origin. -/
def Sourced (context : CodeContext) (progress : Progress) (frame : BlockFrame) : Prop :=
  ∀ site, frame.Mentions site → Origin context progress site

/-- The values of all frames have an origin, which is not the block that the frame is of. -/
structure Traced (context : CodeContext) (progress : Progress) : Prop where
  sourced : ∀ block frame, progress.frame? block = some frame → Sourced context progress frame
  fresh : ∀ block frame, progress.frame? block = some frame → ¬frame.Mentions block

/-- Blocks that have frames keep having frames. -/
def Onward (before after : Progress) : Prop :=
  ∀ block frame, before.frame? block = some frame → ∃ there, after.frame? block = some there

section

variable {context : CodeContext} {progress before after : Progress} {block target : Nat}
  {frame incoming : BlockFrame}

theorem Onward.refl (progress : Progress) : Onward progress progress :=
  fun _ frame found => ⟨frame, found⟩

theorem Onward.trans {middle : Progress} (first : Onward before middle)
    (second : Onward middle after) : Onward before after := by
  intro block frame found
  obtain ⟨there, found'⟩ := first block frame found
  exact second block there found'

theorem Sourced.onward (sourced : Sourced context before frame) (onward : Onward before after) :
    Sourced context after frame := by
  intro site mentions
  obtain ⟨⟨there, found⟩, starts⟩ := sourced site mentions
  exact ⟨onward site there found, starts⟩

theorem onward_set (waiting : List Nat) :
    Onward progress ⟨progress.frames.setIfInBounds block (some frame), waiting⟩ := by
  intro other known found
  by_cases same : block = other
  · subst same
    obtain ⟨inside, -⟩ := Array.getElem?_eq_some_iff.1 (Option.join_eq_some_iff.1 found)
    exact ⟨frame, frame?_set_self inside⟩
  · exact ⟨known, (frame?_set_of_ne same).trans found⟩

/-- Giving a block a frame that does not mention it. -/
theorem Traced.set (traced : Traced context progress) (sourced : Sourced context progress frame)
    (fresh : ¬frame.Mentions block) (waiting : List Nat) :
    Traced context ⟨progress.frames.setIfInBounds block (some frame), waiting⟩ := by
  constructor
  case sourced =>
    intro other known found
    rcases frame?_set_eq_some found with ⟨rfl, rfl⟩ | before
    · exact sourced.onward (onward_set waiting)
    · exact (traced.sourced other known before).onward (onward_set waiting)
  case fresh =>
    intro other known found
    rcases frame?_set_eq_some found with ⟨rfl, rfl⟩ | before
    · exact fresh
    · exact traced.fresh other known before

/-- A block without a frame is not mentioned, and one with a frame gets nothing new to
mention. -/
theorem reach_ends (traced : Traced context progress) (sourced : Sourced context progress incoming) :
    (reach target incoming progress).Ends SparesSites fun after =>
      Traced context after ∧ Onward progress after := by
  unfold reach
  split
  · next known there =>
    have found : progress.frame? target = some known := by rw [Progress.frame?, there]; rfl
    have joins := Hierarchy.joinFrames_ends (fun _ => Fault.OfQuestion.spares) target
      (fun _ _ _ same => by cases same) known incoming
    refine joins.bind fun joined fewer => ?_
    split
    · exact ends_pure ⟨traced, .refl progress⟩
    · refine ends_pure ⟨traced.set (fun site mentions => ?_) (fun mentions => ?_) _, onward_set _⟩
      · exact traced.sourced target known found site (fewer site mentions)
      · exact traced.fresh target known found (fewer target mentions)
  · next absent =>
    refine ends_pure ⟨traced.set sourced (fun mentions => ?_) _, onward_set _⟩
    obtain ⟨known, found⟩ := (sourced target mentions).found
    exact absent known (Option.join_eq_some_iff.1 found)

/-- The values at a point of a block have an origin if those at its start do. -/
theorem Sourced.steps (newFirst : context.graph.NewFirst) {code : CodeBlock}
    (there : context.graph.blocks[block]? = some code)
    (found : ∃ known, progress.frame? block = some known) (sourced : Sourced context progress frame)
    {taken left : List Instruction} (whole : taken ++ left = code.instructions.toList)
    {here : BlockFrame} (through : taken.foldlM (context.step block) frame = .ok here) :
    Sourced context progress here := by
  intro site mentions
  rcases CodeContext.mentions_of_steps through mentions with before | ⟨⟨cls, member⟩, rfl⟩
  · exact sourced site before
  · obtain ⟨index, isNew⟩ := List.mem_iff_getElem?.1 (List.mem_append_left left member)
    rw [whole, Array.getElem?_toList] at isNew
    obtain rfl := newFirst site code index cls there isNew
    exact ⟨found, code, cls, there, isNew⟩

theorem visit_ends (newFirst : context.graph.NewFirst) {code : CodeBlock}
    (there : context.graph.blocks[block]? = some code)
    (found : ∃ known, progress.frame? block = some known) (traced : Traced context progress)
    (sourced : Sourced context progress frame) :
    (visit context block code frame progress).Ends SparesSites fun after =>
      Traced context after ∧ Onward progress after := by
  have atPoint : ∀ {taken left : List Instruction} {here},
      taken ++ left = code.instructions.toList →
      taken.foldlM (context.step block) frame = .ok here → Sourced context progress here :=
    fun whole through => sourced.steps newFirst there found whole through
  apply ends_iff.2
  refine visit_resolves (fun _ => Fault.Plain.spares) there ?_ ?_ ⟨traced, .refl progress⟩
  · intro count here through site mentions
    have starts := (atPoint (List.take_append_drop count _) through site mentions).starts
    exact (CodeContext.siteClass_plain starts).mono fun _ => Fault.Plain.spares
  · intro middle target out ⟨traced', onward⟩ passed
    have sourcedOut : Sourced context progress out := by
      cases passed with
      | along there' through left successor =>
        obtain rfl := Option.some.inj (there.symm.trans there')
        exact fun site mentions => atPoint (List.append_nil _) through site
          (CodeContext.stepBranch_mentions left mentions)
      | thrown there' inside through covers isCaught =>
        obtain rfl := Option.some.inj (there.symm.trans there')
        obtain ⟨cls, rfl, -⟩ := caught_eq_ok isCaught
        intro site mentions
        refine atPoint (List.take_append_drop _ _) through site (.inl (mentions.resolve_right fun inside => ?_))
        cases List.mem_singleton.1 inside
    exact ends_iff.1 ((reach_ends traced' (sourcedOut.onward onward)).mono fun _ kept =>
      ⟨kept.1, onward.trans kept.2⟩)

/-! ## Runs -/

theorem run_ends (newFirst : context.graph.NewFirst) (visits : Nat)
    (traced : Traced context progress) :
    (run context visits progress).Ends SparesSites fun frames =>
      Traced context ⟨frames, []⟩ := by
  have fewer : ∀ {frames block waiting}, Traced context ⟨frames, block :: waiting⟩ →
      Traced context ⟨frames, waiting⟩ := by
    intro frames block waiting traced
    refine ⟨fun other known found => ?_, traced.fresh⟩
    exact (traced.sourced other known found).onward fun _ frame found => ⟨frame, found⟩
  apply ends_iff.2
  have resolves : Resolves (fun _ => True) SparesSites (run context visits progress) fun frames =>
      ∃ rest : Nat, Traced context ⟨frames, []⟩ := by
    refine @run_resolves context _ _ (fun _ progress => Traced context progress) ?_ ?_ ?_ _ _ traced
    · intro left frames block waiting code frame there found traced
      have onward := fewer traced
      exact ends_iff.1 ((visit_ends newFirst there ⟨frame, found⟩ onward
        (onward.sourced block frame found)).mono fun _ kept => kept.1)
    · exact fun left frames block waiting traced => fewer traced
    · exact fun _ _ _ _ _ same => by cases same
  exact resolves.mono fun frames ⟨_, kept⟩ => kept

/-- The frame at the start of a method mentions nothing. -/
theorem entryFrame_mentions (method : MethodContext) (slots site : Nat) :
    ¬(method.entryFrame.resize slots).Mentions site := by
  rintro (inside | inside)
  · rcases List.mem_append.1 inside with declared | padding
    · exact MethodContext.ne_uninitialized_of_mem (List.mem_of_mem_take declared) site rfl
    · cases List.eq_of_mem_replicate padding
  · cases inside

theorem inferFrames_ends (newFirst : context.graph.NewFirst) (locals : Nat) :
    (context.inferFrames locals).Ends SparesSites fun frames => Traced context ⟨frames, []⟩ := by
  have nothing : Traced context ⟨Array.replicate context.graph.blocks.size none, []⟩ := by
    constructor
    all_goals
      intro block frame found
      rw [frame?_nothing] at found
      cases found
  unfold CodeContext.inferFrames
  dsimp only
  split
  · exact (ends_throw fun _ same => by cases same).bind fun _ => False.elim
  · refine (reach_ends nothing fun site mentions => ?_).bind fun start kept => ?_
    · exact absurd mentions (entryFrame_mentions context.method locals site)
    · exact ends_get.bind fun hierarchy _ => run_ends newFirst _ kept.1

end

/-! ## Inferred frames -/

/-- The frame at a point of a block that has one, after some of its instructions. -/
structure PointFrame (context : CodeContext) (frames : Array (Option BlockFrame))
    (block count : Nat) (here : BlockFrame) : Prop where
  through : ∃ frame code, frames[block]? = some (some frame) ∧
    context.graph.blocks[block]? = some code ∧ count ≤ code.instructions.size ∧
      (code.instructions.toList.take count).foldlM (context.step block) frame = .ok here

/-- What is known of uninitialized values once frames are inferred. -/
structure Traces (context : CodeContext) (frames : Array (Option BlockFrame)) : Prop where
  /-- A value at any point of a block comes from a block that control reaches and that
  starts with `new`. -/
  origin : ∀ block count here site, PointFrame context frames block count here →
    here.Mentions site →
      (∃ frame, frames[site]? = some (some frame)) ∧ context.graph.StartsWithNew site
  /-- A block does not start with values of its own. -/
  fresh : ∀ (block : Nat) frame, frames[block]? = some (some frame) → ¬frame.Mentions block
  /-- After a `new` its value is at the top of the stack and nowhere else. -/
  alone : ∀ block count here code cls, PointFrame context frames block count here →
    context.graph.blocks[block]? = some code →
      code.instructions[count]? = some (.withClass .new cls) →
        context.step block here (.withClass .new cls) =
            .ok ⟨here.locals, .uninitialized block :: here.stack⟩ ∧ ¬here.Mentions block

theorem traces_of_traced {context : CodeContext} (newFirst : context.graph.NewFirst)
    {frames : Array (Option BlockFrame)} (traced : Traced context ⟨frames, []⟩) :
    Traces context frames := by
  constructor
  case origin =>
    rintro block count here site ⟨frame, code, found, there, -, through⟩ mentions
    have hasFrame : Progress.frame? ⟨frames, []⟩ block = some frame := frame?_eq_some.2 found
    obtain ⟨⟨first, found'⟩, starts⟩ := (traced.sourced block frame hasFrame).steps newFirst there
      ⟨frame, hasFrame⟩ (List.take_append_drop count _) through site mentions
    exact ⟨⟨first, frame?_eq_some.1 found'⟩, starts⟩
  case fresh => exact fun block frame found => traced.fresh block frame (frame?_eq_some.2 found)
  case alone =>
    rintro block count here code cls ⟨frame, other, found, there, -, through⟩ isCode isNew
    obtain rfl := Option.some.inj (there.symm.trans isCode)
    obtain rfl := newFirst block _ count cls there isNew
    obtain rfl := pure_eq_ok.1 through
    exact ⟨rfl, traced.fresh block frame (frame?_eq_some.2 found)⟩

/-- Whatever is known of classes, inferred frames trace their uninitialized values, and
inference never fails for not finding where one comes from. -/
theorem inferFrames_traces {context : CodeContext} (newFirst : context.graph.NewFirst)
    (locals : Nat) (hierarchy : Hierarchy) :
    (∀ frames, ((context.inferFrames locals).run hierarchy).1 = .ok frames →
        Traces context frames) ∧
      ∀ block, ((context.inferFrames locals).run hierarchy).1 ≠
        .error (.malformed (.notFromNew block)) := by
  obtain ⟨traced, fails⟩ := inferFrames_ends newFirst locals hierarchy
  exact ⟨fun frames run => traces_of_traced newFirst (traced frames run),
    fun block run => fails _ run block rfl⟩

end Inference

end ClassFile
