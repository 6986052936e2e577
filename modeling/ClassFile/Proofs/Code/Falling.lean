import ClassFile.Proofs.Code.Replaying
import ClassFile.Proofs.Frame.Formed
import ClassFile.Proofs.Frame.PostFixed

namespace ClassFile

/-!
# Blocks that are only fallen into

Nothing but the block before leads to a block that needs no frame of its own.  Its inferred
frame covers what that block passes on, as every frame does, and is no more than this: in
a hierarchy where joins are least, no frame on the way there goes beyond what is passed on
in the end, for instructions go up with the types as long as no operand is unusable.
-/

namespace Inference

open Hierarchy (Follows FrameBelow FrameFormed FormedBelow NamesFormed Rooted)

/-- The most that comes to a block, given the inferred frames. -/
inductive Ceiling (context : CodeContext) (slots : Nat) (frames : Array (Option BlockFrame)) :
    Nat → BlockFrame → Prop
  | inferred {block : Nat} {frame : BlockFrame} (found : frames[block]? = some (some frame)) :
      Ceiling context slots frames block frame
  | first (unneeded : ¬context.graph.NeedsFrame 0) :
      Ceiling context slots frames 0 (context.method.entryFrame.resize slots)
  | fallen {block : Nat} {frame out : BlockFrame}
      (unneeded : ¬context.graph.NeedsFrame (block + 1))
      (found : frames[block]? = some (some frame))
      (passes : context.stepBlock frame block = .ok out) :
      Ceiling context slots frames (block + 1) out

/-- A frame of formed types that comes to a block with an inferred frame. -/
structure Capped (known : String → Option ClassInfo) (context : CodeContext) (slots : Nat)
    (frames : Array (Option BlockFrame)) (block : Nat) (frame : BlockFrame) : Prop where
  formed : FrameFormed known slots frame
  reached : ∃ there, frames[block]? = some (some there)
  below : ∀ upper, Ceiling context slots frames block upper → FrameBelow known frame upper

/-- Blocks that need no frame of their own have just the frame that comes to them. -/
structure Exact (context : CodeContext) (slots : Nat) (frames : Array (Option BlockFrame)) :
    Prop where
  first : ¬context.graph.NeedsFrame 0 →
    frames[0]? = some (some (context.method.entryFrame.resize slots))
  fallen : ∀ (block : Nat) frame there, ¬context.graph.NeedsFrame (block + 1) →
    frames[block]? = some (some frame) → frames[block + 1]? = some (some there) →
      context.stepBlock frame block = .ok there

section

variable {context : CodeContext} {slots : Nat} {frames : Array (Option BlockFrame)}
  {known : String → Option ClassInfo} {good : Nat → BlockFrame → Prop} {block target : Nat}
  {frame there out upper : BlockFrame}

variable (stable : Stable (FrameBelow known) context good ⟨frames, []⟩)
  (inferred : Assembly.Inferred context.graph frames)

include stable inferred

/-- What a block passes on with its inferred frame stays below the ceiling. -/
theorem Ceiling.covers (found : frames[block]? = some (some frame))
    (passed : Passed context block frame target out)
    (ceiling : Ceiling context slots frames target upper) : FrameBelow known out upper := by
  obtain ⟨code, isCode⟩ := stable.sound.code found
  -- Only falling in leads to a block that needs no frame.
  have falls : ¬context.graph.NeedsFrame target → target = block + 1 ∧
      context.stepBlock frame block = .ok out := by
    intro unneeded
    cases passed with
    | along isCode' through left successor =>
      refine ⟨?_, ?_⟩
      · rcases List.mem_append.1 successor with isTarget | falls
        · exact absurd (.jumped isCode' isTarget) unneeded
        · exact inferred.next block _ target isCode' (Option.mem_toList.1 falls)
      · rw [CodeContext.stepBlock, isCode']
        exact bind_eq_ok.2 ⟨_, through, left⟩
    | thrown _ _ _ covers => exact absurd (.caught (List.mem_of_mem_filter covers) rfl) unneeded
  cases ceiling with
  | inferred found' =>
    obtain ⟨there, isThere, below⟩ := (stable.done found isCode).covered target out passed
    rwa [← Option.some.inj (Option.some.inj ((frame?_eq_some.1 isThere).symm.trans found'))]
  | first unneeded => cases (falls unneeded).1
  | fallen unneeded found' passes =>
    obtain ⟨isNext, passes'⟩ := falls unneeded
    obtain rfl := Nat.succ.inj isNext
    obtain rfl := Option.some.inj (Option.some.inj (found.symm.trans found'))
    obtain rfl := Except.ok.inj (passes.symm.trans passes')
    exact .refl known upper

omit inferred

/-- What a frame below the inferred one passes on is below what that passes on. -/
theorem Passed.raise (names : NamesFormed known context) (usable : Assembly.Usable context frames)
    (found : frames[block]? = some (some there))
    (related : FramesRelated (FormedBelow known) frame there)
    (passed : Passed context block frame target out) :
    ∃ higher, Passed context block there target higher ∧
      FramesRelated (FormedBelow known) out higher := by
  have alike : context.Alike context := ⟨rfl, rfl, fun _ => rfl⟩
  cases passed with
  | @along code last _ _ isCode through left successor =>
    obtain ⟨higherLast, higher, through', left'⟩ := (stable.done found isCode).passes.along
    obtain ⟨last', again, onLast⟩ := alike.steps names.stepsKeep related
      (usable.points found isCode (List.append_nil _)) through'
    obtain rfl := Except.ok.inj (through.symm.trans again)
    obtain ⟨out', leftAgain, onOut⟩ := CodeContext.stepBranch_related onLast left'
    obtain rfl := Except.ok.inj (left.symm.trans leftAgain)
    exact ⟨higher, .along isCode through' left' successor, onOut⟩
  | @thrown code here _ handler count isCode inside through covers caught =>
    obtain ⟨higherHere, higher, through', caught'⟩ :=
      (stable.done found isCode).passes.thrown handler covers count inside
    obtain ⟨here', again, onHere⟩ := alike.steps names.stepsKeep related
      (usable.points found isCode (List.take_append_drop count _)) through'
    obtain rfl := Except.ok.inj (through.symm.trans again)
    exact ⟨higher, .thrown isCode inside through' covers caught',
      names.caught onHere caught caught'⟩

end

theorem Passed.length_locals {context : CodeContext} {block target : Nat} {frame out : BlockFrame}
    (passed : Passed context block frame target out) :
    out.locals.length = frame.locals.length := by
  cases passed with
  | along isCode through left successor =>
    rw [(CodeContext.suffix_of_stepBranch left).1, CodeContext.length_steps through]
  | thrown isCode inside through covers caught =>
    obtain ⟨cls, rfl, -⟩ := caught_eq_ok caught
    exact (CodeContext.length_steps through :)

section

variable {context : CodeContext} {slots : Nat} {frames : Array (Option BlockFrame)}
  {origin : Hierarchy} {good : Nat → BlockFrame → Prop}
  (rooted : Rooted origin.known) (names : NamesFormed origin.known context)
  (inferred : Assembly.Inferred context.graph frames)
  (usable : Assembly.Usable context frames)

include rooted names inferred usable

/-- No frame on the way goes beyond the ceiling. -/
theorem discipline_capped
    (stable : Stable (FrameBelow origin.known) context good ⟨frames, []⟩) :
    Discipline context (Follows origin) (FrameBelow origin.known)
      (Capped origin.known context slots frames) where
  refl := FrameBelow.refl origin.known
  trans := fun _ _ _ first second => first.trans rooted second
  join := by
    intro block first second capped capped'
    refine (Hierarchy.joinFrames_least rooted names.root block capped.formed capped'.formed).mono
      fun joined least => ⟨least.covers, least.coversOther, least.formed, capped.reached, ?_⟩
    exact fun upper ceiling =>
      least.least upper (capped.below upper ceiling) (capped'.below upper ceiling)
  passed := by
    intro block frame target out capped passed
    obtain ⟨there, found⟩ := capped.reached
    have related := capped.formed.related (capped.below there (.inferred found))
    obtain ⟨higher, passed', onOut⟩ := passed.raise stable names usable found related
    refine ⟨Hierarchy.frameFormed_of_related onOut ?_, stable.edge found passed.edge, ?_⟩
    · exact passed.length_locals.trans capped.formed.slots_eq
    · intro upper ceiling
      exact (Hierarchy.frameBelow_of_related onOut).trans rooted
        (ceiling.covers stable inferred found passed')

/-- Where joins are least and no operand is unusable, blocks that need no frame of their own
have just the frame that comes to them. -/
theorem inferFrames_exact {hierarchy : Hierarchy} (learned : Hierarchy.Learned origin)
    (run : (context.inferFrames slots).run origin = (.ok frames, hierarchy)) :
    Exact context slots frames := by
  have entryKnown := names.toNamesKnown.entry slots
  have entryFormed := names.entry slots
  obtain ⟨result, last, run', -, holds⟩ := inferFrames_answers
    (discipline_known rooted names.toNamesKnown) inferred.closed ⟨entryKnown, .refl⟩ origin
    learned.follows
  obtain ⟨rfl, rfl⟩ := Prod.mk.inj (run'.symm.trans run)
  obtain ⟨stable, start, isStart, entryBelow⟩ := holds frames rfl
  have isStart := frame?_eq_some.1 isStart
  have entryCapped : Capped origin.known context slots frames 0
      (context.method.entryFrame.resize slots) := by
    refine ⟨entryFormed, ⟨start, isStart⟩, fun upper ceiling => ?_⟩
    cases ceiling with
    | inferred found =>
      rwa [← Option.some.inj (Option.some.inj (isStart.symm.trans found))]
    | first => exact .refl origin.known _
  obtain ⟨result, last', run'', -, holds'⟩ := inferFrames_answers
    (discipline_capped rooted names inferred usable stable) inferred.closed entryCapped origin
    learned.follows
  obtain ⟨rfl, rfl⟩ := Prod.mk.inj (run''.symm.trans run)
  obtain ⟨stable', -⟩ := holds' frames rfl
  have capped : ∀ (block : Nat) frame, frames[block]? = some (some frame) →
      Capped origin.known context slots frames block frame :=
    fun block frame found => stable'.sound.good block frame (frame?_eq_some.2 found)
  constructor
  case first =>
    intro unneeded
    rw [isStart, (capped 0 start isStart).below _ (.first unneeded) |>.antisymm rooted entryBelow]
  case fallen =>
    intro block frame there unneeded found isThere
    obtain ⟨code, isCode, falls, -⟩ :=
      Assembly.fallen_of_not_needsFrame inferred ⟨there, isThere⟩ unneeded
    obtain ⟨middle, out, through, left⟩ := (stable.done found isCode).passes.along
    have passes : context.stepBlock frame block = .ok out := by
      rw [CodeContext.stepBlock, isCode]
      exact bind_eq_ok.2 ⟨middle, through, left⟩
    have passed : Passed context block frame (block + 1) out :=
      .along isCode through left (List.mem_append_right _ (Option.mem_toList.2 falls))
    have above : FrameBelow origin.known out there :=
      Ceiling.covers stable inferred found passed (@Ceiling.inferred context slots frames _ _ isThere)
    have below := (capped _ there isThere).below out (.fallen unneeded found passes)
    rw [passes, above.antisymm rooted below]

end

end Inference

/-! ## Replaying is exact -/

namespace Assembly

open Inference (Exact)

variable {graph supplied : FlowGraph} {method : MethodContext} {pool : Pool}
  {frames : Array (Option BlockFrame)} {locals block : Nat} {frame out : BlockFrame}

/-- A graph with frames supplied takes frames through its blocks in the same way. -/
theorem stepBlock_supplied (isSupplied : graph.Supplied frames supplied)
    (inside : block < graph.blocks.size)
    (run : CodeContext.stepBlock ⟨graph, method, pool⟩ frame block = .ok out) :
    CodeContext.stepBlock ⟨supplied, method, pool⟩ frame block = .ok out := by
  have isCode := Array.getElem?_eq_getElem inside
  obtain ⟨frame?, there⟩ := isSupplied.exists_code isCode
  rw [CodeContext.stepBlock] at run ⊢
  dsimp only at run ⊢
  rw [isCode] at run
  rw [there]
  obtain ⟨middle, through, left⟩ := bind_eq_ok.1 run
  exact bind_eq_ok.2 ⟨middle, (isSupplied.alike method pool).foldlM_step through, left⟩

variable (exact_ : Exact ⟨graph, method, pool⟩ locals frames) (inferred : Inferred graph frames)
  (isSupplied : graph.Supplied frames supplied)
  (lengths : ∀ (block : Nat) frame, frames[block]? = some (some frame) →
    frame.locals.length = locals)
  (fits : method.entryFrame.locals.length ≤ locals)

include exact_ inferred isSupplied lengths fits

/-- Replaying arrives at a block with its inferred frame. -/
theorem arriving_exact (found : frames[block]? = some (some frame)) :
    CodeContext.arriving ⟨supplied, method, pool⟩ locals block = .ok frame := by
  have inside : ∀ {block : Nat} {frame : BlockFrame}, frames[block]? = some (some frame) →
      block < graph.blocks.size := by
    intro block frame found
    rw [← inferred.size]
    exact (Array.getElem?_eq_some_iff.1 found).1
  have needed : ∀ {block : Nat} {frame : BlockFrame}, frames[block]? = some (some frame) →
      graph.NeedsFrame block →
        CodeContext.arriving ⟨supplied, method, pool⟩ locals block = .ok frame := by
    intro block frame found needs
    obtain ⟨frame?, isInferred, there⟩ :=
      isSupplied.needed block _ (Array.getElem?_eq_getElem (inside found)) needs
    obtain rfl := Option.some.inj (isInferred.symm.trans found)
    rw [CodeContext.arriving_of_some locals there rfl, Frame.resize_self (lengths _ _ found)]
  induction block generalizing frame with
  | zero =>
    by_cases needs : graph.NeedsFrame 0
    · exact needed found needs
    · obtain rfl := Option.some.inj (Option.some.inj ((exact_.first needs).symm.trans found))
      have there := isSupplied.unneeded 0 _ (Array.getElem?_eq_getElem (inside found)) needs
      rw [CodeContext.arriving_zero locals there rfl, Nat.max_eq_left fits]
  | succ block ih =>
    by_cases needs : graph.NeedsFrame (block + 1)
    · exact needed found needs
    · have there := isSupplied.unneeded _ _ (Array.getElem?_eq_getElem (inside found)) needs
      obtain ⟨-, -, -, before, isBefore⟩ := fallen_of_not_needsFrame inferred ⟨frame, found⟩ needs
      rw [CodeContext.arriving_succ locals there rfl, CodeContext.replay_eq]
      refine bind_eq_ok.2 ⟨before, ih isBefore, ?_⟩
      exact stepBlock_supplied isSupplied (inside isBefore)
        (exact_.fallen block before frame needs isBefore found)

/-- Replaying a block gives the next one its inferred frame if that needs none of its own. -/
theorem replay_exact (unneeded : ¬graph.NeedsFrame (block + 1))
    (found : frames[block + 1]? = some (some frame)) :
    CodeContext.replay ⟨supplied, method, pool⟩ locals block = .ok frame := by
  have inside := (Array.getElem?_eq_some_iff.1 found).1
  rw [inferred.size] at inside
  have there := isSupplied.unneeded _ _ (Array.getElem?_eq_getElem inside) unneeded
  rw [← CodeContext.arriving_succ locals there rfl]
  exact arriving_exact exact_ inferred isSupplied lengths fits found

end Assembly

end ClassFile
