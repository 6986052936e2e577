import ClassFile.Proofs.Code.SuppliedFrames
import ClassFile.Proofs.Code.WidenedRows

namespace ClassFile

/-!
# Recorded code as it is laid out

Recorded code is padded and widened, and then frames are added where a widened branch used
to fall into.  All of its frames mention blocks that were recorded, those that replaying
finds among them.  So its rows follow from the recorded blocks and their frames.
-/

open Assembly Widening

/-! ## Sites -/

/-- The frames of blocks only mention the first ones. -/
def SitesBelow (count : Nat) (blocks : Array CodeBlock) : Prop :=
  ∀ block frame, frameOf? blocks block = some frame → ∀ site, frame.Mentions site → site < count

namespace FlowGraph

theorem resolves_site {labels : Std.HashMap Nat Nat} {frame renamed : BlockFrame} {site : Nat}
    (run : frame.mapM pure (resolve labels) = .ok renamed) (mentions : renamed.Mentions site) :
    ∃ label : Nat, labels[label]? = some site := by
  have found : ∀ {types results : List BlockType},
      types.mapM (fun type => type.mapM pure (resolve labels)) = .ok results →
        .uninitialized site ∈ results → ∃ label : Nat, labels[label]? = some site := by
    intro types results run member
    obtain ⟨type, -, here⟩ := forall₂_mem (mapM_eq_ok.1 run) member
    cases type with
    | uninitialized label =>
      obtain ⟨block, known, same⟩ := bind_eq_ok.1 here
      obtain rfl := VerificationType.uninitialized.inj (pure_eq_ok.1 same)
      exact ⟨label, resolve_eq_ok.1 known⟩
    | _ => cases pure_eq_ok.1 here
  obtain ⟨locals, areLocals, onward⟩ := bind_eq_ok.1 run
  obtain ⟨operands, areOperands, same⟩ := bind_eq_ok.1 onward
  obtain rfl := pure_eq_ok.1 same
  rcases mentions with inLocals | inStack
  · exact found areLocals inLocals
  · exact found areOperands (List.mem_reverse.1 inStack)

theorem IsCut.sitesBelow {graph : FlowGraph} {items : List Item} {handlers : List Handler}
    {pieces : List Piece} (isCut : graph.IsCut items handlers pieces) :
    SitesBelow graph.blocks.size graph.blocks := by
  intro block frame isFrame site mentions
  obtain ⟨code, there, framed⟩ := frameOf?_eq_some.1 isFrame
  have inside : block < pieces.length := by
    rw [← isCut.size_eq]
    exact (Array.getElem?_eq_some_iff.1 there).1
  have made := (isCut.blocks block _ code (List.getElem?_eq_getElem inside) there).frame
  rw [framed] at made
  generalize (pieces[block]).frame? = recorded at made
  cases made with
  | some run =>
    obtain ⟨label, placed⟩ := resolves_site run mentions
    obtain ⟨piece, found, -⟩ := (isCut.labels label site).1 placed
    exact isCut.lt_size found

end FlowGraph

theorem Frame.mentions_of_resize {frame : BlockFrame} {slots site : Nat}
    (mentions : (frame.resize slots).Mentions site) : frame.Mentions site := by
  refine mentions.imp_left fun inside => ?_
  rcases List.mem_append.1 inside with declared | padding
  · exact List.mem_of_mem_take declared
  · cases List.eq_of_mem_replicate padding

/-- Replaying takes sites from the frame it starts with and from the blocks it goes over. -/
theorem CodeContext.replay_mentions {context : CodeContext} {locals block site : Nat}
    {frame : BlockFrame} (below : SitesBelow context.graph.blocks.size context.graph.blocks)
    (run : context.replay locals block = .ok frame) (mentions : frame.Mentions site) :
    site < context.graph.blocks.size := by
  unfold replay at run
  rcases isLast : context.lastRecorded block with ⟨first, start⟩
  rw [isLast] at run
  have started : ∀ site, (start.resize (max locals start.locals.length)).Mentions site →
      site < context.graph.blocks.size := by
    intro site mentions
    rw [lastRecorded_eq] at isLast
    cases found : (List.range (block + 1)).reverse.findSome? context.recorded? with
    | none =>
      rw [found] at isLast
      obtain ⟨-, rfl⟩ := Prod.mk.inj isLast
      exact absurd mentions (Inference.entryFrame_mentions context.method _ site)
    | some last =>
      rw [found] at isLast
      obtain rfl : last = (first, start) := isLast
      obtain ⟨earlier, -, isRecorded⟩ := List.exists_of_findSome?_eq_some found
      obtain ⟨code, there, isFrame⟩ := Option.bind_eq_some_iff.1 isRecorded
      obtain ⟨frame, framed, same⟩ := Option.bind_eq_some_iff.1 isFrame
      obtain ⟨-, rfl⟩ := Prod.mk.inj (Option.some.inj same)
      exact below earlier frame (frameOf?_eq_some.2 ⟨code, there, framed⟩) site
        (Frame.mentions_of_resize mentions)
  refine @foldlM_preserves _ _ _ (fun frame : BlockFrame => ∀ site, frame.Mentions site →
    site < context.graph.blocks.size) _ _ ?_ _ _ started run site mentions
  intro block _ before after known step site mentions
  unfold stepBlock at step
  split at step
  · next code there =>
    obtain ⟨middle, steps, last⟩ := bind_eq_ok.1 step
    rcases mentions_of_steps steps (stepBranch_mentions last mentions) with old | ⟨-, rfl⟩
    · exact known site old
    · exact (Array.getElem?_eq_some_iff.1 there).1
  · obtain rfl := pure_eq_ok.1 step
    exact known site mentions

namespace Assembly

/-! ## Frames of widened blocks -/

/-- Where a conditional branch falls. -/
def around? : Branch Nat Nat Nat → Option Nat
  | .conditional _ _ next => some next
  | _ => none

theorem next?_of_around? {branch : Branch Nat Nat Nat} {next : Nat}
    (falls : around? branch = some next) : branch.next? = some next := by
  cases branch with
  | conditional => exact falls
  | _ => cases falls

section

variable {blocks : Array CodeBlock} {far : Finset Nat} {parts : Nat → List Nat} {block next : Nat}
  (plain : Plain blocks (List.range blocks.size))
  (rewriting : Rewriting .nop none blocks (List.range blocks.size) (widened blocks) far parts)
include rewriting

theorem frameOf?_widened (inside : block < blocks.size) :
    frameOf? (widened blocks).blocks block = frameOf? blocks block :=
  frameOf?_of_rewritten (rewriting.rewritten block (List.mem_range.2 inside))

/-- A widened block has the frame of one that was there before. -/
theorem frameOf?_of_widened {part : Nat} {frame : BlockFrame}
    (isFrame : frameOf? (widened blocks).blocks part = some frame) :
    ∃ block, frameOf? blocks block = some frame := by
  obtain ⟨code, there, framed⟩ := frameOf?_eq_some.1 isFrame
  have inside : part < (widened blocks).blocks.size := (Array.getElem?_eq_some_iff.1 there).1
  have placed := widened_covers blocks part inside
  rw [rewriting.order_eq, List.mem_flatMap] at placed
  obtain ⟨block, inRange, member⟩ := placed
  have rewritten := rewriting.rewritten block inRange
  have own := frameOf?_of_rewritten rewritten
  have here := rewritten.partOf member there
  generalize parts block = list at here
  cases here with
  | kept | goto | jsr | conditional => exact ⟨part, own.symm.trans isFrame⟩
  | around => cases framed
  | @onward _ _ target =>
    refine ⟨target, ?_⟩
    rw [← framed, frameOf?]
    cases blocks[target]? <;> rfl

/-- Just the conditional branches that are widened used to fall into another block. -/
theorem widenedNext?_widened {code : CodeBlock} (there : blocks[block]? = some code)
    (inside : ∀ next, code.branch.next? = some next → next < blocks.size) :
    widenedNext? blocks.size (widened blocks).blocks block =
      if block ∈ far then around? code.branch else none := by
  have below := (Array.getElem?_eq_some_iff.1 there).1
  have rewritten := rewriting.rewritten block (List.mem_range.2 below)
  have within : ∀ {now : CodeBlock}, (widened blocks).blocks[block]? = some now →
      (∀ next, now.branch.next? = some next → next < blocks.size) →
        widenedNext? blocks.size (widened blocks).blocks block = none := by
    intro now after inside
    refine Option.eq_none_iff_forall_ne_some.2 fun next found => ?_
    obtain ⟨code, added, -, isCode, falls, beyond, -⟩ := widenedNext?_eq_some.1 found
    obtain rfl := Option.some.inj (after.symm.trans isCode)
    exact Nat.not_lt_of_le beyond (inside added falls)
  generalize parts block = list at rewritten
  cases rewritten with
  | kept before after near =>
    obtain rfl := Option.some.inj (there.symm.trans before)
    rw [if_neg near, within after inside]
  | goto before branch after widened =>
    obtain rfl := Option.some.inj (there.symm.trans before)
    rw [if_pos widened, branch]
    exact within after fun next falls => by cases falls
  | jsr before branch after widened =>
    obtain rfl := Option.some.inj (there.symm.trans before)
    rw [if_pos widened, branch]
    refine within after fun next falls => ?_
    obtain rfl := Option.some.inj falls
    exact inside _ (by rw [branch]; rfl)
  | split before branch fresh split widened =>
    obtain rfl := Option.some.inj (there.symm.trans before)
    rw [if_pos widened, branch]
    exact widenedNext?_eq_some.2 ⟨_, _, _, split.after, rfl, fresh, split.around, rfl⟩

end

/-! ## Added frames -/

/-- Blocks of which some were given frames. -/
structure Supplemented (count : Nat) (wide blocks : Array CodeBlock) : Prop where
  sameCode : SameCode wide blocks
  new : ∀ part ≥ count, frameOf? blocks part = frameOf? wide part
  sites : SitesBelow count blocks

theorem SameCode.widenedNext?_eq {blocks others : Array CodeBlock} (same : SameCode blocks others)
    (count block : Nat) :
    Assembly.widenedNext? count others block = Assembly.widenedNext? count blocks block :=
  Option.ext fun _ => ⟨same.symm.widenedNext?, same.widenedNext?⟩

/-- Frames are only added to blocks that were there before. -/
theorem supplemented_of_addWidenedFrames {context : CodeContext} {locals : Nat}
    {wide others : Array CodeBlock}
    (inside : ∀ block < context.graph.blocks.size, ∀ next,
      widenedNext? context.graph.blocks.size wide block = some next → next < context.graph.blocks.size)
    (below : SitesBelow context.graph.blocks.size context.graph.blocks)
    (wideBelow : SitesBelow context.graph.blocks.size wide)
    (run : addWidenedFrames context locals wide = .ok others) :
    Supplemented context.graph.blocks.size wide others := by
  rw [addWidenedFrames_eq] at run
  refine @foldlM_preserves _ _ _ (Supplemented context.graph.blocks.size wide) _ _ ?_ _ _
    ⟨.refl wide, fun _ _ => rfl, wideBelow⟩ run
  intro block member before after supplemented step
  rcases giveWidenedFrame_cases context locals context.graph.blocks.size before block with
    ⟨same, -⟩ | ⟨next, code, found, there, -, same⟩
  · obtain rfl := Except.ok.inj (same.symm.trans step)
    exact supplemented
  · obtain ⟨frame, replayed, rfl⟩ := map_eq_ok.1 (same.symm.trans step)
    rw [supplemented.sameCode.widenedNext?_eq] at found
    have frames := frameOf?_setFrame there frame
    refine ⟨supplemented.sameCode.setFrame there (some frame), fun part beyond => ?_, ?_⟩
    · rw [frames, if_neg, supplemented.new part beyond]
      rintro rfl
      exact Nat.not_lt_of_le beyond (inside block (List.mem_range.1 member) part found)
    · intro part known isKnown site mentions
      rw [frames] at isKnown
      split at isKnown
      · obtain rfl := Option.some.inj isKnown
        exact CodeContext.replay_mentions below replayed mentions
      · exact supplemented.sites part known isKnown site mentions

section

variable {graph : FlowGraph} {items : List Item} {handlers : List Handler} {subroutines : Bool}
  (built : FlowGraph.ofItems items handlers subroutines = .ok graph)
include built

/-- Branches lead to blocks that were recorded. -/
theorem inside_aligned (block : Nat) (code : CodeBlock)
    (there : (alignSwitches graph.blocks)[block]? = some code) :
    ∀ target ∈ code.branch.targets ++ code.branch.next?.toList,
      target < (alignSwitches graph.blocks).size := by
  obtain ⟨segments, segmented⟩ := FlowGraph.segmented_of_ofItems built
  have inside := (Array.getElem?_eq_some_iff.1 there).1
  rw [size_alignSwitches, ← segmented.length_eq] at inside
  obtain ⟨_, _, -, -, ends⟩ := aligned_segment segmented there (List.getElem?_eq_getElem inside)
  rw [size_alignSwitches]
  exact ends.inside segmented.labels

/-- The branches that are widened are the least that have to be. -/
theorem exists_rewriting :
    ∃ far parts, IsLeast {far : Finset Nat | Enough .short (alignSwitches graph.blocks)
        (List.range (alignSwitches graph.blocks).size) far} far ∧
      Plain (alignSwitches graph.blocks) (List.range (alignSwitches graph.blocks).size) ∧
        Rewriting .nop none (alignSwitches graph.blocks)
          (List.range (alignSwitches graph.blocks).size) (widened (alignSwitches graph.blocks)) far
            parts := by
  obtain ⟨segments, segmented⟩ := FlowGraph.segmented_of_ofItems built
  have plain := plain_aligned segmented
  obtain ⟨parts, rewriting⟩ := widen_rewriting plain around_short .nop none
  exact ⟨_, parts, ((farJumps_widens plain).least plain around_short).1, plain, rewriting⟩

/-- Widened code with recorded frames only gets more of them. -/
theorem supplemented_of_recordedBlocks {method : MethodContext} {pool : Pool} {locals : Nat}
    {others : Array CodeBlock} {far : Finset Nat} {parts : Nat → List Nat}
    (rewriting : Rewriting .nop none (alignSwitches graph.blocks)
      (List.range (alignSwitches graph.blocks).size) (widened (alignSwitches graph.blocks)) far parts)
    (run : MethodBody.recordedBlocks ⟨graph, method, pool⟩ locals = .ok others) :
    Supplemented graph.blocks.size (widened (alignSwitches graph.blocks)).blocks others := by
  have size := size_alignSwitches graph.blocks
  have below := (FlowGraph.isCut_of_ofItems built).sitesBelow
  have wideBelow : SitesBelow graph.blocks.size (widened (alignSwitches graph.blocks)).blocks := by
    intro part frame isFrame
    obtain ⟨block, isOld⟩ := frameOf?_of_widened rewriting isFrame
    exact below block frame ((frameOf?_alignSwitches graph.blocks block).symm.trans isOld)
  unfold MethodBody.recordedBlocks at run
  dsimp only at run
  split at run
  · refine supplemented_of_addWidenedFrames (fun block inside next found => ?_) below wideBelow run
    dsimp only at inside found ⊢
    rw [← size] at inside found ⊢
    have there := Array.getElem?_eq_getElem inside
    have onward := inside_aligned built block _ there
    have falls : ∀ next, (alignSwitches graph.blocks)[block].branch.next? = some next →
        next < (alignSwitches graph.blocks).size := fun next falls =>
      onward next (List.mem_append_right _ (Option.mem_toList.2 falls))
    rw [widenedNext?_widened rewriting there falls] at found
    split at found
    · exact falls next (next?_of_around? found)
    · cases found
  · obtain rfl := Except.ok.inj run
    exact ⟨.refl _, fun _ _ => rfl, wideBelow⟩

/-- Recorded code is laid out as its blocks are widened, with frames that were recorded or
added. -/
theorem widenedLayout_of_recordedBlocks {method : MethodContext} {pool : Pool} {locals : Nat}
    {others : Array CodeBlock} {far : Finset Nat} {parts : Nat → List Nat}
    (plain : Plain (alignSwitches graph.blocks) (List.range (alignSwitches graph.blocks).size))
    (rewriting : Rewriting .nop none (alignSwitches graph.blocks)
      (List.range (alignSwitches graph.blocks).size) (widened (alignSwitches graph.blocks)) far parts)
    (run : MethodBody.recordedBlocks ⟨graph, method, pool⟩ locals = .ok others) :
    WidenedLayout (alignSwitches graph.blocks) (recordedLayout graph.blocks others) far parts := by
  have supplemented := supplemented_of_recordedBlocks built rewriting run
  have size := size_alignSwitches graph.blocks
  exact ⟨plain, rewriting, supplemented.sameCode, rfl, rfl, size ▸ supplemented.new,
    inside_aligned built, size ▸ supplemented.sites⟩

end

end Assembly
end ClassFile
