import ClassFile.Proofs.Code.DueFrames
import ClassFile.Proofs.Code.Recording

namespace ClassFile
namespace Assembly

/-!
# Supplied frames in widened code

Where the inferred frames are supplied at all blocks that need one, widened code has
frames just where they are due: the block that goes on to an old target takes the frame
of the target, and the block that a split branch used to fall into is given its own.
-/

variable {graph supplied : FlowGraph} {frames : Array (Option BlockFrame)} {laid : LaidCode}
  {far : Finset Nat} {parts : Nat → List Nat} {block part offset : Nat} {frame : BlockFrame}

theorem frameOf?_eq_some {blocks : Array CodeBlock} :
    frameOf? blocks block = some frame ↔
      ∃ code, blocks[block]? = some code ∧ code.frame = some frame :=
  Option.bind_eq_some_iff

theorem frameOf?_alignSwitches (blocks : Array CodeBlock) (block : Nat) :
    frameOf? (alignSwitches blocks) block = frameOf? blocks block := by
  rw [frameOf?, frameOf?]
  cases found : (alignSwitches blocks)[block]? with
  | some code =>
    obtain ⟨original, there, rfl⟩ := alignSwitches_getElem? _ found
    rw [there]
    rfl
  | none =>
    rw [Array.getElem?_eq_none_iff, size_alignSwitches, ← Array.getElem?_eq_none_iff] at found
    rw [found]

/-- The frames of a graph with supplied ones. -/
theorem FlowGraph.Supplied.frameOf?_eq_some (isSupplied : graph.Supplied frames supplied)
    (size : frames.size = graph.blocks.size) :
    frameOf? supplied.blocks block = some frame ↔
      graph.NeedsFrame block ∧ frames[block]? = some (some frame) := by
  rw [Assembly.frameOf?_eq_some]
  constructor
  · rintro ⟨code, there, isFrame⟩
    exact isSupplied.frame there isFrame
  · rintro ⟨needs, isFrame⟩
    have inside := (Array.getElem?_eq_some_iff.1 isFrame).1
    rw [size] at inside
    obtain ⟨frame?, isInferred, there⟩ :=
      isSupplied.needed block _ (Array.getElem?_eq_getElem inside) needs
    obtain rfl := Option.some.inj (isInferred.symm.trans isFrame)
    exact ⟨_, there, rfl⟩

/-! ## Widened blocks -/

section

variable {others blocks : Array CodeBlock}

/-- A block keeps its frame. -/
theorem frameOf?_of_rewritten {list : List Nat}
    (rewritten : Widening.Rewritten .nop none others blocks far block list) :
    frameOf? blocks block = frameOf? others block := by
  cases rewritten with
  | kept before after near => rw [frameOf?, frameOf?, before, after]
  | goto before branch after widened =>
    rw [frameOf?, frameOf?, before, after]
    rfl
  | jsr before branch after widened =>
    rw [frameOf?, frameOf?, before, after]
    rfl
  | split before branch fresh split widened =>
    rw [frameOf?, frameOf?, before, split.after]
    rfl

/-- The block that goes on to an old target has the frame of the target. -/
theorem frameOf?_onward {first target : Nat} {frame? : Option BlockFrame}
    {instructions : Array Instruction}
    (rewritten : Widening.Rewritten .nop none others blocks far block [block, first, first + 1])
    (there : blocks[first + 1]? = some ⟨frame?, instructions, .gotoWide target⟩) :
    frame? = frameOf? others target := by
  cases rewritten.partOf (by simp) there with
  | onward before branch =>
    rw [frameOf?]
    cases others[target]? <;> rfl

/-- Only a block itself and the part that goes on to an old target have frames. -/
theorem part_of_framed {list : List Nat}
    (rewritten : Widening.Rewritten .nop none others blocks far block list) (member : part ∈ list)
    (found : frameOf? blocks part = some frame) :
    part = block ∨ ∃ first, list = [block, first, first + 1] ∧ part = first + 1 := by
  obtain ⟨code, there, framed⟩ := frameOf?_eq_some.1 found
  cases rewritten.partOf member there with
  | kept | goto | jsr | conditional => exact .inl rfl
  | around => cases framed
  | onward => exact .inr ⟨_, rfl, rfl⟩

end

theorem frameOf?_live_of_framed (inferred : Inferred graph frames)
    (found : frames[block]? = some (some frame)) :
    frameOf? (live graph.blocks frames) block = some frame := by
  have inside := (Array.getElem?_eq_some_iff.1 found).1
  rw [inferred.size] at inside
  obtain ⟨code, before⟩ := exists_live inferred.size inside
  rw [frameOf?, before]
  cases lives_of_live before with
  | reached padding recorded found' =>
    rw [Option.some.inj (Option.some.inj (found.symm.trans found'))]
    rfl
  | empty _ missing => cases found.symm.trans missing
  | buried missing => cases found.symm.trans missing

/-! ## Frames just where they are due -/

/-- A part has the frame that is inferred for it or for where it only goes on to. -/
structure Supplies (graph : FlowGraph) (frames : Array (Option BlockFrame)) (laid : LaidCode)
    (part : Nat) (frame : BlockFrame) : Prop where
  inferred : ∃ block : Nat, frames[block]? = some (some frame)
  own : part < graph.blocks.size → frames[part]? = some (some frame)
  computed : frameOf? laid.blocks part = some frame

section

variable {context : CodeContext} {locals : Nat} {blocks : Array CodeBlock} {other : LaidCode}

variable (laidOut : Laid graph frames laid far parts) (inferred : Inferred graph frames)
  (isSupplied : graph.Supplied frames supplied)
  (rewritten : ∀ block < graph.blocks.size, Widening.Rewritten .nop none
    (alignSwitches supplied.blocks) blocks far block (parts block))
  (same : SameCode laid.blocks blocks)
  (given : Given context locals graph.blocks.size (List.range graph.blocks.size) blocks other.blocks)

include laidOut inferred isSupplied rewritten same given

omit laidOut same given in
/-- A block that was recorded has a frame before any is added if it needs one. -/
theorem own_framed (inside : block < graph.blocks.size) :
    frameOf? blocks block = some frame ↔
      graph.NeedsFrame block ∧ frames[block]? = some (some frame) := by
  rw [frameOf?_of_rewritten (rewritten block inside), frameOf?_alignSwitches,
    FlowGraph.Supplied.frameOf?_eq_some isSupplied inferred.size]

omit given in
/-- The part that goes on to an old target has the frame that is inferred for it. -/
theorem Laid.onward_framed (alive : AllLive graph frames) (inside : block < graph.blocks.size)
    {first : Nat} (split : parts block = [block, first, first + 1]) :
    ∃ (target : Nat) (frame : BlockFrame), frames[target]? = some (some frame) ∧
      frameOf? laid.blocks (first + 1) = some frame ∧ frameOf? blocks (first + 1) = some frame := by
  obtain ⟨code, condition, target, before, branch, -, -, splits⟩ :=
    laidOut.split inferred inside split
  have isTarget : target ∈ code.branch.targets := branch ▸ List.mem_singleton_self target
  obtain ⟨original, recorded, targets, -⟩ := alive.original before
  obtain ⟨frame, found⟩ := (lives_of_live before).target inferred isTarget
  have here := laidOut.rewritten block inside
  have there := rewritten block inside
  rw [split] at here there
  obtain ⟨frame?, isPart⟩ := same.exists_code splits.onward
  refine ⟨target, frame, found, ?_, ?_⟩
  · rw [frameOf?, splits.onward, Option.bind_some, frameOf?_onward here splits.onward,
      frameOf?_live_of_framed inferred found]
  · rw [frameOf?, isPart, Option.bind_some, frameOf?_onward there isPart, frameOf?_alignSwitches,
      FlowGraph.Supplied.frameOf?_eq_some isSupplied inferred.size]
    exact ⟨.jumped recorded (targets ▸ isTarget), found⟩

/-- A frame in widened code is the inferred one or was found by replaying. -/
theorem Laid.frame_cases (alive : AllLive graph frames) (isPlaced : part ∈ laid.order)
    (found : frameOf? other.blocks part = some frame) :
    Supplies graph frames laid part frame ∨
      ∃ before < graph.blocks.size, ∃ first, parts before = [before, first, first + 1] ∧
        part = before + 1 ∧ context.replay locals before = .ok frame := by
  rcases given.only part frame found with known | ⟨before, member, leads, replayed⟩
  · obtain ⟨block, inside, member⟩ := laidOut.exists_block isPlaced
    left
    rcases part_of_framed (rewritten block inside) member known with rfl | ⟨first, split, rfl⟩
    · rw [own_framed inferred isSupplied rewritten inside] at known
      refine ⟨⟨part, known.2⟩, fun _ => known.2, ?_⟩
      rw [frameOf?_of_rewritten (laidOut.rewritten part inside), frameOf?_live_of_framed inferred known.2]
    · obtain ⟨target, frame', found', computed, supplied⟩ :=
        laidOut.onward_framed inferred isSupplied rewritten same alive inside split
      obtain rfl := Option.some.inj (supplied.symm.trans known)
      obtain ⟨-, -, -, -, -, fresh, -⟩ := laidOut.split inferred inside split
      exact ⟨⟨target, found'⟩, fun below => by omega, computed⟩
  · have inside := List.mem_range.1 member
    obtain ⟨rfl, first, split⟩ :=
      (laidOut.widenedNext?_eq_some inferred inside).1 (same.symm.widenedNext? leads)
    exact .inr ⟨before, inside, first, split, rfl, replayed⟩

theorem Laid.due_of_framed (isPlaced : part ∈ laid.order)
    (found : frameOf? other.blocks part = some frame) :
    Due graph frames laid parts (laid.offset part) := by
  rcases given.only part frame found with known | ⟨before, member, leads, -⟩
  · obtain ⟨block, inside, member⟩ := laidOut.exists_block isPlaced
    rcases part_of_framed (rewritten block inside) member known with rfl | ⟨first, split, rfl⟩
    · rw [own_framed inferred isSupplied rewritten inside] at known
      exact .needed known.1 known.2 rfl
    · exact .onward inside split rfl
  · have inside := List.mem_range.1 member
    obtain ⟨rfl, first, split⟩ :=
      (laidOut.widenedNext?_eq_some inferred inside).1 (same.symm.widenedNext? leads)
    exact .around inside split rfl

theorem Laid.framed_of_due (alive : AllLive graph frames)
    (due : Due graph frames laid parts offset) :
    ∃ part ∈ laid.order, laid.offset part = offset ∧
      ∃ frame, frameOf? other.blocks part = some frame := by
  cases due with
  | @needed block frame needs found place =>
    have inside := (Array.getElem?_eq_some_iff.1 found).1
    rw [inferred.size] at inside
    refine ⟨block, laidOut.mem_self inside, place, frame, given.kept block frame ?_⟩
    exact (own_framed inferred isSupplied rewritten inside).2 ⟨needs, found⟩
  | @onward block first inside split place =>
    have isPlaced : first + 1 ∈ laid.order := laidOut.mem_order inside (by simp [split])
    obtain ⟨-, frame, -, -, supplied⟩ :=
      laidOut.onward_framed inferred isSupplied rewritten same alive inside split
    exact ⟨first + 1, isPlaced, place, frame, given.kept _ frame supplied⟩
  | @around block first inside split place =>
    obtain ⟨code, condition, target, before, branch, -, below, splits⟩ :=
      laidOut.split inferred inside split
    refine ⟨block + 1, laidOut.mem_self below, place,
      given.given block (List.mem_range.2 inside) _ ?_ ?_⟩
    · exact same.widenedNext? ((laidOut.widenedNext?_eq_some inferred inside).2 ⟨rfl, first, split⟩)
    · rw [← same.size_eq]
      exact laidOut.inside (laidOut.mem_self below)

/-- Frames stand just where they are due. -/
theorem Laid.framedAt_iff_due (alive : AllLive graph frames) :
    other.FramedAt (Layout.starts laid.blocks laid.order) offset ↔
      Due graph frames laid parts offset := by
  constructor
  · rintro ⟨part, frame, starts, found⟩
    obtain ⟨isPlaced, rfl⟩ := laidOut.mem_starts.1 starts
    exact laidOut.due_of_framed inferred isSupplied rewritten same given isPlaced found
  · intro due
    obtain ⟨part, isPlaced, place, frame, found⟩ :=
      laidOut.framed_of_due inferred isSupplied rewritten same given alive due
    exact ⟨part, frame, laidOut.mem_starts.2 ⟨isPlaced, place⟩, found⟩

end

end Assembly
end ClassFile
