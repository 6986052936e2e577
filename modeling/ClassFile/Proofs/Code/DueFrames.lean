import ClassFile.Proofs.Code.FrameNeeds
import ClassFile.Proofs.Code.WidenedFrames

namespace ClassFile
namespace Assembly

/-!
# Where frames are due in live code

Where control gets to all code with bytes, the places that need a frame in laid out code
are told by the blocks as they were recorded and by the branches that are split: a block
with a frame needs it, a split branch goes on to its old target by a block of its own,
and the block that it used to fall into follows a jump.
-/

/-- Control gets to every block with bytes. -/
def AllLive (graph : FlowGraph) (frames : Array (Option BlockFrame)) : Prop :=
  ∀ block, frames[block]? = some none → Layout.blockWidth (live graph.blocks frames) block = 0

/-- A frame is due at an offset. -/
inductive Due (graph : FlowGraph) (frames : Array (Option BlockFrame)) (laid : LaidCode)
    (parts : Nat → List Nat) (offset : Nat) : Prop
  | needed {block : Nat} {frame : BlockFrame} (needs : graph.NeedsFrame block)
      (found : frames[block]? = some (some frame)) (place : laid.offset block = offset)
  /-- Where a split branch goes on to its old target. -/
  | onward {block first : Nat} (inside : block < graph.blocks.size)
      (split : parts block = [block, first, first + 1]) (place : laid.offset (first + 1) = offset)
  /-- What a split branch used to fall into. -/
  | around {block first : Nat} (inside : block < graph.blocks.size)
      (split : parts block = [block, first, first + 1]) (place : laid.offset (block + 1) = offset)

variable {graph : FlowGraph} {frames : Array (Option BlockFrame)} {laid : LaidCode}
  {far : Finset Nat} {parts : Nat → List Nat} {block part target next offset : Nat}
  {code : CodeBlock}

/-! ## Blocks as they were recorded -/

/-- A block that control reaches, or one without bytes, branches as it was recorded. -/
theorem Lives.original (lives : Lives graph frames block code)
    (empty : frames[block]? = some none → code.width = 0) :
    ∃ original, graph.blocks[block]? = some original ∧
      original.branch.targets = code.branch.targets ∧ original.branch.next? = code.branch.next? := by
  cases lives with
  | @reached original _ padding recorded found =>
    exact ⟨original, recorded, (targets_withPadding _ _).symm, (next?_withPadding _ _).symm⟩
  | @empty original _ recorded missing branch none =>
    exact ⟨original, recorded, by rw [branch], by rw [branch]⟩
  | buried missing some_ =>
    rw [← width_bury some_, empty missing] at some_
    exact absurd some_ (Nat.lt_irrefl 0)

theorem AllLive.width_eq_zero (alive : AllLive graph frames)
    (before : (live graph.blocks frames)[block]? = some code)
    (missing : frames[block]? = some none) : code.width = 0 := by
  have empty := alive block missing
  rwa [Layout.blockWidth, before] at empty

theorem AllLive.original (alive : AllLive graph frames)
    (before : (live graph.blocks frames)[block]? = some code) :
    ∃ original, graph.blocks[block]? = some original ∧
      original.branch.targets = code.branch.targets ∧ original.branch.next? = code.branch.next? :=
  (lives_of_live before).original (alive.width_eq_zero before)

theorem Inferred.framed_or_missing (inferred : Inferred graph frames)
    (inside : block < graph.blocks.size) :
    (∃ frame, frames[block]? = some (some frame)) ∨ frames[block]? = some none := by
  rw [← inferred.size] at inside
  rw [Array.getElem?_eq_getElem inside]
  cases frames[block] with
  | some frame => exact .inl ⟨frame, rfl⟩
  | none => exact .inr rfl

/-- Control reaches blocks with bytes. -/
theorem AllLive.framed (alive : AllLive graph frames) (inferred : Inferred graph frames)
    (before : (live graph.blocks frames)[block]? = some code) (some_ : 0 < code.width) :
    ∃ frame, frames[block]? = some (some frame) := by
  have inside := (Array.getElem?_eq_some_iff.1 before).1
  rw [size_live inferred.size] at inside
  exact (inferred.framed_or_missing inside).resolve_right fun missing =>
    Nat.ne_of_gt some_ (alive.width_eq_zero before missing)

section

variable (laidOut : Laid graph frames laid far parts) (inferred : Inferred graph frames)

include laidOut inferred

/-! ## Split branches -/

/-- A part jumps to what its block jumps to, unless its block is split. -/
theorem Laid.target_cases (inside : block < graph.blocks.size) (member : part ∈ parts block)
    (there : laid.blocks[part]? = some code) (isTarget : target ∈ code.branch.targets) :
    (∃ original, (live graph.blocks frames)[block]? = some original ∧
        target ∈ original.branch.targets) ∨
      ∃ first, parts block = [block, first, first + 1] ∧
        (target = first + 1 ∨ target = block + 1) := by
  have here := laidOut.partOf inside member there
  generalize parts block = list at here
  cases here with
  | kept before => exact .inl ⟨_, before, isTarget⟩
  | goto before branch | jsr before branch => exact .inl ⟨_, before, branch ▸ isTarget⟩
  | conditional => exact .inr ⟨_, rfl, .inl (List.mem_singleton.1 isTarget)⟩
  | around before branch =>
    obtain rfl := List.mem_singleton.1 isTarget
    exact .inr ⟨_, rfl, .inr ((lives_of_live before).next inferred (by rw [branch]; rfl)).1⟩
  | onward before branch =>
    obtain rfl := List.mem_singleton.1 isTarget
    exact .inl ⟨_, before, branch ▸ List.mem_singleton_self _⟩

/-- The parts of a split block. -/
theorem Laid.split (inside : block < graph.blocks.size) {first : Nat}
    (split : parts block = [block, first, first + 1]) :
    ∃ (before : CodeBlock) (condition : Condition) (target : Nat),
      (live graph.blocks frames)[block]? = some before ∧
        before.branch = .conditional condition target (block + 1) ∧ graph.blocks.size ≤ first ∧
          block + 1 < graph.blocks.size ∧
          Widening.SplitAt none (live graph.blocks frames) laid.blocks block first before condition
            target (block + 1) := by
  have here := laidOut.rewritten block inside
  generalize parts block = list at here split
  cases here with
  | kept | goto | jsr => simp at split
  | @split before condition target next first' there branch fresh splits widened =>
    obtain ⟨rfl, -⟩ := List.cons.inj (List.cons.inj split).2
    obtain ⟨rfl, below⟩ := (lives_of_live there).next inferred (by rw [branch]; rfl)
    rw [size_live inferred.size] at fresh
    exact ⟨before, condition, target, there, branch, fresh, below, splits⟩

/-- Just the blocks that are split used to fall into another one. -/
theorem Laid.widenedNext?_eq_some (inside : block < graph.blocks.size) :
    widenedNext? graph.blocks.size laid.blocks block = some next ↔
      next = block + 1 ∧ ∃ first, parts block = [block, first, first + 1] := by
  rw [Assembly.widenedNext?_eq_some]
  constructor
  · rintro ⟨code, added, around, there, falls, beyond, there', branch⟩
    have here := laidOut.rewritten block inside
    generalize parts block = list at here ⊢
    cases here with
    | kept before after near =>
      obtain rfl := Option.some.inj (after.symm.trans there)
      have := ((lives_of_live before).next inferred falls).2
      omega
    | goto before branch' after widened =>
      obtain rfl := Option.some.inj (after.symm.trans there)
      cases falls
    | jsr before branch' after widened =>
      obtain rfl := Option.some.inj (after.symm.trans there)
      obtain rfl := Option.some.inj falls
      have := ((lives_of_live before).next inferred (by rw [branch']; rfl)).2
      omega
    | @split _ _ _ next' first before branch' fresh split widened =>
      obtain rfl := Option.some.inj (split.after.symm.trans there)
      obtain rfl := Option.some.inj falls
      obtain rfl := Option.some.inj (split.around.symm.trans there')
      cases branch
      exact ⟨((lives_of_live before).next inferred (by rw [branch']; rfl)).1, first, rfl⟩
  · rintro ⟨rfl, first, split⟩
    obtain ⟨before, condition, target, -, -, fresh, -, splits⟩ := laidOut.split inferred inside split
    exact ⟨_, first, _, splits.after, rfl, fresh, splits.around, rfl⟩

/-! ## Every due place -/

theorem Laid.needsAt_of_jump (short : offset < Layout.length laid.blocks laid.order)
    {source target : Nat} {code : CodeBlock} (there : laid.blocks[source]? = some code)
    (isTarget : target ∈ code.branch.targets) (place : laid.offset target = offset) :
    laid.NeedsAt (laid.arrivals graph.handlers) (Layout.starts laid.blocks laid.order) offset :=
  (laidOut.needsAt_iff inferred short).2
    (.inl (laidOut.jumpsTo_iff.2 ⟨source, code, there, target, isTarget, place⟩))

variable (alive : AllLive graph frames)

include alive

/-- Control reaches blocks that have bytes in the end. -/
theorem Laid.framed_of_bytes (inside : block < graph.blocks.size)
    (some_ : 0 < Layout.blockWidth laid.blocks block) :
    ∃ frame, frames[block]? = some (some frame) := by
  refine (inferred.framed_or_missing inside).resolve_right fun missing => ?_
  obtain ⟨code, before⟩ := exists_live inferred.size inside
  have empty := alive.width_eq_zero before missing
  rw [Layout.blockWidth, (laidOut.kept_of_empty inside before empty).2] at some_
  exact Nat.ne_of_gt some_ empty

omit alive inferred in
theorem Laid.lt_of_stop_lt (within : block ≤ graph.blocks.size)
    (short : stop laid parts block < Layout.length laid.blocks laid.order) :
    block < graph.blocks.size := by
  refine Nat.lt_of_le_of_ne within ?_
  rintro rfl
  rw [laidOut.stop_size] at short
  exact Nat.lt_irrefl _ short

/-- A frame is due where a block starts that needs one or that control never gets to: one
without bytes leaves the need to the next. -/
theorem Laid.due_of_needsFrame {gap : Nat} (remaining : block + gap = graph.blocks.size)
    (needs : graph.NeedsFrame block ∨ frames[block]? = some none)
    (short : stop laid parts block < Layout.length laid.blocks laid.order) :
    Due graph frames laid parts (stop laid parts block) := by
  have inside := laidOut.lt_of_stop_lt (by omega) short
  induction gap generalizing block with
  | zero => omega
  | succ gap ih =>
    rcases inferred.framed_or_missing inside with ⟨frame, found⟩ | missing
    · refine .needed (needs.resolve_right fun missing => ?_) found (laidOut.offset_eq_stop inside)
      cases found.symm.trans missing
    · obtain ⟨code, before⟩ := exists_live inferred.size inside
      have same := laidOut.offset_succ_of_empty inside before (alive.width_eq_zero before missing)
      rw [laidOut.offset_eq_stop inside] at same
      rw [← same] at short ⊢
      have inside := laidOut.lt_of_stop_lt (Nat.succ_le_of_lt inside) short
      refine ih (by omega) ?_ short inside
      -- Control that gets to the next block does not fall in.
      rw [or_iff_not_imp_left]
      intro unneeded
      refine (inferred.framed_or_missing inside).resolve_left fun framed => ?_
      obtain ⟨-, -, -, _, reached⟩ := fallen_of_not_needsFrame inferred framed unneeded
      cases missing.symm.trans reached

theorem Laid.due_of_entry (inside : block < graph.blocks.size) (needs : graph.NeedsFrame block)
    (short : laid.offset block < Layout.length laid.blocks laid.order) :
    Due graph frames laid parts (laid.offset block) := by
  obtain ⟨gap, size⟩ := Nat.exists_eq_add_of_le inside.le
  rw [laidOut.offset_eq_stop inside] at short ⊢
  exact laidOut.due_of_needsFrame inferred alive size.symm (.inl needs) short

/-- A frame is due where bytes end that control does not fall out of. -/
theorem Laid.due_of_leavesAt (short : offset < Layout.length laid.blocks laid.order)
    (leaves : laid.LeavesAt (Layout.starts laid.blocks laid.order) offset) :
    Due graph frames laid parts offset := by
  obtain ⟨part, _, code, starts, there, some_, leaves, rfl⟩ := leaves
  obtain ⟨isPlaced, rfl⟩ := laidOut.mem_starts.1 starts
  obtain ⟨block, inside, member⟩ := laidOut.exists_block isPlaced
  have place := laidOut.offset_succ inside
  have after : ∀ original, (live graph.blocks frames)[block]? = some original →
      original.branch.next? = none →
      stop laid parts (block + 1) < Layout.length laid.blocks laid.order →
        Due graph frames laid parts (stop laid parts (block + 1)) := by
    intro original before leaves short
    obtain ⟨recorded, isRecorded, -, sameNext⟩ := alive.original before
    obtain ⟨gap, size⟩ := Nat.exists_eq_add_of_le (Nat.succ_le_of_lt inside)
    exact laidOut.due_of_needsFrame inferred alive size.symm
      (.inl (.left isRecorded (sameNext.trans leaves) rfl)) short
  have stands := laidOut.starts_parts inside
  have widthOf : Layout.blockWidth laid.blocks part = code.width := by
    rw [Layout.blockWidth, there]
  have here := laidOut.partOf inside member there
  generalize isParts : parts block = list at here stands place
  cases here with
  | kept before =>
    rw [List.map_singleton, List.sum_singleton, widthOf] at place
    rw [← place] at short ⊢
    exact after _ before leaves short
  | goto before branch =>
    rw [List.map_singleton, List.sum_singleton, widthOf] at place
    rw [← place] at short ⊢
    exact after _ before (by rw [branch]; rfl) short
  | jsr | conditional => cases leaves
  | around before branch =>
    simp only [Layout.startsFrom, List.forall_mem_cons] at stands
    refine .onward inside isParts ?_
    rw [(laidOut.mem_starts.1 stands.2.2.1).2, (laidOut.mem_starts.1 stands.2.1).2, widthOf]
  | onward before branch =>
    obtain ⟨rfl, below⟩ := (lives_of_live before).next inferred (by rw [branch]; rfl)
    simp only [Layout.startsFrom, List.forall_mem_cons] at stands
    simp only [List.map_cons, List.map_nil, List.sum_cons, List.sum_nil] at place
    refine .around inside isParts ?_
    rw [laidOut.offset_eq_stop below, place, (laidOut.mem_starts.1 stands.2.2.1).2, widthOf,
      laidOut.offset_eq_stop inside]
    omega

/-- A frame is due where one is needed. -/
theorem Laid.due_of_needsAt (short : offset < Layout.length laid.blocks laid.order)
    (needs : laid.NeedsAt (laid.arrivals graph.handlers)
      (Layout.starts laid.blocks laid.order) offset) : Due graph frames laid parts offset := by
  rcases needs with ⟨part, starts, arrives⟩ | leaves
  · obtain ⟨isPlaced, rfl⟩ := laidOut.mem_starts.1 starts
    rw [LaidCode.getD_arrivals (laidOut.inside isPlaced)] at arrives
    rcases arrives with ⟨handler, member, rfl⟩ | ⟨source, code, there, isTarget | ⟨dead, rfl⟩⟩
    · exact laidOut.due_of_entry inferred alive (inferred.closed.handlers handler member)
        (.caught member rfl) short
    · obtain ⟨block, inside, member⟩ :=
        laidOut.exists_block (laidOut.covers source (Array.getElem?_eq_some_iff.1 there).1)
      rcases laidOut.target_cases inferred inside member there isTarget with
        ⟨original, before, isOld⟩ | ⟨first, split, rfl | rfl⟩
      · obtain ⟨recorded, isRecorded, targets, -⟩ := alive.original before
        obtain ⟨frame, found⟩ := (lives_of_live before).target inferred isOld
        exact .needed (.jumped isRecorded (targets ▸ isOld)) found rfl
      · exact .onward inside split rfl
      · exact .around inside split rfl
    · obtain ⟨missing, some_⟩ := (laidOut.dead source).1 dead
      exact absurd (alive source missing) (Nat.ne_of_gt some_)
  · exact laidOut.due_of_leavesAt inferred alive short leaves

/-- A block that needs a frame before widening needs it still. -/
theorem Laid.needsAt_of_needsFrame {block : Nat} {frame : BlockFrame}
    (needs : graph.NeedsFrame block) (found : frames[block]? = some (some frame))
    (short : laid.offset block < Layout.length laid.blocks laid.order) :
    laid.NeedsAt (laid.arrivals graph.handlers) (Layout.starts laid.blocks laid.order)
      (laid.offset block) := by
  have inside := (Array.getElem?_eq_some_iff.1 found).1
  rw [inferred.size] at inside
  cases needs with
  | @jumped source original recorded isTarget =>
    obtain ⟨code, before⟩ := exists_live inferred.size (Array.getElem?_eq_some_iff.1 recorded).1
    obtain ⟨_, recorded', targets, -⟩ := alive.original before
    obtain rfl := Option.some.inj (recorded.symm.trans recorded')
    have some_ : 0 < code.width := by
      refine Nat.pos_of_ne_zero fun empty => ?_
      rw [targets, silent_of_width (Nat.add_eq_zero_iff.1 empty).2] at isTarget
      cases isTarget
    obtain ⟨frame, reached⟩ := alive.framed inferred before some_
    obtain ⟨_, _, there, isTarget'⟩ := laidOut.exists_jump inferred recorded reached isTarget
    exact laidOut.needsAt_of_jump inferred short there isTarget' rfl
  | caught member isEntry =>
    exact (laidOut.needsAt_iff inferred short).2 (.inr (.inl ⟨_, member, isEntry ▸ rfl⟩))
  | @left before original recorded leaves isNext =>
    obtain ⟨gap, size⟩ := Nat.exists_eq_add_of_le inside.le
    rw [laidOut.offset_eq_stop inside] at short ⊢
    refine laidOut.needsAt_of_unentered inferred size.symm (by omega) ?_ short
    intro source code frame' reached there falls
    have := inferred.next source code block there falls
    obtain rfl : source = before := by omega
    obtain rfl := Option.some.inj (there.symm.trans recorded)
    cases leaves.symm.trans falls

/-- Frames are needed just where they are due. -/
theorem Laid.needsAt_iff_due (short : offset < Layout.length laid.blocks laid.order) :
    laid.NeedsAt (laid.arrivals graph.handlers) (Layout.starts laid.blocks laid.order) offset ↔
      Due graph frames laid parts offset := by
  refine ⟨laidOut.due_of_needsAt inferred alive short, ?_⟩
  rintro (⟨needs, found, rfl⟩ | ⟨inside, split, place⟩ | ⟨inside, split, place⟩)
  · exact laidOut.needsAt_of_needsFrame inferred alive needs found short
  · obtain ⟨_, _, _, -, -, -, -, splits⟩ := laidOut.split inferred inside split
    exact laidOut.needsAt_of_jump inferred short splits.after (List.mem_singleton_self _) place
  · obtain ⟨_, _, _, -, -, -, -, splits⟩ := laidOut.split inferred inside split
    exact laidOut.needsAt_of_jump inferred short splits.around (List.mem_singleton_self _) place

end

end Assembly
end ClassFile
