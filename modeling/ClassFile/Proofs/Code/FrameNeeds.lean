import ClassFile.Proofs.Code.Standing

namespace ClassFile
namespace Assembly

/-!
# Where frames are needed

A frame is needed where control arrives at laid out code and where it does not fall
out of it.  The instructions of the code tell all of these places: they are what
branches jump to, the starts of handlers and the ends of instructions that never fall
through.  Code that is never reached comes after such an instruction too, unless a
stop without an instruction was recorded before it.
-/

open Operation (JumpsTo StopsAt)

variable {graph : FlowGraph} {frames : Array (Option BlockFrame)} {laid : LaidCode}
  {far : Finset Nat} {parts : Nat → List Nat} {block part : Nat} {code : CodeBlock}

/-- A stop without an instruction was recorded before other code, which starts at an
offset. -/
def BreaksAt (graph : FlowGraph) (laid : LaidCode) (offset : Nat) : Prop :=
  ∃ block code, graph.blocks[block]? = some code ∧ code.branch = .stop ∧
    block + 1 < graph.blocks.size ∧ laid.offset (block + 1) = offset

theorem placed_neverFallsThrough (branch : Branch Nat Nat Nat) :
    (placed laid branch).neverFallsThrough = branch.neverFallsThrough := by
  cases branch <;> rfl

theorem width_pos_of_neverFallsThrough {branch : Branch Nat Nat Nat}
    (stops : branch.neverFallsThrough = true) : 0 < branch.width := by
  cases branch with
  | goto | gotoWide | returns | throws => exact Nat.succ_pos _
  | tableSwitch | lookupSwitch =>
    rw [Branch.width]
    omega
  | _ => cases stops

theorem placed_width (branch : Branch Nat Nat Nat) : (placed laid branch).width = branch.width := by
  cases branch <;> simp [placed, Branch.map, Branch.width]

theorem placed_targets (branch : Branch Nat Nat Nat) :
    (placed laid branch).targets = branch.targets.map laid.offset := by
  cases branch <;> simp [placed, Branch.map, Branch.targets]

section

variable (inferred : Inferred graph frames)

include inferred

/-! ## Where control leaves -/

/-- Control does not fall out of a block after an instruction that never falls through
or a recorded stop. -/
theorem Lives.leaves (lives : Lives graph frames block code) (leaves : code.branch.next? = none) :
    code.branch.neverFallsThrough = true ∨
      ∃ original, graph.blocks[block]? = some original ∧ original.branch = .stop := by
  cases lives with
  | @reached original frame padding recorded found =>
    rw [next?_withPadding] at leaves
    have noReturn := inferred.noReturn block original frame
    cases isBranch : original.branch with
    | ret slot => exact absurd isBranch (noReturn slot found recorded)
    | stop => exact .inr ⟨original, recorded, isBranch⟩
    | conditional | jsr | jsrWide | fallThrough =>
      rw [isBranch] at leaves
      cases leaves
    | _ => exact .inl rfl
  | @empty original code recorded missing branch none =>
    rw [Block.width, Nat.add_eq_zero_iff] at none
    have silent := none.2
    cases isBranch : code.branch with
    | stop => exact .inr ⟨original, recorded, branch.symm.trans isBranch⟩
    | fallThrough =>
      rw [isBranch] at leaves
      cases leaves
    | tableSwitch | lookupSwitch => exact .inl rfl
    | ret slot =>
      rw [isBranch, Branch.width] at silent
      split at silent <;> cases silent
    | _ =>
      rw [isBranch] at silent
      cases silent
  | buried => exact .inl rfl

variable (laidOut : Laid graph frames laid far parts)

include laidOut

theorem Laid.leaves (inside : block < graph.blocks.size) (member : part ∈ parts block)
    (there : laid.blocks[part]? = some code) (leaves : code.branch.next? = none) :
    code.branch.neverFallsThrough = true ∨ parts block = [block] ∧ part = block ∧
      ∃ original, graph.blocks[block]? = some original ∧ original.branch = .stop := by
  have here := laidOut.partOf inside member there
  generalize parts block = list at here
  cases here with
  | kept before =>
    exact ((lives_of_live before).leaves inferred leaves).imp_right fun stops => ⟨rfl, rfl, stops⟩
  | goto | around | onward => exact .inl rfl
  | jsr | conditional => cases leaves

/-- What control leaves with bytes stops there, or the code breaks off. -/
theorem Laid.stopsAt_or_breaksAt {offset : Nat}
    (short : offset < Layout.length laid.blocks laid.order)
    (leaves : laid.LeavesAt (Layout.starts laid.blocks laid.order) offset) :
    StopsAt laid.operations offset ∨ BreaksAt graph laid offset := by
  obtain ⟨part, _, code, member, there, -, leaves, rfl⟩ := leaves
  obtain ⟨isPlaced, rfl⟩ := laidOut.mem_starts.1 member
  obtain ⟨block, inside, member⟩ := laidOut.exists_block isPlaced
  rcases laidOut.leaves inferred inside member there leaves with
    stops | ⟨alone, rfl, original, recorded, stops⟩
  · left
    refine ⟨laid.offset part + code.bodyWidth, placed laid code.branch, ?_, ?_, ?_⟩
    · refine LaidCode.mem_operations.2 ⟨part, isPlaced, code, there, fun silent => ?_, rfl, rfl⟩
      exact Nat.ne_of_gt (width_pos_of_neverFallsThrough stops) (width_eq_zero silent)
    · rw [placed_neverFallsThrough, stops]
    · rw [placed_width, Nat.add_assoc, Block.width]
  · right
    have ends := laidOut.offset_succ inside
    rw [alone, List.map_singleton, List.sum_singleton, Layout.blockWidth, there] at ends
    have inner : part + 1 < graph.blocks.size := by
      refine Nat.lt_of_le_of_ne inside fun last => ?_
      rw [last, laidOut.stop_size] at ends
      dsimp only at ends
      omega
    exact ⟨part, original, recorded, stops, inner, (laidOut.offset_eq_stop inner).trans ends⟩

/-- A block without a frame starts where control leaves, or the code breaks off
there. -/
theorem Laid.left_before (inside : block < graph.blocks.size)
    (missing : frames[block]? = some none) :
    laid.LeavesAt (Layout.starts laid.blocks laid.order) (laid.offset block) ∨
      BreaksAt graph laid (laid.offset block) := by
  induction block with
  | zero =>
    obtain ⟨frame, found⟩ := (inferred.reachable 0).2 .refl
    cases missing.symm.trans found
  | succ block ih =>
    have earlier := Nat.lt_of_succ_lt inside
    have place := laidOut.offset_eq_stop inside
    obtain ⟨code, before⟩ := exists_live inferred.size earlier
    have lives := lives_of_live before
    cases falls : code.branch.next? with
    | some next =>
      obtain ⟨rfl, -⟩ := lives.next inferred falls
      -- Control gets to the next block unless neither has a frame.
      cases lives with
      | reached padding recorded found =>
        rw [next?_withPadding] at falls
        obtain ⟨frame, framed⟩ := inferred.edge recorded ⟨_, found⟩
          (List.mem_append_right _ (Option.mem_toList.2 falls))
        cases missing.symm.trans framed
      | empty recorded missing branch none =>
        rw [place, laidOut.offset_succ_of_empty earlier before none]
        exact ih earlier missing
      | buried => cases falls
    | none =>
      rcases Nat.eq_zero_or_pos code.width with empty | some_
      · rcases lives.leaves inferred falls with stops | ⟨original, recorded, stops⟩
        · exact absurd (Nat.add_eq_zero_iff.1 empty).2
            (Nat.ne_of_gt (width_pos_of_neverFallsThrough stops))
        · exact .inr ⟨block, original, recorded, stops, inside, rfl⟩
      · left
        rw [place]
        exact laidOut.leavesAt_succ earlier before some_ falls

/-- Control that goes to a block by a branch still does so when blocks are widened. -/
theorem Laid.exists_jump {original : CodeBlock} (recorded : graph.blocks[block]? = some original)
    {frame : BlockFrame} (found : frames[block]? = some (some frame)) {target : Nat}
    (isTarget : target ∈ original.branch.targets) :
    ∃ (source : Nat) (code : CodeBlock), laid.blocks[source]? = some code ∧
      target ∈ code.branch.targets := by
  have inside := (Array.getElem?_eq_some_iff.1 recorded).1
  obtain ⟨code, before⟩ := exists_live inferred.size inside
  have same : code.branch.targets = original.branch.targets := by
    cases lives_of_live before with
    | reached padding recorded' =>
      obtain rfl := Option.some.inj (recorded'.symm.trans recorded)
      rw [targets_withPadding]
    | empty _ missing => cases found.symm.trans missing
    | buried missing => cases found.symm.trans missing
  obtain ⟨index, taken⟩ := List.mem_iff_getElem?.1 (same ▸ isTarget)
  have here : Widening.Rewritten .nop none (live graph.blocks frames)
      (Widening.Result.mk laid.blocks laid.order 0).blocks far block (parts block) :=
    laidOut.rewritten block inside
  obtain ⟨now, after, -, exits⟩ :=
    here.carried (fun part member => laidOut.mem_order inside member) before
  have exit := exits (.taken index)
  rw [Branch.exit?, Branch.exit?, taken] at exit
  cases leads : now.branch.targets[index]? with
  | none =>
    rw [leads] at exit
    cases exit
  | some middle =>
    rw [leads] at exit
    cases exit with
    | some passes =>
      cases passes with
      | here => exact ⟨block, now, after, List.mem_of_getElem? leads⟩
      | through fresh isPlaced there onward =>
        refine ⟨middle, _, there, ?_⟩
        rcases onward with rfl | rfl <;> exact List.mem_singleton_self target

/-- No block with a frame falls into a block. -/
def Unentered (graph : FlowGraph) (frames : Array (Option BlockFrame)) (block : Nat) : Prop :=
  ∀ (before : Nat) (code : CodeBlock) frame, frames[before]? = some (some frame) →
    graph.blocks[before]? = some code → code.branch.next? ≠ some block

/-- A block with a frame that is not fallen into is a handler or jumped to. -/
theorem Laid.arrives_of_unentered {frame : BlockFrame} (found : frames[block]? = some (some frame))
    (later : block ≠ 0) (unentered : Unentered graph frames block) :
    (laid.arrivals graph.handlers).getD block false = true := by
  have inside := (Array.getElem?_eq_some_iff.1 found).1
  rw [inferred.size] at inside
  rw [LaidCode.getD_arrivals (laidOut.inside (laidOut.mem_self inside))]
  cases (inferred.reachable block).1 ⟨frame, found⟩ with
  | refl => exact absurd rfl later
  | @tail source _ reached edge =>
    rcases edge with successor | ⟨handler, covers, rfl⟩
    · obtain ⟨frame, found⟩ := (inferred.reachable source).2 reached
      rw [FlowGraph.successors] at successor
      split at successor
      · next code recorded =>
        rcases List.mem_append.1 successor with isTarget | falls
        · obtain ⟨source, code, there, isTarget⟩ :=
            laidOut.exists_jump inferred recorded found isTarget
          exact .inr ⟨source, code, there, .inl isTarget⟩
        · exact absurd (Option.mem_toList.1 falls) (unentered source code frame found recorded)
      · cases successor
    · exact .inl ⟨handler, List.mem_of_mem_filter covers, rfl⟩

/-- A frame is needed where a block starts that is not fallen into.  One without bytes
leaves the need to the next block, which it does not fall into either. -/
theorem Laid.needsAt_of_unentered {gap : Nat} (remaining : block + gap = graph.blocks.size)
    (later : block ≠ 0) (unentered : Unentered graph frames block)
    (short : stop laid parts block < Layout.length laid.blocks laid.order) :
    laid.NeedsAt (laid.arrivals graph.handlers) (Layout.starts laid.blocks laid.order)
      (stop laid parts block) := by
  induction gap generalizing block with
  | zero =>
    obtain rfl : block = graph.blocks.size := remaining
    rw [laidOut.stop_size] at short
    exact absurd short (Nat.lt_irrefl _)
  | succ gap ih =>
    have inside : block < graph.blocks.size := by omega
    have isPlaced := laidOut.mem_self inside
    have starts := laidOut.mem_starts.2 ⟨isPlaced, laidOut.offset_eq_stop inside⟩
    obtain ⟨code, before⟩ := exists_live inferred.size inside
    cases lives_of_live before with
    | reached padding recorded found =>
      exact .inl ⟨block, starts, laidOut.arrives_of_unentered inferred found later unentered⟩
    | empty recorded missing branch none =>
      have same := laidOut.offset_succ_of_empty inside before none
      rw [laidOut.offset_eq_stop inside] at same
      rw [← same] at short ⊢
      refine ih (by omega) (Nat.succ_ne_zero block) (fun source code frame found recorded falls => ?_)
        short
      cases inferred.next source code _ recorded falls
      cases missing.symm.trans found
    | @buried code missing some_ =>
      have dead := (laidOut.dead block).2
        ⟨missing, by rw [Layout.blockWidth, before]; exact some_.trans_eq (width_bury some_).symm⟩
      have there := Array.getElem?_eq_getElem (laidOut.inside isPlaced)
      exact .inl ⟨block, starts, (LaidCode.getD_arrivals (laidOut.inside isPlaced)).2
        (.inr ⟨block, _, there, .inr ⟨dead, rfl⟩⟩)⟩

/-! ## Every need explained -/

omit inferred in
/-- The jumps in the code are those of the blocks. -/
theorem Laid.jumpsTo_iff {offset : Nat} : JumpsTo laid.operations offset ↔
    ∃ (source : Nat) (code : CodeBlock), laid.blocks[source]? = some code ∧
      ∃ target ∈ code.branch.targets, laid.offset target = offset := by
  constructor
  · rintro ⟨start, branch, member, isTarget⟩
    obtain ⟨source, -, code, there, -, -, rfl⟩ := LaidCode.mem_operations.1 member
    rw [placed_targets, List.mem_map] at isTarget
    exact ⟨source, code, there, isTarget⟩
  · rintro ⟨source, code, there, target, isTarget, rfl⟩
    have isPlaced := laidOut.covers source (Array.getElem?_eq_some_iff.1 there).1
    refine ⟨_, _, LaidCode.mem_operations.2 ⟨source, isPlaced, code, there, fun silent => ?_, rfl, rfl⟩,
      ?_⟩
    · rw [silent_of_width (width_eq_zero silent)] at isTarget
      cases isTarget
    · rw [placed_targets]
      exact List.mem_map_of_mem isTarget

omit inferred in
theorem Laid.leavesAt_of_stopsAt {offset : Nat} (stops : StopsAt laid.operations offset) :
    laid.LeavesAt (Layout.starts laid.blocks laid.order) offset := by
  obtain ⟨start, branch, member, stops, rfl⟩ := stops
  obtain ⟨block, isPlaced, code, there, -, rfl, rfl⟩ := LaidCode.mem_operations.1 member
  rw [placed_neverFallsThrough] at stops
  rw [placed_width, Nat.add_assoc]
  refine ⟨block, _, code, laidOut.mem_starts.2 ⟨isPlaced, rfl⟩, there,
    Nat.add_pos_right _ (width_pos_of_neverFallsThrough stops), ?_, rfl⟩
  cases isBranch : code.branch with
  | conditional | jsr | jsrWide | fallThrough =>
    rw [isBranch] at stops
    cases stops
  | _ => rfl

/-- What comes after a recorded stop is not fallen into. -/
theorem Laid.needsAt_of_breaksAt {offset : Nat}
    (short : offset < Layout.length laid.blocks laid.order) (breaks : BreaksAt graph laid offset) :
    laid.NeedsAt (laid.arrivals graph.handlers) (Layout.starts laid.blocks laid.order) offset := by
  obtain ⟨block, code, recorded, stops, inner, rfl⟩ := breaks
  obtain ⟨gap, size⟩ := Nat.exists_eq_add_of_le inner.le
  rw [laidOut.offset_eq_stop inner] at short ⊢
  refine laidOut.needsAt_of_unentered inferred size.symm (Nat.succ_ne_zero block) ?_ short
  intro before other frame found there falls
  cases inferred.next before other _ there falls
  obtain rfl := Option.some.inj (there.symm.trans recorded)
  rw [stops] at falls
  cases falls

/-- A frame is needed before the end of the code just where it is jumped to, where
handlers start and after what never falls through. -/
theorem Laid.needsAt_iff {offset : Nat} (short : offset < Layout.length laid.blocks laid.order) :
    laid.NeedsAt (laid.arrivals graph.handlers) (Layout.starts laid.blocks laid.order) offset ↔
      JumpsTo laid.operations offset ∨
        (∃ handler ∈ graph.handlers, laid.offset handler.entry = offset) ∨
          StopsAt laid.operations offset ∨ BreaksAt graph laid offset := by
  constructor
  · rintro (⟨part, starts, arrives⟩ | leaves)
    · obtain ⟨isPlaced, rfl⟩ := laidOut.mem_starts.1 starts
      rw [LaidCode.getD_arrivals (laidOut.inside isPlaced)] at arrives
      rcases arrives with ⟨handler, member, rfl⟩ | ⟨source, code, there, isTarget | ⟨dead, rfl⟩⟩
      · exact .inr (.inl ⟨handler, member, rfl⟩)
      · exact .inl (laidOut.jumpsTo_iff.2 ⟨source, code, there, part, isTarget, rfl⟩)
      · obtain ⟨missing, -⟩ := (laidOut.dead source).1 dead
        have inside := (Array.getElem?_eq_some_iff.1 missing).1
        rw [inferred.size] at inside
        rcases laidOut.left_before inferred inside missing with leaves | breaks
        · exact .inr (.inr (laidOut.stopsAt_or_breaksAt inferred short leaves))
        · exact .inr (.inr (.inr breaks))
    · exact .inr (.inr (laidOut.stopsAt_or_breaksAt inferred short leaves))
  · have arrives : ∀ part ∈ laid.order, (laid.arrivals graph.handlers).getD part false = true →
        laid.NeedsAt (laid.arrivals graph.handlers) (Layout.starts laid.blocks laid.order)
          (laid.offset part) :=
      fun part isPlaced arrives => .inl ⟨part, laidOut.mem_starts.2 ⟨isPlaced, rfl⟩, arrives⟩
    rintro (jumps | ⟨handler, member, rfl⟩ | stops | breaks)
    · obtain ⟨source, code, there, target, isTarget, rfl⟩ := laidOut.jumpsTo_iff.1 jumps
      have isPlaced := laidOut.targets source
        (laidOut.covers source (Array.getElem?_eq_some_iff.1 there).1) code there target isTarget
      exact arrives target isPlaced ((LaidCode.getD_arrivals (laidOut.inside isPlaced)).2
        (.inr ⟨source, code, there, .inl isTarget⟩))
    · have inside := inferred.closed.handlers handler member
      have isPlaced := laidOut.mem_self inside
      exact arrives handler.entry isPlaced
        ((LaidCode.getD_arrivals (laidOut.inside isPlaced)).2 (.inl ⟨handler, member, rfl⟩))
    · exact .inr (laidOut.leavesAt_of_stopsAt stops)
    · exact laidOut.needsAt_of_breaksAt inferred short breaks

end

end Assembly
end ClassFile
