import ClassFile.Proofs.Code.Computed

namespace ClassFile
namespace Assembly

/-!
# Where the parts of blocks stand

The parts of a block stand one after the other and those of the next block after
them.  A block that widening adds is only jumped to from the one before it, and
what any part jumps to has a frame otherwise.  So whenever a frame is placed in
front of bytes there is one, and the frames placed are at all needs.
-/

open LaidCode (Needs Placing)

variable {graph : FlowGraph} {frames : Array (Option BlockFrame)} {laid : LaidCode}
  {far : Finset Nat} {parts : Nat → List Nat} {block part : Nat} {code : CodeBlock}

section

variable (laidOut : Laid graph frames laid far parts)

include laidOut

/-! ## Parts of blocks -/

theorem Laid.mem_order (inside : block < graph.blocks.size) (member : part ∈ parts block) :
    part ∈ laid.order := by
  rw [laidOut.order_eq]
  exact List.mem_flatMap_of_mem (List.mem_range.2 inside) member

theorem Laid.partOf (inside : block < graph.blocks.size) (member : part ∈ parts block)
    (there : laid.blocks[part]? = some code) :
    Widening.PartOf .nop none (live graph.blocks frames) block (parts block) part code :=
  (laidOut.rewritten block inside).partOf member there

theorem Laid.head (inside : block < graph.blocks.size) : ∃ rest, parts block = block :: rest := by
  have here := laidOut.rewritten block inside
  generalize parts block = list at here
  cases here <;> exact ⟨_, rfl⟩

theorem Laid.mem_self (inside : block < graph.blocks.size) : block ∈ laid.order := by
  obtain ⟨rest, here⟩ := laidOut.head inside
  exact laidOut.mem_order inside (here ▸ List.mem_cons_self)

theorem Laid.exists_block (placed : part ∈ laid.order) :
    ∃ block < graph.blocks.size, part ∈ parts block := by
  rw [laidOut.order_eq] at placed
  obtain ⟨block, isBlock, member⟩ := List.mem_flatMap.1 placed
  exact ⟨block, List.mem_range.1 isBlock, member⟩

theorem Laid.inside (isPlaced : part ∈ laid.order) : part < laid.blocks.size := by
  obtain ⟨block, inside, member⟩ := laidOut.exists_block isPlaced
  have here : Widening.Rewritten .nop none (live graph.blocks frames)
      (Widening.Result.mk laid.blocks laid.order 0).blocks far block (parts block) :=
    laidOut.rewritten block inside
  exact here.inside member

/-- The parts of different blocks are different. -/
theorem Laid.eq_of_mem_parts {other : Nat} (inside : block < graph.blocks.size)
    (otherInside : other < graph.blocks.size) (member : part ∈ parts block)
    (otherMember : part ∈ parts other) : block = other := by
  by_contra different
  have distinct := laidOut.distinct
  rw [laidOut.order_eq, List.nodup_flatMap] at distinct
  have : Std.Symm (Function.onFun List.Disjoint parts) := ⟨fun _ _ disjoint => disjoint.symm⟩
  exact distinct.2.forall (List.mem_range.2 inside) (List.mem_range.2 otherInside) different member
    otherMember

/-! ## Starts and stops -/

/-- The end of the parts of all blocks before one. -/
def stop (laid : LaidCode) (parts : Nat → List Nat) (block : Nat) : Nat :=
  (((List.range block).flatMap parts).map (Layout.blockWidth laid.blocks)).sum

omit laidOut in
theorem stop_succ (block : Nat) : stop laid parts (block + 1) =
    stop laid parts block + ((parts block).map (Layout.blockWidth laid.blocks)).sum := by
  rw [stop, List.range_succ, List.flatMap_append, List.flatMap_singleton, List.map_append,
    List.sum_append, stop]

theorem Laid.stop_size : stop laid parts graph.blocks.size = Layout.length laid.blocks laid.order := by
  rw [stop, Layout.length_eq_sum, laidOut.order_eq]

/-- The parts of a block stand from the end of the blocks before it on. -/
theorem Laid.starts_parts (inside : block < graph.blocks.size) :
    ∀ start ∈ Layout.startsFrom laid.blocks (stop laid parts block) (parts block),
      start ∈ Layout.starts laid.blocks laid.order := by
  intro start member
  obtain ⟨rest, size⟩ := Nat.exists_eq_add_of_le (Nat.succ_le_of_lt inside)
  rw [laidOut.order_eq, size, List.range_add, List.range_succ, List.flatMap_append,
    List.flatMap_append, List.flatMap_singleton, Layout.starts, Layout.startsFrom_append,
    Layout.startsFrom_append, Nat.zero_add]
  exact List.mem_append_left _ (List.mem_append_right _ member)

theorem Laid.offset_eq_stop (inside : block < graph.blocks.size) :
    laid.offset block = stop laid parts block := by
  obtain ⟨rest, here⟩ := laidOut.head inside
  refine laidOut.starts (block, _) (laidOut.starts_parts inside _ ?_)
  rw [here]
  exact List.mem_cons_self

theorem Laid.offset_succ (inside : block < graph.blocks.size) :
    stop laid parts (block + 1) =
      laid.offset block + ((parts block).map (Layout.blockWidth laid.blocks)).sum := by
  rw [stop_succ, laidOut.offset_eq_stop inside]

theorem Laid.mem_starts {place : Nat} : (part, place) ∈ Layout.starts laid.blocks laid.order ↔
    part ∈ laid.order ∧ laid.offset part = place := by
  have listed : ∀ start ∈ Layout.starts laid.blocks laid.order, start.1 ∈ laid.order := by
    intro start member
    have first := List.mem_map_of_mem (f := Prod.fst) member
    rwa [Layout.starts_map_fst] at first
  constructor
  · intro member
    exact ⟨listed _ member, laidOut.starts _ member⟩
  · rintro ⟨placed, rfl⟩
    rw [← Layout.starts_map_fst laid.blocks laid.order, List.mem_map] at placed
    obtain ⟨⟨_, place⟩, member, rfl⟩ := placed
    rwa [laidOut.starts _ member]

/-- A block without bytes stays as it is. -/
theorem Laid.kept_of_empty (inside : block < graph.blocks.size)
    (before : (live graph.blocks frames)[block]? = some code) (empty : code.width = 0) :
    parts block = [block] ∧ laid.blocks[block]? = some code := by
  refine (laidOut.rewritten block inside).kept_of_long before ?_
  have silent := (Nat.add_eq_zero_iff.1 empty).2
  cases isBranch : code.branch with
  | conditional | goto | jsr =>
    rw [isBranch] at silent
    cases silent
  | _ => rfl

/-- The next block starts where one without bytes does. -/
theorem Laid.offset_succ_of_empty (inside : block < graph.blocks.size)
    (before : (live graph.blocks frames)[block]? = some code) (empty : code.width = 0) :
    stop laid parts (block + 1) = laid.offset block := by
  obtain ⟨alone, after⟩ := laidOut.kept_of_empty inside before empty
  rw [laidOut.offset_succ inside, alone, List.map_singleton, List.sum_singleton, Layout.blockWidth,
    after]
  exact congrArg (laid.offset block + ·) empty

/-- A block that control does not fall out of ends before the next one, also when it is
widened. -/
theorem Laid.leavesAt_succ (inside : block < graph.blocks.size)
    (before : (live graph.blocks frames)[block]? = some code) (some_ : 0 < code.width)
    (leaves : code.branch.next? = none) :
    laid.LeavesAt (Layout.starts laid.blocks laid.order) (stop laid parts (block + 1)) := by
  have ends := laidOut.offset_succ inside
  have member := laidOut.mem_starts.2 ⟨laidOut.mem_self inside, rfl⟩
  have here := laidOut.rewritten block inside
  generalize parts block = list at here ends
  cases here with
  | kept before' after near =>
    obtain rfl := Option.some.inj (before'.symm.trans before)
    rw [List.map_singleton, List.sum_singleton, Layout.blockWidth, after] at ends
    exact ⟨block, _, _, member, after, some_, leaves, ends.symm⟩
  | goto before' branch after widened =>
    rw [List.map_singleton, List.sum_singleton, Layout.blockWidth, after] at ends
    exact ⟨block, _, _, member, after, Nat.add_pos_right _ (Nat.succ_pos 4), rfl, ends.symm⟩
  | jsr before' branch after widened =>
    obtain rfl := Option.some.inj (before'.symm.trans before)
    rw [branch] at leaves
    cases leaves
  | split before' branch fresh split widened =>
    obtain rfl := Option.some.inj (before'.symm.trans before)
    rw [branch] at leaves
    cases leaves

/-! ## Where parts jump to -/

variable (inferred : Inferred graph frames)

include inferred

/-- A part jumps to blocks with frames, or it is the branch of a split block and jumps to
the second new block. -/
theorem Laid.leads (inside : block < graph.blocks.size) (member : part ∈ parts block)
    (there : laid.blocks[part]? = some code) {target : Nat} (isTarget : target ∈ code.branch.targets) :
    (∃ frame, frames[target]? = some (some frame)) ∨
      ∃ first, parts block = [block, first, first + 1] ∧ target = first + 1 := by
  have here := laidOut.partOf inside member there
  generalize parts block = list at here
  cases here with
  | kept before => exact .inl ((lives_of_live before).target inferred isTarget)
  | goto before branch | jsr before branch =>
    exact .inl ((lives_of_live before).target inferred (branch ▸ isTarget))
  | conditional => exact .inr ⟨_, rfl, List.mem_singleton.1 isTarget⟩
  | around before branch =>
    obtain rfl := List.mem_singleton.1 isTarget
    refine .inl ((lives_of_live before).falls inferred (Nat.add_pos_right _ ?_) (by rw [branch]; rfl))
    rw [branch]
    exact Nat.succ_pos 2
  | onward before branch =>
    obtain rfl := List.mem_singleton.1 isTarget
    exact .inl ((lives_of_live before).target inferred (branch ▸ List.mem_singleton_self _))

/-- Nothing else arrives at the first of two new blocks. -/
theorem Laid.not_arrives {handlers : List Handler}
    (entries : ∀ handler ∈ handlers, handler.entry < graph.blocks.size) {first : Nat}
    (inside : block < graph.blocks.size) (split : parts block = [block, first, first + 1])
    (fresh : graph.blocks.size ≤ first) (there : first < laid.blocks.size) :
    (laid.arrivals handlers).getD first false = false := by
  have old : ∀ other frame, frames[other]? = some frame → other ≠ first := by
    rintro other frame found rfl
    have below := (Array.getElem?_eq_some_iff.1 found).1
    rw [inferred.size] at below
    omega
  rw [← Bool.not_eq_true, LaidCode.getD_arrivals there]
  rintro (⟨handler, member, rfl⟩ | ⟨source, code, found, isTarget | ⟨dead, rfl⟩⟩)
  · exact absurd (entries handler member) (Nat.not_lt_of_le fresh)
  · obtain ⟨other, otherInside, member⟩ :=
      laidOut.exists_block (laidOut.covers source (Array.getElem?_eq_some_iff.1 found).1)
    rcases laidOut.leads inferred otherInside member found isTarget with
      ⟨frame, framed⟩ | ⟨first', split', rfl⟩
    · exact old _ _ framed rfl
    · have here : first' + 1 ∈ parts block := by simp [split]
      have there : first' + 1 ∈ parts other := by simp [split']
      obtain rfl := laidOut.eq_of_mem_parts inside otherInside here there
      have same := List.cons.inj (split.symm.trans split')
      simp at same
  · exact old _ _ ((laidOut.dead source).1 dead).1 rfl

/-! ## Placing frames -/

/-- The parts of a block come next. -/
theorem Laid.placing_parts {handlers : List Handler}
    (entries : ∀ handler ∈ handlers, handler.entry < graph.blocks.size)
    (inside : block < graph.blocks.size) {starts : List (Nat × Nat)} {needs : Needs}
    (placing : Placing laid (laid.arrivals handlers) starts (stop laid parts block) needs) :
    Placing laid (laid.arrivals handlers)
      (starts ++ Layout.startsFrom laid.blocks (stop laid parts block) (parts block))
      (stop laid parts (block + 1))
      ((parts block).foldl (laid.placeNeeded (laid.arrivals handlers)) needs) := by
  have places : ∀ start ∈ Layout.startsFrom laid.blocks (stop laid parts block) (parts block),
      laid.offset start.1 = start.2 :=
    fun start member => laidOut.starts start (laidOut.starts_parts inside start member)
  have alone : ∀ first, parts block = [block, first, first + 1] → graph.blocks.size ≤ first →
      first < laid.blocks.size → (laid.arrivals handlers).getD first false = false :=
    fun first => laidOut.not_arrives inferred entries inside
  have here := laidOut.rewritten block inside
  rw [stop_succ]
  generalize parts block = list at here places alone
  cases here with
  | kept before after near =>
    exact placing.single after (places _ List.mem_cons_self) (lives_of_live before).framed
  | goto before branch after widened =>
    refine placing.single after (places _ List.mem_cons_self) fun _ => ?_
    refine (lives_of_live before).framed (Nat.add_pos_right _ ?_)
    rw [branch]
    exact Nat.succ_pos 2
  | jsr before branch after widened =>
    refine placing.single after (places _ List.mem_cons_self) fun _ => ?_
    refine (lives_of_live before).framed (Nat.add_pos_right _ ?_)
    rw [branch]
    exact Nat.succ_pos 2
  | @split _ condition target next first before branch fresh split widened =>
    have lives := lives_of_live before
    have jumps : 0 < Branch.width (.conditional condition target next : Branch Nat Nat Nat) :=
      Nat.succ_pos 2
    obtain ⟨frame, isFrame⟩ := lives.framed_target inferred
      (by rw [branch]; exact List.mem_singleton_self target)
    rw [size_live inferred.size] at fresh
    simp only [Layout.startsFrom, List.forall_mem_cons] at places ⊢
    have one := placing.step split.after places.1 fun some_ _ =>
      lives.framed (Nat.add_pos_right _ (branch ▸ jumps))
    have falls : (laid.placeNeeded (laid.arrivals handlers) needs block).isNeeded = false :=
      LaidCode.isNeeded_of_falls split.after (Nat.add_pos_right _ jumps) rfl
    have two := one.step split.around places.2.1 fun _ needed => by
      rw [falls, alone first rfl fresh (Array.getElem?_eq_some_iff.1 split.around).1] at needed
      exact absurd needed (by decide)
    have three := two.step split.onward places.2.2.1 fun _ _ => ⟨frame, isFrame⟩
    simpa [Nat.add_assoc] using three

theorem Laid.placing_range {handlers : List Handler}
    (entries : ∀ handler ∈ handlers, handler.entry < graph.blocks.size) {count : Nat}
    (inside : count ≤ graph.blocks.size) :
    Placing laid (laid.arrivals handlers)
      (Layout.startsFrom laid.blocks 0 ((List.range count).flatMap parts)) (stop laid parts count)
      (((List.range count).flatMap parts).foldl (laid.placeNeeded (laid.arrivals handlers))
        ⟨#[], false⟩) := by
  induction count with
  | zero => exact .nil
  | succ count ih =>
    have next := laidOut.placing_parts inferred entries inside (ih (Nat.le_of_succ_le inside))
    rw [List.range_succ, List.flatMap_append, List.flatMap_singleton, Layout.startsFrom_append,
      List.foldl_append, Nat.zero_add]
    exact next

/-- Frames are placed at increasing offsets, at those before the end of the code where
one is needed. -/
theorem Laid.neededFrames_spec {handlers : List Handler}
    (entries : ∀ handler ∈ handlers, handler.entry < graph.blocks.size) :
    ((laid.neededFrames handlers).map Prod.fst).Pairwise (· < ·) ∧
      ∀ offset, offset ∈ (laid.neededFrames handlers).map Prod.fst ↔
        offset < Layout.length laid.blocks laid.order ∧
          laid.NeedsAt (laid.arrivals handlers) (Layout.starts laid.blocks laid.order) offset := by
  have placing := laidOut.placing_range inferred entries (Nat.le_refl _)
  rw [← laidOut.order_eq, laidOut.stop_size] at placing
  exact ⟨placing.increasing, placing.exact⟩

end

end Assembly
end ClassFile
