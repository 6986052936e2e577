import ClassFile.Code.FramePlaces
import ClassFile.Proofs.Layout

namespace ClassFile
namespace LaidCode

/-!
# Which frames are placed

Frames are placed in one pass over the blocks.  A need for one comes up where
control arrives at a block and where it does not fall out of one, and it is kept
until there are bytes that the frame can stand at.  So frames are placed at
increasing offsets, at just those before the end where such a need has come up.
-/

variable {laid : LaidCode}

/-! ## Arrivals -/

theorem size_mark (marks : Array Bool) (blocks : List Nat) : (mark marks blocks).size = marks.size := by
  rw [mark]
  induction blocks generalizing marks with
  | nil => rfl
  | cons block blocks ih => rw [List.foldl_cons, ih, Array.size_setIfInBounds]

theorem getD_mark {marks : Array Bool} {blocks : List Nat} {block : Nat} (inside : block < marks.size) :
    (mark marks blocks).getD block false = true ↔
      block ∈ blocks ∨ marks.getD block false = true := by
  induction blocks generalizing marks with
  | nil => simp [mark]
  | cons first blocks ih =>
    have here : (marks.setIfInBounds first true).getD block false = true ↔
        block = first ∨ marks.getD block false = true := by
      simp only [Array.getD_eq_getD_getElem?]
      by_cases same : first = block
      · subst same
        rw [Array.getElem?_setIfInBounds_self_of_lt inside]
        exact iff_of_true rfl (.inl rfl)
      · rw [Array.getElem?_setIfInBounds_ne same]
        exact ⟨.inr, fun either => either.resolve_left (Ne.symm same)⟩
    rw [mark, List.foldl_cons, ← mark, ih (by rwa [Array.size_setIfInBounds]), here, List.mem_cons,
      or_left_comm, or_assoc]

/-- Blocks that several lists have marked. -/
theorem getD_foldl_mark {α : Type} (named : α → List Nat) (entries : List α) {marks : Array Bool}
    {block : Nat} (inside : block < marks.size) :
    (entries.foldl (fun marks entry => mark marks (named entry)) marks).getD block false = true ↔
      marks.getD block false = true ∨ ∃ entry ∈ entries, block ∈ named entry := by
  induction entries generalizing marks with
  | nil => simp
  | cons entry entries ih =>
    rw [List.foldl_cons, ih (by rwa [size_mark]), getD_mark inside, or_assoc, or_left_comm]
    simp only [List.mem_cons, exists_eq_or_imp]

/-- Control arrives at handlers, at the targets of branches and at dead code. -/
theorem getD_arrivals {handlers : List Handler} {block : Nat} (inside : block < laid.blocks.size) :
    (laid.arrivals handlers).getD block false = true ↔
      (∃ handler ∈ handlers, handler.entry = block) ∨
        ∃ source code, laid.blocks[source]? = some code ∧
          (block ∈ code.branch.targets ∨ laid.isDead source = true ∧ source = block) := by
  have size : (mark (Array.replicate laid.blocks.size false) (handlers.map Handler.entry)).size =
      laid.blocks.size := by
    rw [size_mark, Array.size_replicate]
  have none : (Array.replicate laid.blocks.size false).getD block false = false := by
    rw [Array.getD_eq_getD_getElem?, Array.getElem?_replicate]
    split <;> rfl
  have named : ∀ (code : CodeBlock) source,
      block ∈ (if laid.isDead source then source :: code.branch.targets else code.branch.targets) ↔
        block ∈ code.branch.targets ∨ laid.isDead source = true ∧ source = block := by
    intro code source
    by_cases dead : laid.isDead source = true
    · rw [if_pos dead, List.mem_cons, or_comm, eq_comm, and_iff_right dead]
    · rw [if_neg dead, or_iff_left fun both => dead both.1]
  rw [arrivals, ← Array.foldl_toList]
  refine (getD_foldl_mark (fun entry : CodeBlock × Nat =>
    if laid.isDead entry.2 then entry.2 :: entry.1.branch.targets else entry.1.branch.targets)
    _ (by rwa [size])).trans ?_
  rw [getD_mark (by rwa [Array.size_replicate]), none]
  simp only [named, Bool.false_eq_true, or_false, List.mem_map, Prod.exists, Array.toList_zipIdx,
    List.mem_zipIdx_iff_getElem?, Array.getElem?_toList]
  rw [exists_comm]

/-! ## Needs -/

/-- Control arrives at a block that starts at an offset. -/
def ArrivesAt (arrivals : Array Bool) (starts : List (Nat × Nat)) (offset : Nat) : Prop :=
  ∃ block, (block, offset) ∈ starts ∧ arrivals.getD block false = true

/-- A block with bytes ends at an offset, and control does not fall out of it. -/
def LeavesAt (laid : LaidCode) (starts : List (Nat × Nat)) (offset : Nat) : Prop :=
  ∃ block start code, (block, start) ∈ starts ∧ laid.blocks[block]? = some code ∧ 0 < code.width ∧
    code.branch.next? = none ∧ start + code.width = offset

/-- A frame is needed at an offset. -/
def NeedsAt (laid : LaidCode) (arrivals : Array Bool) (starts : List (Nat × Nat)) (offset : Nat) :
    Prop :=
  ArrivesAt arrivals starts offset ∨ laid.LeavesAt starts offset

section

variable {arrivals : Array Bool} {starts : List (Nat × Nat)} {block start offset : Nat}
  {code : CodeBlock}

theorem LeavesAt.append {more : List (Nat × Nat)} (leaves : laid.LeavesAt starts offset) :
    laid.LeavesAt (starts ++ more) offset := by
  rcases leaves with ⟨block, start, code, member, there, some_, leaves, ends⟩
  exact ⟨block, start, code, List.mem_append_left _ member, there, some_, leaves, ends⟩

theorem arrivesAt_snoc : ArrivesAt arrivals (starts ++ [(block, start)]) offset ↔
    ArrivesAt arrivals starts offset ∨ arrivals.getD block false = true ∧ start = offset := by
  simp only [ArrivesAt, List.mem_append, List.mem_singleton, Prod.mk.injEq, or_and_right, exists_or]
  refine or_congr_right ⟨?_, ?_⟩
  · rintro ⟨_, ⟨rfl, rfl⟩, arrives⟩
    exact ⟨arrives, rfl⟩
  · rintro ⟨arrives, rfl⟩
    exact ⟨block, ⟨rfl, rfl⟩, arrives⟩

theorem leavesAt_snoc (there : laid.blocks[block]? = some code) :
    laid.LeavesAt (starts ++ [(block, start)]) offset ↔
      laid.LeavesAt starts offset ∨
        0 < code.width ∧ code.branch.next? = none ∧ start + code.width = offset := by
  constructor
  · rintro ⟨other, place, found, member, isFound, some_, leaves, ends⟩
    rcases List.mem_append.mp member with before | here
    · exact .inl ⟨other, place, found, before, isFound, some_, leaves, ends⟩
    · cases List.mem_singleton.mp here
      cases there.symm.trans isFound
      exact .inr ⟨some_, leaves, ends⟩
  · rintro (before | ⟨some_, leaves, ends⟩)
    · exact before.append
    · exact ⟨block, start, code, List.mem_append_right _ List.mem_cons_self, there, some_, leaves,
        ends⟩

theorem needsAt_snoc (there : laid.blocks[block]? = some code) :
    laid.NeedsAt arrivals (starts ++ [(block, start)]) offset ↔
      laid.NeedsAt arrivals starts offset ∨ arrivals.getD block false = true ∧ start = offset ∨
        0 < code.width ∧ code.branch.next? = none ∧ start + code.width = offset := by
  rw [NeedsAt, NeedsAt, arrivesAt_snoc, leavesAt_snoc there, or_or_or_comm, or_assoc]

/-- Blocks that come later need no frame before them. -/
theorem needsAt_snoc_of_lt (there : laid.blocks[block]? = some code) (before : offset < start) :
    laid.NeedsAt arrivals (starts ++ [(block, start)]) offset ↔
      laid.NeedsAt arrivals starts offset := by
  rw [needsAt_snoc there]
  refine ⟨fun needed => needed.resolve_right ?_, .inl⟩
  rintro (⟨-, same⟩ | ⟨-, -, same⟩) <;> omega

/-! ## One block -/

/-- A block without bytes passes a need on. -/
theorem placeNeeded_of_empty {needs : Needs} (there : laid.blocks[block]? = some code)
    (empty : code.width = 0) :
    laid.placeNeeded arrivals needs block =
      { needs with isNeeded := needs.isNeeded || arrivals.getD block false } := by
  rw [placeNeeded, there]
  exact if_pos empty

/-- A block with bytes answers it. -/
theorem placeNeeded_of_bytes {needs : Needs} (there : laid.blocks[block]? = some code)
    (some_ : 0 < code.width)
    (framed : needs.isNeeded = true ∨ arrivals.getD block false = true →
      ∃ frame, code.frame = some frame) :
    ∃ placed, laid.placeNeeded arrivals needs block = ⟨placed, code.branch.next?.isNone⟩ ∧
      ((needs.isNeeded = true ∨ arrivals.getD block false = true) ∧
          placed.toList.map Prod.fst = needs.placed.toList.map Prod.fst ++ [laid.offset block] ∨
        ¬(needs.isNeeded = true ∨ arrivals.getD block false = true) ∧ placed = needs.placed) := by
  rw [placeNeeded, there]
  dsimp only
  rw [if_neg (Nat.ne_of_gt some_)]
  refine ⟨_, rfl, ?_⟩
  rw [← Bool.or_eq_true] at framed ⊢
  split
  · next frame needed isFrame =>
    refine .inl ⟨needed, ?_⟩
    rw [Array.toList_push, List.map_append]
    rfl
  · next other =>
    refine .inr ⟨fun needed => ?_, rfl⟩
    rcases framed needed with ⟨frame, isFrame⟩
    exact other frame needed isFrame

/-- A placed frame is that of a block. -/
theorem frame_of_mem_neededFrames {handlers : List Handler} {offset : Nat} {frame : BlockFrame}
    (member : (offset, frame) ∈ laid.neededFrames handlers) :
    ∃ block ∈ laid.order, ∃ code, laid.blocks[block]? = some code ∧ 0 < code.width ∧
      code.frame = some frame ∧ laid.offset block = offset := by
  have onward : ∀ (order : List Nat) (needs : Needs),
      (offset, frame) ∈ (order.foldl (laid.placeNeeded (laid.arrivals handlers)) needs).placed →
        (offset, frame) ∈ needs.placed ∨ ∃ block ∈ order, ∃ code,
          laid.blocks[block]? = some code ∧ 0 < code.width ∧ code.frame = some frame ∧
            laid.offset block = offset := by
    intro order
    induction order with
    | nil => exact fun needs member => .inl member
    | cons block order ih =>
      intro needs member
      rcases ih _ member with before | ⟨other, isIn, found⟩
      · rw [placeNeeded] at before
        split at before
        · exact .inl before
        · next code there =>
          dsimp only at before
          split at before
          · exact .inl before
          · next some_ =>
            split at before
            · next frame' _ isFrame =>
              rcases Array.mem_push.1 before with earlier | here
              · exact .inl earlier
              · obtain ⟨rfl, rfl⟩ := Prod.mk.inj here
                exact .inr ⟨block, List.mem_cons_self, code, there, Nat.pos_of_ne_zero some_, isFrame,
                  rfl⟩
            · exact .inl before
      · exact .inr ⟨other, List.mem_cons_of_mem _ isIn, found⟩
  exact (onward _ _ (Array.mem_toList_iff.1 member)).resolve_left (Array.not_mem_empty _)

/-- What is true of the frames placed so far, where the blocks so far end at
`stop`. -/
structure Placing (laid : LaidCode) (arrivals : Array Bool) (starts : List (Nat × Nat))
    (stop : Nat) (needs : Needs) : Prop where
  increasing : (needs.placed.toList.map Prod.fst).Pairwise (· < ·)
  exact : ∀ offset, offset ∈ needs.placed.toList.map Prod.fst ↔
    offset < stop ∧ laid.NeedsAt arrivals starts offset
  pending : needs.isNeeded = true ↔ laid.NeedsAt arrivals starts stop
  within : ∀ offset, laid.NeedsAt arrivals starts offset → offset ≤ stop

theorem Placing.nil : Placing laid arrivals [] 0 ⟨#[], false⟩ := by
  have nothing : ∀ offset, ¬laid.NeedsAt arrivals [] offset := by
    rintro offset (⟨_, member, -⟩ | ⟨_, _, _, member, -⟩) <;> cases member
  refine ⟨.nil, fun offset => ?_, ?_, fun offset needed => (nothing offset needed).elim⟩
  · exact iff_of_false List.not_mem_nil fun needed => nothing offset needed.2
  · exact iff_of_false Bool.false_ne_true (nothing 0)

variable {stop : Nat} {needs : Needs}

theorem Placing.within_snoc (placing : Placing laid arrivals starts stop needs)
    (there : laid.blocks[block]? = some code)
    (needed : laid.NeedsAt arrivals (starts ++ [(block, stop)]) offset) :
    offset ≤ stop + code.width := by
  rcases (needsAt_snoc there).mp needed with before | ⟨-, rfl⟩ | ⟨-, -, rfl⟩
  · exact Nat.le_add_right_of_le (placing.within offset before)
  · exact Nat.le_add_right _ _
  · exact Nat.le_refl _

theorem Placing.empty (placing : Placing laid arrivals starts stop needs)
    (there : laid.blocks[block]? = some code) (empty : code.width = 0) :
    Placing laid arrivals (starts ++ [(block, stop)]) (stop + code.width)
      (laid.placeNeeded arrivals needs block) := by
  rw [placeNeeded_of_empty there empty]
  refine ⟨placing.increasing, fun offset => ?_, ?_, fun offset => placing.within_snoc there⟩
  · rw [placing.exact, empty, Nat.add_zero]
    exact and_congr_right fun below => (needsAt_snoc_of_lt there below).symm
  · rw [Bool.or_eq_true, placing.pending, empty, Nat.add_zero, needsAt_snoc there]
    simp [empty]

/-- A frame that is needed at the bytes of a block must be there. -/
theorem Placing.bytes (placing : Placing laid arrivals starts stop needs)
    (there : laid.blocks[block]? = some code) (here : laid.offset block = stop)
    (some_ : 0 < code.width)
    (framed : needs.isNeeded = true ∨ arrivals.getD block false = true →
      ∃ frame, code.frame = some frame) :
    Placing laid arrivals (starts ++ [(block, stop)]) (stop + code.width)
      (laid.placeNeeded arrivals needs block) := by
  have atStop : laid.NeedsAt arrivals (starts ++ [(block, stop)]) stop ↔
      needs.isNeeded = true ∨ arrivals.getD block false = true := by
    rw [needsAt_snoc there, placing.pending]
    refine or_congr_right ⟨?_, fun arrives => .inl ⟨arrives, rfl⟩⟩
    rintro (⟨arrives, -⟩ | ⟨-, -, same⟩)
    · exact arrives
    · omega
  rcases placeNeeded_of_bytes there some_ framed with ⟨placed, step, placed_⟩
  rw [← atStop, here] at placed_
  have member : ∀ offset, offset ∈ placed.toList.map Prod.fst ↔
      offset ∈ needs.placed.toList.map Prod.fst ∨
        laid.NeedsAt arrivals (starts ++ [(block, stop)]) stop ∧ offset = stop := by
    intro offset
    rcases placed_ with ⟨needed, offsets⟩ | ⟨unneeded, rfl⟩
    · rw [offsets, List.mem_append, List.mem_singleton, and_iff_right needed]
    · exact (or_iff_left fun both => unneeded both.1).symm
  rw [step]
  constructor
  case within => exact fun offset => placing.within_snoc there
  case increasing =>
    rcases placed_ with ⟨-, offsets⟩ | ⟨-, rfl⟩
    · rw [offsets, List.pairwise_append]
      refine ⟨placing.increasing, List.pairwise_singleton _ _, fun before isPlaced after last => ?_⟩
      rw [List.mem_singleton.mp last]
      exact ((placing.exact before).mp isPlaced).1
    · exact placing.increasing
  case exact =>
    intro offset
    rw [member, placing.exact]
    constructor
    · rintro (⟨below, before⟩ | ⟨needed, rfl⟩)
      · exact ⟨Nat.lt_add_right _ below, (needsAt_snoc_of_lt there below).mpr before⟩
      · exact ⟨Nat.lt_add_of_pos_right some_, needed⟩
    · rintro ⟨below, needed⟩
      rcases Nat.lt_trichotomy offset stop with before | rfl | after
      · exact .inl ⟨before, (needsAt_snoc_of_lt there before).mp needed⟩
      · exact .inr ⟨needed, rfl⟩
      · rcases (needsAt_snoc there).mp needed with before | ⟨-, same⟩ | ⟨-, -, same⟩
        · exact absurd (placing.within offset before) (Nat.not_le_of_lt after)
        · omega
        · omega
  case pending =>
    rw [Option.isNone_iff_eq_none, needsAt_snoc there]
    refine ⟨fun leaves => .inr (.inr ⟨some_, leaves, rfl⟩), ?_⟩
    rintro (before | ⟨-, same⟩ | ⟨-, leaves, -⟩)
    · exact absurd (placing.within _ before) (by omega)
    · omega
    · exact leaves

/-- Any block comes next. -/
theorem Placing.step (placing : Placing laid arrivals starts stop needs)
    (there : laid.blocks[block]? = some code) (here : laid.offset block = stop)
    (framed : 0 < code.width → needs.isNeeded = true ∨ arrivals.getD block false = true →
      ∃ frame, code.frame = some frame) :
    Placing laid arrivals (starts ++ [(block, stop)]) (stop + Layout.blockWidth laid.blocks block)
      (laid.placeNeeded arrivals needs block) := by
  rw [Layout.blockWidth, there]
  exact (Nat.eq_zero_or_pos code.width).elim (placing.empty there) fun some_ =>
    placing.bytes there here some_ (framed some_)

theorem Placing.single (placing : Placing laid arrivals starts stop needs)
    (there : laid.blocks[block]? = some code) (here : laid.offset block = stop)
    (framed : 0 < code.width → ∃ frame, code.frame = some frame) :
    Placing laid arrivals (starts ++ Layout.startsFrom laid.blocks stop [block])
      (stop + ([block].map (Layout.blockWidth laid.blocks)).sum)
      ([block].foldl (laid.placeNeeded arrivals) needs) := by
  rw [List.map_singleton, List.sum_singleton]
  exact placing.step there here fun some_ _ => framed some_

/-- No need is left after bytes that control falls out of. -/
theorem isNeeded_of_falls {needs : Needs} (there : laid.blocks[block]? = some code)
    (some_ : 0 < code.width) {next : Nat} (falls : code.branch.next? = some next) :
    (laid.placeNeeded arrivals needs block).isNeeded = false := by
  rw [placeNeeded, there]
  dsimp only
  rw [if_neg (Nat.ne_of_gt some_), falls]
  rfl

end

end LaidCode
end ClassFile
