import ClassFile.Proofs.Code.Placing
import ClassFile.Proofs.Code.WidenedFrames

namespace ClassFile
namespace LaidCode

/-!
# Which recorded frames are placed

Recorded frames are all kept, in one pass over the blocks.  The frame of a block without
bytes waits for the next bytes, which have the same offset.  So frames are placed at
increasing offsets, at just those before the end where a block with a frame starts.
-/

open Assembly (frameOf?)

variable {laid : LaidCode} {starts : List (Nat × Nat)} {block start stop offset : Nat}
  {recorded : LaidCode.Recorded} {code : CodeBlock}

/-- A block with a frame starts at an offset. -/
def FramedAt (laid : LaidCode) (starts : List (Nat × Nat)) (offset : Nat) : Prop :=
  ∃ block frame, (block, offset) ∈ starts ∧ frameOf? laid.blocks block = some frame

theorem framedAt_snoc : laid.FramedAt (starts ++ [(block, start)]) offset ↔
    laid.FramedAt starts offset ∨ start = offset ∧ ∃ frame, frameOf? laid.blocks block = some frame := by
  simp only [FramedAt, List.mem_append, List.mem_singleton, Prod.mk.injEq, or_and_right, exists_or]
  refine or_congr_right ⟨?_, ?_⟩
  · rintro ⟨_, frame, ⟨rfl, rfl⟩, isFrame⟩
    exact ⟨rfl, frame, isFrame⟩
  · rintro ⟨rfl, frame, isFrame⟩
    exact ⟨block, frame, ⟨rfl, rfl⟩, isFrame⟩

/-- What is true of the recorded frames placed so far, where the blocks so far end at
`stop`. -/
structure Recording (laid : LaidCode) (starts : List (Nat × Nat)) (stop : Nat)
    (recorded : LaidCode.Recorded) : Prop where
  increasing : (recorded.placed.toList.map Prod.fst).Pairwise (· < ·)
  exact : ∀ offset, offset ∈ recorded.placed.toList.map Prod.fst ↔
    offset < stop ∧ laid.FramedAt starts offset
  pending : (∃ frame, recorded.pending = some frame) ↔ laid.FramedAt starts stop
  within : ∀ entry ∈ starts, entry.2 ≤ stop

theorem Recording.nil : Recording laid [] 0 ⟨#[], none⟩ := by
  have nothing : ∀ offset, ¬laid.FramedAt [] offset := by
    rintro offset ⟨_, _, member, -⟩
    cases member
  constructor
  case increasing => exact .nil
  case exact => exact fun offset => iff_of_false List.not_mem_nil fun both => nothing offset both.2
  case pending => exact iff_of_false (fun ⟨_, same⟩ => by cases same) (nothing 0)
  case within => exact fun _ member => absurd member List.not_mem_nil

theorem Recording.within_snoc (recording : Recording laid starts stop recorded) (width : Nat) :
    ∀ entry ∈ starts ++ [(block, stop)], entry.2 ≤ stop + width := by
  intro entry member
  rcases List.mem_append.1 member with before | here
  · exact Nat.le_add_right_of_le (recording.within entry before)
  · rw [List.mem_singleton.1 here]
    exact Nat.le_add_right _ _

theorem Recording.framedAt_stop (recording : Recording laid starts stop recorded) :
    laid.FramedAt (starts ++ [(block, stop)]) stop ↔
      ∃ frame, (frameOf? laid.blocks block).or recorded.pending = some frame := by
  rw [framedAt_snoc, ← recording.pending]
  cases frameOf? laid.blocks block with
  | none => simp
  | some frame => exact iff_of_true (.inr ⟨rfl, frame, rfl⟩) ⟨frame, rfl⟩

/-- A block without bytes passes its frame on. -/
theorem Recording.empty (recording : Recording laid starts stop recorded) :
    Recording laid (starts ++ [(block, stop)]) stop
      ⟨recorded.placed, (frameOf? laid.blocks block).or recorded.pending⟩ where
  increasing := recording.increasing
  exact offset := by
    rw [recording.exact, framedAt_snoc]
    refine and_congr_right fun below => (or_iff_left ?_).symm
    rintro ⟨rfl, -⟩
    exact Nat.lt_irrefl _ below
  pending := recording.framedAt_stop.symm
  within := recording.within_snoc 0

/-- A block with bytes takes its own frame or the one that was passed on. -/
theorem Recording.bytes (recording : Recording laid starts stop recorded) {width : Nat}
    (some_ : 0 < width) {placed : Array (Nat × BlockFrame)}
    (answered : (∃ frame, (frameOf? laid.blocks block).or recorded.pending = some frame ∧
        placed = recorded.placed.push (stop, frame)) ∨
      (frameOf? laid.blocks block).or recorded.pending = none ∧ placed = recorded.placed) :
    Recording laid (starts ++ [(block, stop)]) (stop + width) ⟨placed, none⟩ := by
  have isPlaced : ∀ offset, offset ∈ placed.toList.map Prod.fst ↔
      offset ∈ recorded.placed.toList.map Prod.fst ∨
        laid.FramedAt (starts ++ [(block, stop)]) stop ∧ offset = stop := by
    intro offset
    rw [recording.framedAt_stop]
    rcases answered with ⟨frame, isFrame, rfl⟩ | ⟨missing, rfl⟩
    · rw [Array.toList_push, List.map_append, List.mem_append, List.map_singleton,
        List.mem_singleton, and_iff_right ⟨frame, isFrame⟩]
    · rw [missing]
      simp
  constructor
  case increasing =>
    rcases answered with ⟨frame, -, rfl⟩ | ⟨-, rfl⟩
    · rw [Array.toList_push, List.map_append, List.pairwise_append]
      refine ⟨recording.increasing, List.pairwise_singleton _ _, fun before isBefore after last => ?_⟩
      rw [List.map_singleton, List.mem_singleton] at last
      rw [last]
      exact ((recording.exact before).1 isBefore).1
    · exact recording.increasing
  case exact =>
    intro offset
    rw [isPlaced, recording.exact]
    constructor
    · rintro (⟨below, framed⟩ | ⟨framed, rfl⟩)
      · exact ⟨Nat.lt_add_right _ below, framedAt_snoc.2 (.inl framed)⟩
      · exact ⟨Nat.lt_add_of_pos_right some_, framed⟩
    · rintro ⟨-, framed⟩
      rcases framedAt_snoc.1 framed with before | ⟨rfl, -⟩
      · obtain ⟨other, frame, member, isFrame⟩ := before
        rcases Nat.lt_or_eq_of_le (recording.within _ member) with below | same
        · exact .inl ⟨below, other, frame, member, isFrame⟩
        · exact .inr ⟨same ▸ framed, same⟩
      · exact .inr ⟨framed, rfl⟩
  case pending =>
    refine iff_of_false (fun ⟨_, same⟩ => by cases same) ?_
    rintro ⟨other, frame, member, -⟩
    rcases List.mem_append.1 member with before | here
    · have := recording.within _ before
      dsimp only at this
      omega
    · obtain ⟨-, same⟩ := Prod.mk.inj (List.mem_singleton.1 here)
      omega
  case within => exact recording.within_snoc width

/-- A block without bytes passes its frame or the pending one on, and bytes take it. -/
theorem placeRecorded_cases (laid : LaidCode) (recorded : LaidCode.Recorded) (block : Nat) :
    Layout.blockWidth laid.blocks block = 0 ∧ laid.placeRecorded recorded block =
        ⟨recorded.placed, (frameOf? laid.blocks block).or recorded.pending⟩ ∨
      0 < Layout.blockWidth laid.blocks block ∧ ∃ placed,
        laid.placeRecorded recorded block = ⟨placed, none⟩ ∧
          ((∃ frame, (frameOf? laid.blocks block).or recorded.pending = some frame ∧
              placed = recorded.placed.push (laid.offset block, frame)) ∨
            (frameOf? laid.blocks block).or recorded.pending = none ∧ placed = recorded.placed) := by
  rw [placeRecorded, Layout.blockWidth, frameOf?]
  cases laid.blocks[block]? with
  | none => exact .inl ⟨rfl, rfl⟩
  | some code =>
    rw [Option.bind_some]
    by_cases empty : code.width = 0
    · exact .inl ⟨empty, if_pos empty⟩
    · refine .inr ⟨Nat.pos_of_ne_zero empty, _, if_neg empty, ?_⟩
      cases code.frame.or recorded.pending with
      | none => exact .inr ⟨rfl, rfl⟩
      | some frame => exact .inl ⟨frame, rfl, rfl⟩

/-- Any block comes next. -/
theorem Recording.step (recording : Recording laid starts stop recorded)
    (here : laid.offset block = stop) :
    Recording laid (starts ++ [(block, stop)]) (stop + Layout.blockWidth laid.blocks block)
      (laid.placeRecorded recorded block) := by
  rcases laid.placeRecorded_cases recorded block with ⟨empty, step⟩ | ⟨some_, placed, step, answered⟩
  · rw [empty, step]
    exact recording.empty
  · rw [step]
    exact recording.bytes some_ (here ▸ answered)

theorem recording_foldl {order : List Nat} {front : List (Nat × Nat)}
    (offsets : ∀ entry ∈ Layout.startsFrom laid.blocks stop order, laid.offset entry.1 = entry.2)
    (recording : Recording laid front stop recorded) :
    Recording laid (front ++ Layout.startsFrom laid.blocks stop order)
      (stop + (order.map (Layout.blockWidth laid.blocks)).sum)
      (order.foldl laid.placeRecorded recorded) := by
  induction order generalizing front stop recorded with
  | nil =>
    rw [Layout.startsFrom, List.append_nil]
    exact recording
  | cons block order ih =>
    rw [Layout.startsFrom, List.forall_mem_cons] at offsets
    have onward := ih offsets.2 (recording.step offsets.1)
    rwa [List.append_assoc, List.singleton_append, Nat.add_assoc] at onward

/-- Recorded frames stand at increasing offsets, just where blocks with frames start before
the end. -/
theorem recordedFrames_spec
    (offsets : ∀ entry ∈ Layout.starts laid.blocks laid.order, laid.offset entry.1 = entry.2) :
    (laid.recordedFrames.map Prod.fst).Pairwise (· < ·) ∧
      ∀ offset, offset ∈ laid.recordedFrames.map Prod.fst ↔
        offset < Layout.length laid.blocks laid.order ∧
          laid.FramedAt (Layout.starts laid.blocks laid.order) offset := by
  have recording := recording_foldl offsets (@Recording.nil laid)
  rw [List.nil_append, Nat.zero_add, ← Layout.length_eq_sum] at recording
  exact ⟨recording.increasing, recording.exact⟩

/-! ## Frames that are passed on -/

section

variable {Fits : Nat → BlockFrame → Prop}

/-- What fits a block without bytes fits the next one if that has no frame. -/
def PassesOn (laid : LaidCode) (Fits : Nat → BlockFrame → Prop) (block next : Nat) : Prop :=
  Layout.blockWidth laid.blocks block = 0 → frameOf? laid.blocks next = none →
    ∀ frame, Fits block frame → Fits next frame

/-- A placed frame fits the block whose bytes it stands at. -/
def FitsAt (laid : LaidCode) (Fits : Nat → BlockFrame → Prop) (placed : Nat × BlockFrame) : Prop :=
  ∃ block ∈ laid.order, 0 < Layout.blockWidth laid.blocks block ∧ laid.offset block = placed.1 ∧
    Fits block placed.2

theorem fitsAt_foldl {order : List Nat} {last? : Option Nat}
    (own : ∀ block ∈ order, ∀ frame, frameOf? laid.blocks block = some frame → Fits block frame)
    (chain : (last?.toList ++ order).IsChain (laid.PassesOn Fits)) (inside : order ⊆ laid.order)
    (pending : ∀ frame, recorded.pending = some frame →
      ∃ last ∈ last?, Layout.blockWidth laid.blocks last = 0 ∧ Fits last frame)
    (placed : ∀ placed ∈ recorded.placed, laid.FitsAt Fits placed) :
    ∀ placed ∈ (order.foldl laid.placeRecorded recorded).placed, laid.FitsAt Fits placed := by
  induction order generalizing last? recorded with
  | nil => exact placed
  | cons block order ih =>
    rw [List.forall_mem_cons] at own
    have here : ∀ frame, (frameOf? laid.blocks block).or recorded.pending = some frame →
        Fits block frame := by
      intro frame known
      rcases Option.or_eq_some_iff.1 known with isFrame | ⟨missing, passed⟩
      · exact own.1 frame isFrame
      · obtain ⟨last, isLast, empty, fits⟩ := pending frame passed
        obtain rfl : last? = some last := isLast
        exact (List.isChain_cons_cons.1 chain).1 empty missing frame fits
    have onward := chain.right_of_append
    rw [List.cons_subset] at inside
    rw [List.foldl_cons]
    rcases laid.placeRecorded_cases recorded block with ⟨empty, step⟩ | ⟨some_, after, step, answered⟩
    · rw [step]
      refine @ih _ (some block) own.2 onward inside.2 (fun frame passed => ?_) placed
      exact ⟨block, rfl, empty, here frame passed⟩
    · rw [step]
      refine @ih _ (some block) own.2 onward inside.2 (by rintro _ ⟨⟩) fun entry member => ?_
      rcases answered with ⟨frame, isFrame, rfl⟩ | ⟨-, rfl⟩
      · rcases Array.mem_push.1 member with before | rfl
        · exact placed entry before
        · exact ⟨block, inside.1, some_, rfl, here frame isFrame⟩
      · exact placed entry member

/-- Recorded frames fit where they stand if each fits its own block and blocks without
bytes pass on what fits. -/
theorem recordedFrames_fit
    (own : ∀ block ∈ laid.order, ∀ frame, frameOf? laid.blocks block = some frame →
      Fits block frame)
    (chain : laid.order.IsChain (laid.PassesOn Fits)) :
    ∀ placed ∈ laid.recordedFrames, laid.FitsAt Fits placed := by
  intro placed member
  refine @fitsAt_foldl _ _ _ _ none own chain (List.Subset.refl _) ?_ ?_ placed
    (Array.mem_toList_iff.1 member)
  · rintro _ ⟨⟩
  · exact fun _ member => absurd member (Array.not_mem_empty _)

end

end LaidCode
end ClassFile
