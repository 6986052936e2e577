import Mathlib.Algebra.BigOperators.Ring.List
import Mathlib.Algebra.Order.Ring.Nat
import Mathlib.Algebra.Order.BigOperators.Group.List
import ClassFile.Code.Layout

namespace ClassFile
namespace Layout

/-!
# Offsets as sums of widths

In a layout without repeated blocks, the offset of a block is the sum of the
widths before it.  The widths are a parameter here, so that layouts whose blocks
grow in place are measured in the same way.
-/

/-- Where a block starts when the blocks of an order have the given widths. -/
def startOf (width : Nat → Nat) (order : List Nat) (block : Nat) : Nat :=
  ((order.take (order.idxOf block)).map width).sum

section

variable {width : Nat → Nat} {order front back : List Nat} {block : Nat}

theorem idxOf_append_cons (distinct : (front ++ block :: back).Nodup) :
    (front ++ block :: back).idxOf block = front.length := by
  have fresh : block ∉ front :=
    fun inside => (List.nodup_append.1 distinct).2.2 block inside block List.mem_cons_self rfl
  rw [List.idxOf_append_of_notMem fresh, List.idxOf_cons_self, Nat.add_zero]

theorem startOf_append_cons (distinct : (front ++ block :: back).Nodup) :
    startOf width (front ++ block :: back) block = (front.map width).sum := by
  rw [startOf, idxOf_append_cons distinct, List.take_left]

/-- Blocks laid out in the order of the arena. -/
theorem startOf_range (width : Nat → Nat) {count : Nat} (below : block < count) :
    startOf width (List.range count) block = ((List.range block).map width).sum := by
  have inside : block < (List.range count).length := by rwa [List.length_range]
  have index : (List.range count).idxOf block = block := by
    have found := List.nodup_range.idxOf_getElem block inside
    rwa [List.getElem_range] at found
  rw [startOf, index, List.take_range, Nat.min_eq_left (Nat.le_of_lt below)]

/-- Every block counts for those after it. -/
theorem startOf_eq_sum (distinct : order.Nodup) (block : Nat) :
    startOf width order block =
      (order.map fun other => if order.idxOf other < order.idxOf block then width other else 0).sum := by
  have split := List.take_append_drop (order.idxOf block) order
  have before : (order.take (order.idxOf block)).map width =
      (order.take (order.idxOf block)).map fun other =>
        if order.idxOf other < order.idxOf block then width other else 0 := by
    refine List.map_congr_left fun other member => (if_pos ?_).symm
    obtain ⟨index, inside, rfl⟩ := List.mem_iff_getElem.1 member
    rw [List.length_take] at inside
    rw [List.getElem_take, distinct.idxOf_getElem]
    omega
  have after : ∀ bytes ∈ (order.drop (order.idxOf block)).map fun other =>
      if order.idxOf other < order.idxOf block then width other else 0, bytes = 0 := by
    intro bytes member
    obtain ⟨other, later, rfl⟩ := List.mem_map.1 member
    obtain ⟨index, inside, rfl⟩ := List.mem_iff_getElem.1 later
    rw [List.getElem_drop, distinct.idxOf_getElem]
    exact if_neg (by omega)
  conv_rhs => rw [← split, List.map_append, List.sum_append, split, List.sum_eq_zero after]
  rw [startOf, before, Nat.add_zero]

/-- The widths from one place of an order up to another. -/
def between (width : Nat → Nat) (order : List Nat) (first last : Nat) : Nat :=
  (order.map fun block =>
    if first ≤ order.idxOf block ∧ order.idxOf block < last then width block else 0).sum

theorem startOf_eq_add_between (width : Nat → Nat) (distinct : order.Nodup) {earlier later : Nat}
    (inOrder : order.idxOf earlier ≤ order.idxOf later) :
    startOf width order later =
      startOf width order earlier +
        between width order (order.idxOf earlier) (order.idxOf later) := by
  rw [startOf_eq_sum distinct, startOf_eq_sum distinct, between, ← List.sum_map_add]
  refine congrArg List.sum (List.map_congr_left fun other _ => ?_)
  split_ifs <;> omega

theorem le_between (width : Nat → Nat) (placed : block ∈ order) {first last : Nat}
    (after : first ≤ order.idxOf block) (before : order.idxOf block < last) :
    width block ≤ between width order first last := by
  refine List.le_sum_of_mem (List.mem_map.2 ⟨block, placed, ?_⟩)
  exact if_pos ⟨after, before⟩

theorem startOf_add (more : Nat → Nat) (order : List Nat) (block : Nat) :
    startOf (fun other => width other + more other) order block =
      startOf width order block + startOf more order block := by
  rw [startOf, List.sum_map_add, startOf, startOf]

theorem between_le_mul (width : Nat → Nat) (order : List Nat) (factor : Nat) (more : Nat → Nat)
    (bounded : ∀ block ∈ order, more block ≤ factor * width block) (first last : Nat) :
    between more order first last ≤ factor * between width order first last := by
  rw [between, between, ← List.sum_map_mul_left]
  refine List.sum_le_sum fun block placed => ?_
  have bound := bounded block placed
  split_ifs
  · exact bound
  · exact Nat.zero_le _

end

variable {φ ι : Type} [Wide ι]

theorem total_eq_sum (widths : List Nat) : Wide.total widths = widths.sum := by
  induction widths with
  | nil => rfl
  | cons width rest ih => rw [Wide.total_cons, ih, List.sum_cons]; rfl

theorem length_eq_sum (blocks : Array (Block φ ι)) (order : List Nat) :
    length blocks order = (order.map (blockWidth blocks)).sum :=
  total_eq_sum _

/-! ## Starts -/

theorem startsFrom_getElem? (blocks : Array (Block φ ι)) (offset : Nat) (order : List Nat)
    (index : Nat) :
    (startsFrom blocks offset order)[index]? =
      order[index]?.map fun block =>
        (block, offset + ((order.take index).map (blockWidth blocks)).sum) := by
  induction order generalizing offset index with
  | nil => rfl
  | cons block order ih =>
    cases index with
    | zero => rfl
    | succ index =>
      rw [startsFrom, List.getElem?_cons_succ, ih, List.getElem?_cons_succ, List.take_succ_cons,
        List.map_cons, List.sum_cons]
      simp only [Nat.add_assoc]

theorem startsFrom_append (blocks : Array (Block φ ι)) (offset : Nat) (front back : List Nat) :
    startsFrom blocks offset (front ++ back) =
      startsFrom blocks offset front ++
        startsFrom blocks (offset + (front.map (blockWidth blocks)).sum) back := by
  induction front generalizing offset with
  | nil => rfl
  | cons block front ih =>
    rw [List.cons_append, startsFrom, ih, startsFrom, List.map_cons, List.sum_cons,
      Nat.add_assoc, List.cons_append]

/-- Only the widths of blocks tell where they start. -/
theorem starts_congr {blocks others : Array (Block φ ι)}
    (widths : blockWidth blocks = blockWidth others) (order : List Nat) :
    starts blocks order = starts others order := by
  have from_ : ∀ (order : List Nat) (offset : Nat),
      startsFrom blocks offset order = startsFrom others offset order := by
    intro order
    induction order with
    | nil => exact fun _ => rfl
    | cons block order ih =>
      intro offset
      rw [startsFrom, startsFrom, ih, widths]
  exact from_ order 0

theorem startsFrom_map_fst (blocks : Array (Block φ ι)) (offset : Nat) (order : List Nat) :
    (startsFrom blocks offset order).map Prod.fst = order := by
  induction order generalizing offset with
  | nil => rfl
  | cons block order ih => rw [startsFrom, List.map_cons, ih]

theorem starts_map_fst (blocks : Array (Block φ ι)) (order : List Nat) :
    (starts blocks order).map Prod.fst = order :=
  startsFrom_map_fst blocks 0 order

/-- The widths up to the end of a block. -/
theorem sum_take_succ {width : Nat → Nat} {order : List Nat} {index block : Nat}
    (found : order[index]? = some block) :
    ((order.take (index + 1)).map width).sum = ((order.take index).map width).sum + width block := by
  rw [List.take_add_one, found, List.map_append, List.sum_append, Option.toList_some,
    List.map_singleton, List.sum_singleton]

/-- Later blocks start behind the ones before. -/
theorem starts_apart {blocks : Array (Block φ ι)} {order : List Nat} {index later : Nat}
    {start start' : Nat × Nat} (ahead : index < later) (found : (starts blocks order)[index]? = some start)
    (found' : (starts blocks order)[later]? = some start') :
    start.2 + blockWidth blocks start.1 ≤ start'.2 := by
  rw [starts, startsFrom_getElem?, Option.map_eq_some_iff] at found found'
  obtain ⟨block, isBlock, rfl⟩ := found
  obtain ⟨block', -, rfl⟩ := found'
  dsimp only
  rw [Nat.zero_add, Nat.zero_add, ← sum_take_succ isBlock]
  exact ((List.take_sublist_take_left (Nat.succ_le_of_lt ahead)).map _).sum_le_sum
    fun _ _ => Nat.zero_le _

theorem starts_getElem? {blocks : Array (Block φ ι)} {order : List Nat} {block : Nat}
    (placed : block ∈ order) :
    (starts blocks order)[order.idxOf block]? =
      some (block, startOf (blockWidth blocks) order block) := by
  have inside := List.idxOf_lt_length_of_mem placed
  rw [starts, startsFrom_getElem?, List.getElem?_eq_getElem inside, Option.map_some,
    List.getElem_idxOf, Nat.zero_add, startOf]

/-- Every block ends within the layout. -/
theorem starts_le_length {blocks : Array (Block φ ι)} {order : List Nat} {start : Nat × Nat}
    (member : start ∈ starts blocks order) :
    start.2 + blockWidth blocks start.1 ≤ length blocks order := by
  obtain ⟨index, found⟩ := List.mem_iff_getElem?.1 member
  rw [starts, startsFrom_getElem?, Option.map_eq_some_iff] at found
  obtain ⟨block, isBlock, rfl⟩ := found
  dsimp only
  rw [Nat.zero_add, ← sum_take_succ isBlock, length_eq_sum]
  exact ((List.take_sublist _ _).map _).sum_le_sum fun _ _ => Nat.zero_le _

/-! ## Offsets by block -/

theorem foldl_set_of_notMem {pairs : List (Nat × Nat)} {block : Nat}
    (absent : block ∉ pairs.map Prod.fst) (offsets : Array Nat) :
    (pairs.foldl (fun offsets pair => offsets.setIfInBounds pair.1 pair.2) offsets)[block]? =
      offsets[block]? := by
  induction pairs generalizing offsets with
  | nil => rfl
  | cons pair pairs ih =>
    rw [List.map_cons, List.mem_cons, not_or] at absent
    rw [List.foldl_cons, ih absent.2, Array.getElem?_setIfInBounds_ne (Ne.symm absent.1)]

theorem foldl_set_of_mem {pairs : List (Nat × Nat)} {block offset : Nat}
    (distinct : (pairs.map Prod.fst).Nodup) (member : (block, offset) ∈ pairs)
    {offsets : Array Nat} (inside : block < offsets.size) :
    (pairs.foldl (fun offsets pair => offsets.setIfInBounds pair.1 pair.2) offsets)[block]? =
      some offset := by
  induction pairs generalizing offsets with
  | nil => cases member
  | cons pair pairs ih =>
    rw [List.map_cons, List.nodup_cons] at distinct
    rw [List.foldl_cons]
    rcases List.mem_cons.1 member with rfl | later
    · rw [foldl_set_of_notMem distinct.1, Array.getElem?_setIfInBounds_self_of_lt inside]
    · exact ih distinct.2 later (by rwa [Array.size_setIfInBounds])

theorem size_foldl_set (pairs : List (Nat × Nat)) (offsets : Array Nat) :
    (pairs.foldl (fun offsets pair => offsets.setIfInBounds pair.1 pair.2) offsets).size =
      offsets.size := by
  induction pairs generalizing offsets with
  | nil => rfl
  | cons pair pairs ih => exact (ih _).trans Array.size_setIfInBounds

theorem size_offsets (blocks : Array (Block φ ι)) (order : List Nat) :
    (offsets blocks order).size = blocks.size :=
  (size_foldl_set _ _).trans Array.size_replicate

/-- Every start is where its block is found. -/
theorem offsets_of_mem_starts {blocks : Array (Block φ ι)} {order : List Nat} {start : Nat × Nat}
    (distinct : order.Nodup) (member : start ∈ starts blocks order)
    (inside : start.1 < blocks.size) : (offsets blocks order)[start.1]? = some start.2 := by
  refine foldl_set_of_mem ?_ member ?_
  · rwa [starts_map_fst]
  · rwa [Array.size_replicate]

/-- A block is found where it was placed last. -/
theorem offsets_append_cons {blocks : Array (Block φ ι)} {front back : List Nat} {block : Nat}
    (last : block ∉ back) (inside : block < blocks.size) :
    (offsets blocks (front ++ block :: back))[block]? =
      some (front.map (blockWidth blocks)).sum := by
  rw [offsets, starts, startsFrom_append, startsFrom, Nat.zero_add, List.foldl_append,
    List.foldl_cons, foldl_set_of_notMem, Array.getElem?_setIfInBounds_self_of_lt]
  · rwa [size_foldl_set, Array.size_replicate]
  · rwa [startsFrom_map_fst]

theorem foldl_set_le {pairs : List (Nat × Nat)} {bound : Nat} (small : ∀ pair ∈ pairs, pair.2 ≤ bound)
    {offsets : Array Nat} (start : ∀ offset ∈ offsets, offset ≤ bound) :
    ∀ offset ∈ pairs.foldl (fun offsets pair => offsets.setIfInBounds pair.1 pair.2) offsets,
      offset ≤ bound := by
  induction pairs generalizing offsets with
  | nil => exact start
  | cons pair pairs ih =>
    rw [List.forall_mem_cons] at small
    refine ih small.2 fun offset member => ?_
    rcases Array.mem_or_eq_of_mem_setIfInBounds member with before | rfl
    · exact start offset before
    · exact small.1

/-- No offset is beyond the end of the layout. -/
theorem offsets_le_length {blocks : Array (Block φ ι)} {order : List Nat} {offset : Nat}
    (member : offset ∈ offsets blocks order) : offset ≤ length blocks order := by
  refine foldl_set_le (fun pair isPair => ?_) (fun offset isOffset => ?_) offset member
  · exact Nat.le_trans (Nat.le_add_right _ _) (starts_le_length isPair)
  · rw [(Array.mem_replicate.1 isOffset).2]
    exact Nat.zero_le _

theorem offsets_congr {blocks others : Array (Block φ ι)}
    (widths : blockWidth blocks = blockWidth others) (size : blocks.size = others.size)
    (order : List Nat) : offsets blocks order = offsets others order := by
  rw [offsets, offsets, starts_congr widths, size]

/-- A placed block is found at the sum of the widths before it. -/
theorem offsets_getElem? {blocks : Array (Block φ ι)} {order : List Nat} {block : Nat}
    (distinct : order.Nodup) (placed : block ∈ order) (inside : block < blocks.size) :
    (offsets blocks order)[block]? = some (startOf (blockWidth blocks) order block) :=
  offsets_of_mem_starts distinct (List.mem_of_getElem? (starts_getElem? placed)) inside

end Layout
end ClassFile
