import Mathlib.Data.List.Basic
import ClassFile.SlotVector

namespace ClassFile

/-!
# Finding elements by slot

When every element takes at least one slot, elements back to back start at
increasing slots.  Halving the cells then finds the one that starts at a slot,
and nothing at a slot where none starts.
-/

namespace Contiguous

variable {α : Type} [Wide α] {start stop : Nat} {cells front back : List (Nat × α)}

theorem bounds (laid : Contiguous start stop cells) {cell : Nat × α} (member : cell ∈ cells) :
    start ≤ cell.1 ∧ cell.1 + Wide.width cell.2 ≤ stop := by
  induction cells generalizing start with
  | nil => cases member
  | cons first rest ih =>
    have behind : start + Wide.width first.2 ≤ stop := by
      rw [laid.2.stop_eq]
      exact Nat.le_add_right _ _
    rcases List.mem_cons.mp member with rfl | later
    · rw [laid.1]
      exact ⟨Nat.le_refl _, behind⟩
    · have there := ih laid.2 later
      exact ⟨Nat.le_trans (Nat.le_add_right _ _) there.1, there.2⟩

theorem sorted (laid : Contiguous start stop cells)
    (positive : ∀ cell ∈ cells, 0 < Wide.width cell.2) :
    cells.Pairwise fun earlier later => earlier.1 < later.1 := by
  induction cells generalizing start with
  | nil => exact .nil
  | cons first rest ih =>
    rw [List.forall_mem_cons] at positive
    refine .cons (fun cell member => ?_) (ih laid.2 positive.2)
    have after := (laid.2.bounds member).1
    have wide := positive.1
    rw [laid.1]
    omega

/-- The elements and the first slot say where everything is. -/
theorem cells_eq {other : List (Nat × α)} {stop' : Nat} (laid : Contiguous start stop cells)
    (laid' : Contiguous start stop' other) (same : cells.map Prod.snd = other.map Prod.snd) :
    cells = other := by
  induction cells generalizing start other with
  | nil =>
    rw [List.map_nil, eq_comm, List.map_eq_nil_iff] at same
    exact same.symm
  | cons first rest ih =>
    cases other with
    | nil => cases same
    | cons first' rest' =>
      rw [List.map_cons, List.map_cons, List.cons.injEq] at same
      have heads : first = first' := Prod.ext (laid.1.trans laid'.1.symm) same.1
      subst heads
      rw [ih laid.2 laid'.2 same.2]

end Contiguous

namespace SlotVector

variable {α : Type}

theorem slot_lt_iff {cells : Array (Nat × α)}
    (sorted : cells.toList.Pairwise fun earlier later => earlier.1 < later.1)
    {i j : Nat} {here there : Nat × α} (atI : cells[i]? = some here)
    (atJ : cells[j]? = some there) : here.1 < there.1 ↔ i < j := by
  have pairwise := List.pairwise_iff_getElem.mp sorted
  rw [← Array.getElem?_toList, List.getElem?_eq_some_iff] at atI atJ
  rcases atI with ⟨inside, rfl⟩
  rcases atJ with ⟨inside', rfl⟩
  constructor
  · intro less
    by_contra notBefore
    rcases Nat.lt_or_eq_of_le (Nat.le_of_not_lt notBefore) with before | same
    · exact Nat.lt_asymm less (pairwise j i inside' inside before)
    · subst same
      exact Nat.lt_irrefl _ less
  · exact pairwise i j inside inside'

/-- The search ends at the cell that starts at the slot, if one of the cells it
looks at does. -/
theorem search_eq {cells : Array (Nat × α)} {slot first size place : Nat} {element : α}
    (sorted : cells.toList.Pairwise fun earlier later => earlier.1 < later.1)
    (here : cells[place]? = some (slot, element)) (lower : first ≤ place)
    (upper : place < first + size) (bounded : first + size ≤ cells.size) :
    search cells slot first size = place := by
  fun_induction search cells slot first size with
  | case1 first size small => omega
  | case2 first size large middle cell found ih =>
    apply ih
    · split
      · exact lower
      · next notBefore =>
        by_contra before
        exact notBefore ((slot_lt_iff sorted here found).mpr (Nat.lt_of_not_le before))
    · split
      · next before =>
        have := (slot_lt_iff sorted here found).mp before
        omega
      · omega
    · split <;> omega
  | case3 first size large middle none =>
    have inside : first + size / 2 < cells.size := by omega
    rw [Array.getElem?_eq_getElem inside] at none
    cases none

variable [Wide α]

/-- Vectors with the same elements from the same slot on are the same. -/
theorem eq_of_toList {first second : SlotVector α} (start : first.start = second.start)
    (same : first.toList = second.toList) : first = second := by
  rcases first with ⟨start₁, cells₁, stop₁, laid₁⟩
  rcases second with ⟨start₂, cells₂, stop₂, laid₂⟩
  change start₁ = start₂ at start
  change cells₁.toList.map Prod.snd = cells₂.toList.map Prod.snd at same
  subst start
  have cells : cells₁ = cells₂ := Array.toList_inj.mp (laid₁.cells_eq laid₂ same)
  subst cells
  have stop : stop₁ = stop₂ := laid₁.stop_eq.trans laid₂.stop_eq.symm
  subst stop
  rfl

variable {vector : SlotVector α} {slot : Nat} {element : α}

/-- An element is found at a slot exactly if it starts there. -/
theorem find?_eq_some (positive : ∀ a ∈ vector.toList, 0 < Wide.width a) :
    vector.find? slot = some element ↔ (slot, element) ∈ vector.cells.toList := by
  rw [find?]
  constructor
  · intro found
    split at found
    · next cell there =>
      split at found
      · next same =>
        subst same
        rw [← Option.some.inj found]
        exact Array.mem_toList_iff.mpr (Array.mem_of_getElem? there)
      · cases found
    · cases found
  · intro member
    rcases List.mem_iff_getElem?.mp member with ⟨place, here⟩
    rw [Array.getElem?_toList] at here
    have inside := (Array.getElem?_eq_some_iff.mp here).1
    have wide : ∀ cell ∈ vector.cells.toList, 0 < Wide.width cell.2 :=
      fun cell isCell => positive cell.2 (List.mem_map_of_mem isCell)
    rw [search_eq (vector.laid.sorted wide) here (Nat.zero_le _)
      (by rwa [Nat.zero_add]) (Nat.le_of_eq (Nat.zero_add _)), here]
    exact if_pos rfl

end SlotVector
end ClassFile
