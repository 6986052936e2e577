import ClassFile.Wide

namespace ClassFile

/-!
# Vectors of elements that take several slots

The constant pool counts entries in slots, and a `long` or a `double` takes two
of them.  A `SlotVector` lays its elements back to back from a first slot and
finds them by position or by the slot they start at.  That the elements are
laid out without gaps is part of the type, so `start` and the widths alone fix
where everything is.
-/

/-- Elements back to back from slot `start` to slot `stop`, each beside the slot
it starts at. -/
def Contiguous {α : Type} [Wide α] (start stop : Nat) : List (Nat × α) → Prop
  | [] => start = stop
  | (slot, element) :: rest => slot = start ∧ Contiguous (start + Wide.width element) stop rest

namespace Contiguous

variable {α : Type} [Wide α] {start stop : Nat} {cells : List (Nat × α)}

theorem concat (laid : Contiguous start stop cells) (element : α) :
    Contiguous start (stop + Wide.width element) (cells ++ [(stop, element)]) := by
  induction cells generalizing start with
  | nil => cases laid; exact ⟨rfl, rfl⟩
  | cons cell cells ih => exact ⟨laid.1, ih laid.2⟩

theorem of_concat {cell : Nat × α} (laid : Contiguous start stop (cells ++ [cell])) :
    Contiguous start cell.1 cells := by
  induction cells generalizing start with
  | nil => exact laid.1.symm
  | cons _ _ ih => exact ⟨laid.1, ih laid.2⟩

theorem map {f : α → α} (same : ∀ a, Wide.width (f a) = Wide.width a)
    (laid : Contiguous start stop cells) :
    Contiguous start stop (cells.map fun cell => (cell.1, f cell.2)) := by
  induction cells generalizing start with
  | nil => exact laid
  | cons cell cells ih => exact ⟨laid.1, by rw [same]; exact ih laid.2⟩

/-- Other elements of the same widths fit in. -/
theorem zip {elements : List α} (laid : Contiguous start stop cells)
    (same : elements.map Wide.width = (cells.map Prod.snd).map Wide.width) :
    Contiguous start stop ((cells.map Prod.fst).zip elements) := by
  induction cells generalizing start elements with
  | nil => exact laid
  | cons cell cells ih =>
    cases elements with
    | nil => cases same
    | cons element elements =>
      rw [List.map_cons, List.map_cons, List.map_cons, List.cons.injEq] at same
      exact ⟨laid.1, by rw [same.1]; exact ih laid.2 same.2⟩

/-- The last slot is the first one plus all widths. -/
theorem stop_eq (laid : Contiguous start stop cells) :
    stop = start + Wide.total (cells.map Prod.snd) := by
  induction cells generalizing start with
  | nil => exact laid.symm
  | cons cell cells ih => rw [ih laid.2, List.map_cons, Wide.total_cons, Nat.add_assoc]

end Contiguous

structure SlotVector (α : Type) [Wide α] where
  start : Nat
  cells : Array (Nat × α)
  stop : Nat
  laid : Contiguous start stop cells.toList

namespace SlotVector

variable {α : Type} [Wide α]

def empty (start : Nat) : SlotVector α :=
  ⟨start, #[], start, rfl⟩

/-- The number of elements. -/
def size (vector : SlotVector α) : Nat :=
  vector.cells.size

def totalWidth (vector : SlotVector α) : Nat :=
  vector.stop - vector.start

def toList (vector : SlotVector α) : List α :=
  vector.cells.toList.map Prod.snd

/-- Append an element, which starts at the old `stop`. -/
def push (vector : SlotVector α) (element : α) : SlotVector α where
  start := vector.start
  cells := vector.cells.push (vector.stop, element)
  stop := vector.stop + Wide.width element
  laid := by rw [Array.toList_push]; exact vector.laid.concat element

@[simp] theorem toList_push (vector : SlotVector α) (element : α) :
    (vector.push element).toList = vector.toList ++ [element] := by
  simp [toList, push]

def append (vector : SlotVector α) (elements : List α) : SlotVector α :=
  elements.foldl push vector

/-- Take off the last element. -/
def pop? (vector : SlotVector α) : Option (α × SlotVector α) :=
  if filled : 0 < vector.cells.size then
    let last := vector.cells.back filled
    some (last.2, {
      start := vector.start
      cells := vector.cells.pop
      stop := last.1
      laid := by
        have nonempty : vector.cells.toList ≠ [] := by
          intro none
          rw [Array.toList_eq_nil_iff.1 none] at filled
          exact absurd filled (Nat.lt_irrefl 0)
        have laid := vector.laid
        rw [← List.dropLast_concat_getLast nonempty, Array.getLast_toList] at laid
        rw [Array.toList_pop]
        exact laid.of_concat })
  else none

/-- Change every element without changing widths. -/
def map (vector : SlotVector α) (f : α → α) (same : ∀ a, Wide.width (f a) = Wide.width a) :
    SlotVector α where
  start := vector.start
  cells := vector.cells.map fun cell => (cell.1, f cell.2)
  stop := vector.stop
  laid := by rw [Array.toList_map]; exact vector.laid.map same

/-- What elements become when each is changed by what it is and by the elements before it
as they were. -/
def changedAfter {α : Type} (change : List α → α → α) (before : List α) : List α → List α
  | [] => []
  | element :: rest => change before element :: changedAfter change (before ++ [element]) rest

/-- Change the elements one after the other, where a change may remember the elements that
it has seen.  It fails if the width of one would change. -/
def update? (vector : SlotVector α) (change : List α → α → α) : Option (SlotVector α) :=
  let changed := changedAfter change [] vector.toList
  if same : changed.map Wide.width = vector.toList.map Wide.width then
    some {
      start := vector.start
      cells := ((vector.cells.toList.map Prod.fst).zip changed).toArray
      stop := vector.stop
      laid := vector.laid.zip same }
  else none

def get? (vector : SlotVector α) (position : Nat) : Option α :=
  vector.cells[position]?.map Prod.snd

/-- Of the `size` cells from `first` on, the position of the last one that does
not start after `slot`, or `first` if all of them do. -/
def search (cells : Array (Nat × α)) (slot first size : Nat) : Nat :=
  if size ≤ 1 then first
  else
    let middle := first + size / 2
    match cells[middle]? with
    | some cell =>
      search cells slot (if slot < cell.1 then first else middle) (size - size / 2)
    | none => first
termination_by size

/-- The element that starts exactly at `slot`.  A slot inside a wide element
finds nothing. -/
def find? (vector : SlotVector α) (slot : Nat) : Option α :=
  match vector.cells[search vector.cells slot 0 vector.cells.size]? with
  | some cell => if cell.1 = slot then some cell.2 else none
  | none => none

/-- The elements by the slots they start at, in braces. -/
def text (vector : SlotVector α) (render : α → String) : String :=
  let cells := vector.cells.toList.map fun cell => toString cell.1 ++ ": " ++ render cell.2
  "\x7b" ++ ", ".intercalate cells ++ "\x7d"

end SlotVector
end ClassFile
