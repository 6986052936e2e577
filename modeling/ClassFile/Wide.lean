namespace ClassFile

/-!
# Widths

Much of a class file is counted in units of which an element may take several:
constants and local variables in slots, instructions in bytes.
-/

/-- Elements that take up a number of slots or bytes. -/
class Wide (α : Type) where
  width : α → Nat

/-- Elements known by their width alone. -/
instance : Wide Nat := ⟨id⟩

namespace Wide

variable {α : Type} [Wide α]

/-- The width of elements side by side. -/
def total (elements : List α) : Nat :=
  elements.foldl (fun width element => width + Wide.width element) 0

theorem foldl_width (elements : List α) (width : Nat) :
    elements.foldl (fun width element => width + Wide.width element) width =
      width + total elements := by
  induction elements generalizing width with
  | nil => rfl
  | cons element elements ih =>
    rw [total, List.foldl_cons, List.foldl_cons, ih, ih (0 + _), Nat.zero_add, Nat.add_assoc]

@[simp] theorem total_nil : total ([] : List α) = 0 :=
  rfl

@[simp] theorem total_cons (element : α) (elements : List α) :
    total (element :: elements) = Wide.width element + total elements := by
  rw [total, List.foldl_cons, foldl_width, Nat.zero_add]

@[simp] theorem total_append (front back : List α) :
    total (front ++ back) = total front + total back := by
  rw [total, List.foldl_append, foldl_width]
  rfl

end Wide
end ClassFile
