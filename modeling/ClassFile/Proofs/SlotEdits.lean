import ClassFile.Pool.Constant
import ClassFile.Proofs.Slots

namespace ClassFile

/-!
# Vectors that were edited

A vector is edited by pushing elements onto it, taking the last one off, and changing elements
without changing their widths.  Where an element starts is stored beside it and looked up by
halving, but it always is what the list of elements says: the first slot and the widths of
the elements before.  So a slot finds the element that starts there, and a slot inside a wide
element or out of bounds finds nothing.
-/

namespace Contiguous

variable {α : Type} [Wide α] {start stop slot : Nat} {cells : List (Nat × α)} {element : α}

/-- An element starts where those before it end. -/
theorem getElem?_eq (laid : Contiguous start stop cells) {front back : List α}
    (split : cells.map Prod.snd = front ++ element :: back) :
    cells[front.length]? = some (start + Wide.total front, element) := by
  induction cells generalizing start front with
  | nil => exact absurd split.symm (List.append_ne_nil_of_right_ne_nil front (List.cons_ne_nil _ _))
  | cons cell cells ih =>
    rw [List.map_cons] at split
    cases front with
    | nil =>
      have first := (List.cons.inj split).1
      rw [List.length_nil, List.getElem?_cons_zero, Wide.total_nil, Nat.add_zero, ← laid.1, ← first]
    | cons other front =>
      have heads := (List.cons.inj split).1
      rw [List.length_cons, List.getElem?_cons_succ, Wide.total_cons, ← Nat.add_assoc, ← heads]
      exact ih laid.2 (List.cons.inj split).2

theorem mem_iff (laid : Contiguous start stop cells) : (slot, element) ∈ cells ↔
    ∃ front back, cells.map Prod.snd = front ++ element :: back ∧
      slot = start + Wide.total front := by
  constructor
  · intro member
    obtain ⟨front, back, rfl⟩ := List.append_of_mem member
    have split : (front ++ (slot, element) :: back).map Prod.snd =
        front.map Prod.snd ++ element :: back.map Prod.snd := by
      rw [List.map_append, List.map_cons]
    have here := laid.getElem?_eq split
    rw [List.length_map, List.getElem?_append_right (Nat.le_refl _), Nat.sub_self,
      List.getElem?_cons_zero, Option.some.injEq, Prod.mk.injEq] at here
    exact ⟨_, _, split, here.1⟩
  · rintro ⟨front, back, split, rfl⟩
    exact List.mem_of_getElem? (laid.getElem?_eq split)

end Contiguous

namespace SlotVector

/-! ## Changing elements in place -/

section

variable {α : Type}

theorem length_changedAfter (change : List α → α → α) (before elements : List α) :
    (changedAfter change before elements).length = elements.length := by
  induction elements generalizing before with
  | nil => rfl
  | cons element rest ih => exact congrArg Nat.succ (ih _)

/-- A change that looks at nothing else is made to each element by itself. -/
theorem changedAfter_const (change : α → α) (before elements : List α) :
    changedAfter (fun _ => change) before elements = elements.map change := by
  induction elements generalizing before with
  | nil => rfl
  | cons element rest ih => rw [changedAfter, ih, List.map_cons]

end

variable {α : Type} [Wide α]

theorem map_width_changedAfter {change : List α → α → α} {before elements : List α}
    (same : ∀ front element back, elements = front ++ element :: back →
      Wide.width (change (before ++ front) element) = Wide.width element) :
    (changedAfter change before elements).map Wide.width = elements.map Wide.width := by
  induction elements generalizing before with
  | nil => rfl
  | cons first rest ih =>
    have here := same [] first rest rfl
    rw [List.append_nil] at here
    have others : (changedAfter change (before ++ [first]) rest).map Wide.width =
        rest.map Wide.width := by
      refine ih fun front element back split => ?_
      have there := same (first :: front) element back (by rw [split, List.cons_append])
      rwa [List.append_assoc, List.singleton_append]
    rw [changedAfter, List.map_cons, List.map_cons, here, others]

theorem exists_update? (vector : SlotVector α) {change : List α → α → α}
    (same : (changedAfter change [] vector.toList).map Wide.width =
      vector.toList.map Wide.width) :
    ∃ after, vector.update? change = some after ∧
      after.toList = changedAfter change [] vector.toList ∧ after.start = vector.start := by
  refine ⟨_, dif_pos same, ?_, rfl⟩
  refine List.map_snd_zip (Nat.le_of_eq ?_)
  rw [length_changedAfter, toList, List.length_map, List.length_map]

/-- A change that keeps all widths never fails. -/
theorem update?_eq_map (vector : SlotVector α) (change : α → α)
    (same : ∀ a, Wide.width (change a) = Wide.width a) :
    vector.update? (fun _ => change) = some (vector.map change same) := by
  have widths : (changedAfter (fun _ => change) [] vector.toList).map Wide.width =
      vector.toList.map Wide.width :=
    map_width_changedAfter fun _ element _ _ => same element
  obtain ⟨after, run, elements, start⟩ := vector.exists_update? widths
  rw [run, Option.some.injEq]
  have mapped : after.toList = (vector.map change same).toList := by
    rw [elements, changedAfter_const]
    simp [toList, map]
  exact eq_of_toList start mapped

/-! ## Edits -/

theorem append_spec (vector : SlotVector α) (elements : List α) :
    (vector.append elements).toList = vector.toList ++ elements ∧
      (vector.append elements).start = vector.start := by
  induction elements generalizing vector with
  | nil => exact ⟨(List.append_nil _).symm, rfl⟩
  | cons element elements ih =>
    have rest := ih (vector.push element)
    rw [toList_push, List.append_assoc, List.singleton_append] at rest
    exact rest

theorem pop?_spec (vector : SlotVector α) :
    ((vector.pop?.map Prod.snd).getD vector).toList = vector.toList.dropLast ∧
      ((vector.pop?.map Prod.snd).getD vector).start = vector.start := by
  rw [pop?]
  split
  · refine ⟨?_, rfl⟩
    simp [toList, List.map_dropLast]
  · next empty =>
    have none : vector.cells = #[] := Array.size_eq_zero_iff.1 (Nat.eq_zero_of_not_pos empty)
    refine ⟨?_, rfl⟩
    simp [toList, none]

inductive Edit (α : Type)
  | push (element : α)
  | pop
  | extend (elements : List α)
  /-- Change every element in place, given those before it. -/
  | update (change : List α → α → α)

namespace Edit

/-- Edit a vector.  An empty one stays as it is when its last element is asked for. -/
def onVector? (vector : SlotVector α) : Edit α → Option (SlotVector α)
  | push element => some (vector.push element)
  | pop => some ((vector.pop?.map Prod.snd).getD vector)
  | extend elements => some (vector.append elements)
  | update change => vector.update? change

/-- Edit a list in the same way. -/
def onList {α : Type} (elements : List α) : Edit α → List α
  | push element => elements ++ [element]
  | pop => elements.dropLast
  | extend more => elements ++ more
  | update change => changedAfter change [] elements

/-- Elements that are changed keep their widths. -/
def KeepsWidths (elements : List α) : Edit α → Prop
  | update change => ∀ front element back, elements = front ++ element :: back →
      Wide.width (change front element) = Wide.width element
  | _ => True

/-- No edit changes the width of an element that it finds. -/
def AllKeepWidths : List α → List (Edit α) → Prop
  | _, [] => True
  | elements, edit :: edits =>
    edit.KeepsWidths elements ∧ AllKeepWidths (edit.onList elements) edits

theorem exists_onVector? {vector : SlotVector α} {edit : Edit α}
    (keeps : edit.KeepsWidths vector.toList) :
    ∃ after, edit.onVector? vector = some after ∧ after.toList = edit.onList vector.toList ∧
      after.start = vector.start := by
  cases edit with
  | push element => exact ⟨_, rfl, toList_push vector element, rfl⟩
  | pop => exact ⟨_, rfl, pop?_spec vector⟩
  | extend elements => exact ⟨_, rfl, append_spec vector elements⟩
  | update change => exact vector.exists_update? (map_width_changedAfter keeps)

/-- Edits one after the other do to a vector what they do to the list of its elements. -/
theorem exists_foldlM_onVector? {vector : SlotVector α} {edits : List (Edit α)}
    (keep : AllKeepWidths vector.toList edits) :
    ∃ after, edits.foldlM onVector? vector = some after ∧
      after.toList = edits.foldl onList vector.toList ∧ after.start = vector.start := by
  induction edits generalizing vector with
  | nil => exact ⟨vector, rfl, rfl, rfl⟩
  | cons edit edits ih =>
    obtain ⟨middle, run, elements, start⟩ := exists_onVector? keep.1
    have rest := keep.2
    rw [← elements] at rest
    obtain ⟨after, onward, isList, isStart⟩ := ih rest
    refine ⟨after, ?_, ?_, isStart.trans start⟩
    · rw [List.foldlM_cons, run]
      exact onward
    · rw [isList, elements, List.foldl_cons]

end Edit

/-! ## Looking up -/

section

variable {vector : SlotVector α} {slot : Nat} {element : α}

theorem find?_eq_some_iff_split (positive : ∀ a ∈ vector.toList, 0 < Wide.width a) :
    vector.find? slot = some element ↔
      ∃ front back, vector.toList = front ++ element :: back ∧
        slot = vector.start + Wide.total front := by
  rw [find?_eq_some positive]
  exact vector.laid.mem_iff

/-- Between the start and the end of an element, no other one starts. -/
theorem not_within {front back front' back' : List α} {element' : α}
    (same : front ++ element :: back = front' ++ element' :: back') :
    ¬ (Wide.total front < Wide.total front' ∧
      Wide.total front' < Wide.total front + Wide.width element) := by
  rcases List.append_eq_append_iff.1 same with ⟨between, rfl, tail⟩ | ⟨between, rfl, -⟩
  · cases between with
    | nil =>
      rw [List.append_nil]
      omega
    | cons first between =>
      rw [← (List.cons.inj tail).1, Wide.total_append, Wide.total_cons]
      omega
  · rw [Wide.total_append]
    omega

theorem find?_eq_none_of_inside (positive : ∀ a ∈ vector.toList, 0 < Wide.width a)
    {front back : List α} (split : vector.toList = front ++ element :: back)
    (after : vector.start + Wide.total front < slot)
    (before : slot < vector.start + Wide.total front + Wide.width element) :
    vector.find? slot = none := by
  rw [Option.eq_none_iff_forall_ne_some]
  intro other found
  obtain ⟨front', back', split', rfl⟩ := (find?_eq_some_iff_split positive).1 found
  refine not_within (split.symm.trans split') ⟨?_, ?_⟩ <;> omega

theorem find?_eq_none_of_outside (positive : ∀ a ∈ vector.toList, 0 < Wide.width a)
    (outside : slot < vector.start ∨ vector.stop ≤ slot) : vector.find? slot = none := by
  rw [Option.eq_none_iff_forall_ne_some]
  intro other found
  have bounds := vector.laid.bounds ((find?_eq_some positive).1 found)
  have wide := positive other (List.mem_map_of_mem ((find?_eq_some positive).1 found))
  dsimp only at bounds
  omega

end

/-- Whatever edits were made from a first slot on, if none of them changes the width of an
element: the elements are those of the list that is edited in the same way, every element is
stored with the first slot plus the widths of the elements before it, the next one goes to
the first slot plus all widths, and a slot finds the element that starts there and nothing
else. -/
theorem edited_found_by_start {start : Nat} {edits : List (Edit α)}
    (keep : Edit.AllKeepWidths [] edits)
    (positive : ∀ a ∈ edits.foldl Edit.onList [], 0 < Wide.width a) :
    ∃ vector, edits.foldlM Edit.onVector? (empty start) = some vector ∧
      vector.toList = edits.foldl Edit.onList [] ∧
      (∀ front element back, vector.toList = front ++ element :: back →
        vector.cells[front.length]? = some (start + Wide.total front, element)) ∧
      vector.stop = start + Wide.total vector.toList ∧
      (∀ slot element, vector.find? slot = some element ↔
        ∃ front back, vector.toList = front ++ element :: back ∧
          slot = start + Wide.total front) ∧
      (∀ front element back slot, vector.toList = front ++ element :: back →
        start + Wide.total front < slot → slot < start + Wide.total front + Wide.width element →
          vector.find? slot = none) ∧
      ∀ slot, slot < start ∨ start + Wide.total vector.toList ≤ slot →
        vector.find? slot = none := by
  obtain ⟨vector, run, elements, isStart⟩ :=
    @Edit.exists_foldlM_onVector? α _ (empty start) edits keep
  change vector.toList = edits.foldl Edit.onList [] at elements
  change vector.start = start at isStart
  rw [← elements] at positive
  subst isStart
  have stop := vector.laid.stop_eq
  refine ⟨vector, run, elements, fun front element back split => ?_, stop, fun slot element => ?_,
    fun front element back slot split => ?_, fun slot outside => ?_⟩
  · rw [← Array.getElem?_toList]
    exact vector.laid.getElem?_eq split
  · exact find?_eq_some_iff_split positive
  · exact find?_eq_none_of_inside positive split
  · exact find?_eq_none_of_outside positive (stop ▸ outside)

/-- Constants from slot 1 on, of which the second is replaced by another wide one. -/
theorem edited_found_by_start_constants :
    ∃ vector, [Edit.push (Constant.integer 1), .extend [.long 2, .float 3, .integer 4], .pop,
        .update fun before constant => if before.length = 1 then .double 5 else constant].foldlM
          Edit.onVector? (empty 1) = some vector ∧
      vector.toList = [.integer 1, .double 5, .float 3] ∧ vector.stop = 5 ∧
      vector.find? 2 = some (.double 5) ∧ vector.find? 3 = none ∧ vector.find? 5 = none := by
  have replaced : ∀ front element back,
      [Constant.integer 1, .long 2, .float 3] = front ++ element :: back →
        Wide.width (if front.length = 1 then Constant.double 5 else element) =
          Wide.width element := by
    intro front element back split
    rcases front with _ | ⟨first, _ | ⟨second, front⟩⟩
    · rfl
    · cases split
      rfl
    · rfl
  obtain ⟨vector, run, elements, -, stop, found, within, outside⟩ :=
    @edited_found_by_start Constant _ 1
      [.push (.integer 1), .extend [.long 2, .float 3, .integer 4], .pop,
        .update fun before constant => if before.length = 1 then .double 5 else constant]
      ⟨trivial, trivial, trivial, replaced, trivial⟩ (by decide)
  change vector.toList = [.integer 1, .double 5, .float 3] at elements
  rw [elements] at stop found within outside
  refine ⟨vector, run, elements, stop, (found 2 _).2 ⟨[.integer 1], [.float 3], rfl, rfl⟩, ?_,
    outside 5 (by decide)⟩
  exact within [.integer 1] (.double 5) [.float 3] 3 rfl (by decide) (by decide)

end SlotVector
end ClassFile
