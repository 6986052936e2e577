import ClassFile.Proofs.Graph.Linking

namespace ClassFile

/-!
# Positions of blocks

The steps of code are its instructions and branches, without the marks between them.  A
graph has the steps that were recorded, in their order.  So a block has a position among
them, which is that of its first step.  A label stands at the block with the position where
the label was recorded, and a frame belongs to it.
-/

/-- An instruction or a branch. -/
abbrev Step (ν : Type) := Instruction ⊕ Branch Nat Nat ν

namespace Item

def ofStep : Step Unit → Item :=
  Sum.elim .instruction .branch

def step? : Item → Option (Step Unit)
  | instruction found => some (.inl found)
  | branch found => some (.inr found)
  | label _ | frame _ => none

/-- The steps among items. -/
def steps (items : List Item) : List (Step Unit) :=
  items.filterMap step?

@[simp]
theorem step?_ofStep (step : Step Unit) : (ofStep step).step? = some step := by
  cases step <;> rfl

@[simp]
theorem steps_append (front back : List Item) : steps (front ++ back) = steps front ++ steps back :=
  List.filterMap_append

@[simp]
theorem steps_cons_ofStep (step : Step Unit) (items : List Item) :
    steps (ofStep step :: items) = step :: steps items :=
  List.filterMap_cons_some (step?_ofStep step)

theorem steps_of_marks {items : List Item} (marks : ∀ item ∈ items, item.isMark = true) :
    steps items = [] := by
  rw [steps, List.filterMap_eq_nil_iff]
  intro item member
  have isMark := marks item member
  cases item with
  | label | frame => rfl
  | instruction | branch => cases isMark

theorem isMark_ofStep (step : Step Unit) : (ofStep step).isMark = false := by
  cases step <;> rfl

theorem steps_instructions (instructions : List Instruction) :
    steps (instructions.map .instruction) = instructions.map .inl := by
  rw [steps, List.filterMap_map]
  exact congrFun List.filterMap_eq_map instructions

end Item

/-- The steps of a block, whose branch counts if it is one of the code. -/
def Block.steps {φ : Type} (code : Block φ Instruction) : List (Step Nat) :=
  code.instructions.toList.map .inl ++ if code.branch.width = 0 then [] else [.inr code.branch]

namespace FlowGraph

/-- The steps of all blocks. -/
def steps (graph : FlowGraph) : List (Step Nat) :=
  graph.blocks.toList.flatMap Block.steps

/-- The position of the first step of a block. -/
def position (graph : FlowGraph) (block : Nat) : Nat :=
  ((graph.blocks.toList.take block).flatMap Block.steps).length

/-- A step is as it was recorded but for its labels, which are resolved. -/
inductive StepResolved (labels : Std.HashMap Nat Nat) : Step Unit → Step Nat → Prop
  | instruction (found : Instruction) : StepResolved labels (.inl found) (.inl found)
  | branch {recorded : Branch Nat Nat Unit} {resolved : Branch Nat Nat Nat}
      (renamed : Branch.Renamed (fun label block => labels[label]? = some block)
        (fun label block => labels[label]? = some block) (fun _ _ => True) recorded resolved) :
      StepResolved labels (.inr recorded) (.inr resolved)

/-- Every branch among the items is one of the code. -/
def Solid (items : List Item) : Prop :=
  ∀ branch, .branch branch ∈ items → 0 < branch.width

variable {graph : FlowGraph} {items : List Item} {handlers : List Handler} {pieces : List Piece}
  {labels : Std.HashMap Nat Nat} {block count : Nat} {piece : Piece}

/-! ## The steps of a block -/

theorem Piece.steps_items (marks : ∀ mark ∈ piece.marks, mark.isMark = true) :
    Item.steps piece.items = piece.instructions.map .inl ++ piece.branch?.toList.map .inr := by
  rw [items, Item.steps_append, Item.steps_append, Item.steps_of_marks marks,
    Item.steps_instructions, List.nil_append]
  cases piece.branch? <;> rfl

theorem MadeOf.steps {code : CodeBlock} (made : MadeOf labels block count piece code)
    (marks : ∀ mark ∈ piece.marks, mark.isMark = true)
    (solid : ∀ branch, piece.branch? = some branch → 0 < branch.width) :
    List.Forall₂ (StepResolved labels) (Item.steps piece.items) code.steps := by
  rw [Piece.steps_items marks, Block.steps, made.instructions]
  apply List.rel_append
  · rw [List.forall₂_map_left_iff, List.forall₂_map_right_iff, List.forall₂_same]
    exact fun found _ => .instruction found
  · have ends := made.ends
    generalize piece.branch? = branch? at ends solid
    generalize code.branch = resolved at ends
    cases ends with
    | @recorded recorded _ inner renamed =>
      have some_ := solid recorded rfl
      rw [renamed.width] at some_
      rw [if_neg (Nat.ne_of_gt some_)]
      exact .cons (.branch (renamed.mono (fun _ _ => id) (fun _ _ => id) fun _ _ _ => trivial)) .nil
    | through | stops => exact .nil

namespace IsCut

/-- Blocks have the steps of their pieces. -/
theorem blockSteps (isCut : IsCut graph items handlers pieces) (solid : Solid items) :
    List.Forall₂ (fun piece code => List.Forall₂ (StepResolved graph.labels)
      (Item.steps (Piece.items piece)) (Block.steps code)) pieces graph.blocks.toList := by
  have size : pieces.length = graph.blocks.toList.length := isCut.size_eq.symm
  refine List.forall₂_iff_get.2 ⟨size, fun block inside inside' => ?_⟩
  have found := List.getElem?_eq_getElem inside
  have there : graph.blocks[block]? = some (graph.blocks.toList.get ⟨block, inside'⟩) := by
    rw [← Array.getElem?_toList]
    exact List.getElem?_eq_getElem inside'
  refine (isCut.blocks block _ _ found there).steps (isCut.marks _ (List.getElem_mem inside)) ?_
  intro branch isBranch
  apply solid
  rw [← isCut.whole]
  refine List.mem_flatMap.2 ⟨_, List.getElem_mem inside, ?_⟩
  simp [Piece.items, isBranch]

/-- A graph has the steps that were recorded. -/
theorem steps (isCut : IsCut graph items handlers pieces) (solid : Solid items) :
    List.Forall₂ (StepResolved graph.labels) (Item.steps items) graph.steps := by
  rw [← isCut.whole, Item.steps, List.filterMap_flatMap]
  exact List.rel_flatMap (isCut.blockSteps solid) fun _ _ => id

theorem position_eq (isCut : IsCut graph items handlers pieces) (solid : Solid items) (block : Nat) :
    graph.position block = (Item.steps ((pieces.take block).flatMap Piece.items)).length := by
  have front := List.rel_flatMap (List.forall₂_take block (isCut.blockSteps solid)) fun _ _ => id
  rw [Item.steps, List.filterMap_flatMap]
  exact front.length_eq.symm

/-- No two blocks start at the same step. -/
theorem position_lt (isCut : IsCut graph items handlers pieces) (solid : Solid items)
    (inside : block + 1 < graph.blocks.size) :
    graph.position block < graph.position (block + 1) := by
  rw [isCut.size_eq] at inside
  have here := List.getElem?_eq_getElem (Nat.lt_of_succ_lt inside)
  have some_ := isCut.apart block _ here inside
  have marks := isCut.marks _ (List.mem_of_getElem? here)
  rw [isCut.position_eq solid, isCut.position_eq solid, List.take_add_one, here, List.flatMap_append,
    Item.steps_append, List.length_append]
  apply Nat.lt_add_of_pos_right
  rw [Option.toList_some, List.flatMap_singleton, Piece.steps_items marks]
  apply List.length_pos_iff.2
  intro none
  rw [List.append_eq_nil_iff, List.map_eq_nil_iff, List.map_eq_nil_iff] at none
  rcases some_ with code | branch
  · exact code none.1
  · exact branch (Option.toList_eq_nil_iff.1 none.2)

end IsCut

/-! ## Where marks stand -/

/-- An item of two lists is one of the second or one of the first. -/
theorem append_eq_append_cons {α : Type} {first second before after : List α} {item : α}
    (whole : first ++ second = before ++ item :: after) :
    (∃ rest, before = first ++ rest ∧ second = rest ++ item :: after) ∨
      ∃ rest, first = before ++ item :: rest ∧ after = rest ++ second := by
  rcases List.append_eq_append_iff.1 whole with ⟨rest, isBefore, isSecond⟩ | ⟨rest, isFirst, isRest⟩
  · exact .inl ⟨rest, isBefore, isSecond⟩
  · cases rest with
    | nil => exact .inl ⟨[], by simpa using isFirst.symm, isRest.symm⟩
    | cons _ rest =>
      cases isRest
      exact .inr ⟨rest, isFirst, rfl⟩

/-- An item stands in one of the pieces. -/
theorem exists_piece {front back : List Item} {item : Item}
    (whole : pieces.flatMap Piece.items = front ++ item :: back) :
    ∃ (block : Nat) (piece : Piece) (before after : List Item), pieces[block]? = some piece ∧
      piece.items = before ++ item :: after ∧
        front = (pieces.take block).flatMap Piece.items ++ before ∧
          back = after ++ (pieces.drop (block + 1)).flatMap Piece.items := by
  induction pieces generalizing front with
  | nil => cases front <;> cases whole
  | cons piece pieces ih =>
    rcases append_eq_append_cons whole with ⟨rest, rfl, later⟩ | ⟨rest, here, rfl⟩
    · rcases ih later with ⟨block, found, before, after, there, split, rfl, rfl⟩
      exact ⟨block + 1, found, before, after, there, split, by simp, rfl⟩
    · exact ⟨0, piece, front, rest, rfl, here, rfl, rfl⟩

/-- A mark stands before the steps of its piece, with nothing but marks before it. -/
theorem Piece.exists_marks {before after : List Item} {mark : Item}
    (split : piece.items = before ++ mark :: after) (isMark : mark.isMark = true) :
    ∃ rest, piece.marks = before ++ mark :: rest ∧
      after = rest ++ (piece.instructions.map .instruction ++ piece.branch?.toList.map .branch) := by
  rw [items, List.append_assoc] at split
  rcases append_eq_append_cons split with ⟨rest, -, isCode⟩ | here
  · have member : mark ∈ piece.instructions.map .instruction ++ piece.branch?.toList.map .branch :=
      isCode ▸ List.mem_append_right rest List.mem_cons_self
    rcases List.mem_append.1 member with member | member
    all_goals
      rcases List.mem_map.1 member with ⟨_, -, rfl⟩
      cases isMark
  · exact here

namespace IsCut

/-- A mark stands in the block that starts where the mark was recorded. -/
theorem exists_block_of_mark (isCut : IsCut graph items handlers pieces) (solid : Solid items)
    {front back : List Item} {mark : Item} (whole : items = front ++ mark :: back)
    (isMark : mark.isMark = true) :
    ∃ (block : Nat) (piece : Piece) (before rest : List Item), pieces[block]? = some piece ∧
      block < graph.blocks.size ∧ piece.marks = before ++ mark :: rest ∧
      graph.position block = (Item.steps front).length ∧
      back = rest ++ (piece.instructions.map .instruction ++ piece.branch?.toList.map .branch) ++
        (pieces.drop (block + 1)).flatMap Piece.items := by
  rcases exists_piece (isCut.whole.trans whole) with
    ⟨block, piece, before, after, there, split, isFront, isBack⟩
  rcases Piece.exists_marks split isMark with ⟨rest, marks, rfl⟩
  refine ⟨block, piece, before, rest, there, isCut.lt_size there, marks, ?_, isBack⟩
  have unstepped : Item.steps before = [] := by
    apply Item.steps_of_marks
    intro item member
    apply isCut.marks piece (List.mem_of_getElem? there)
    rw [marks]
    exact List.mem_append_left _ member
  rw [isCut.position_eq solid, isFront, Item.steps_append, unstepped, List.append_nil]

/-- A label leads to the block that starts where the label was recorded. -/
theorem position_of_label (isCut : IsCut graph items handlers pieces) (solid : Solid items)
    {front back : List Item} {label : Nat} (whole : items = front ++ .label label :: back) :
    ∃ block, graph.labels[label]? = some block ∧ block < graph.blocks.size ∧
      graph.position block = (Item.steps front).length := by
  rcases isCut.exists_block_of_mark solid whole rfl with
    ⟨block, piece, before, rest, there, inside, marks, position, -⟩
  refine ⟨block, (isCut.labels label block).2 ⟨piece, there, ?_⟩, inside, position⟩
  rw [marks]
  exact List.mem_append_right _ List.mem_cons_self

/-- A frame right before a step is the frame of the block that starts with this step. -/
theorem frame_of_step (isCut : IsCut graph items handlers pieces) (solid : Solid items)
    {front back : List Item} {frame : BlockFrame} {step : Step Unit}
    (whole : items = front ++ .frame frame :: Item.ofStep step :: back) :
    ∃ (block : Nat) (code : CodeBlock) (resolved : BlockFrame), graph.blocks[block]? = some code ∧
      graph.position block = (Item.steps front).length ∧ code.frame = some resolved ∧
        frame.mapM pure (resolve graph.labels) = .ok resolved := by
  rcases isCut.exists_block_of_mark solid whole rfl with
    ⟨block, piece, before, rest, there, inside, marks, position, isBack⟩
  have found := Array.getElem?_eq_getElem inside
  have made := isCut.blocks block piece _ there found
  -- The step behind the frame ends the marks of the piece, so no later frame replaces this one.
  have last : rest = [] := by
    cases rest with
    | nil => rfl
    | cons mark rest =>
      rw [List.append_assoc, List.cons_append] at isBack
      have isMark := isCut.marks piece (List.mem_of_getElem? there) mark (by simp [marks])
      rw [← (List.cons.inj isBack).1, Item.isMark_ofStep] at isMark
      cases isMark
  have isFrame : piece.frame? = some frame := by
    rw [Piece.frame?, marks, last, List.filterMap_append]
    exact List.getLast?_concat
  have same := made.frame
  rw [isFrame] at same
  generalize isResolved : graph.blocks[block].frame = resolved? at same
  cases same with
  | some run => exact ⟨block, _, _, found, position, isResolved, run⟩

end IsCut
end FlowGraph
end ClassFile
