import ClassFile.Proofs.Graph.Segments

namespace ClassFile

/-!
# Pieces of recorded code

Recorded items fall into pieces, one for every block.  A piece is some labels and frames,
then instructions, then a branch if one was recorded.  Read from the back, a label or a
frame joins the piece after it, a branch is the end of a piece of its own, and an
instruction joins the piece after it unless that starts with a label, a frame or a `new`.
Cutting items into blocks from the front gives just these pieces.
-/

namespace Item

/-- Labels and frames stand between the instructions and are none. -/
def isMark : Item → Bool
  | label _ | frame _ => true
  | instruction _ | branch _ => false

def label? : Item → Option Nat
  | label name => some name
  | _ => none

def frame? : Item → Option (Frame String Nat)
  | frame types => some types
  | _ => none

end Item

namespace FlowGraph

/-- The items of one block. -/
structure Piece where
  marks : List Item
  instructions : List Instruction
  branch? : Option (Branch Nat Nat Unit)

namespace Piece

def empty : Piece := ⟨[], [], none⟩

def items (piece : Piece) : List Item :=
  piece.marks ++ piece.instructions.map .instruction ++ piece.branch?.toList.map .branch

/-- A later frame replaces those before it. -/
def frame? (piece : Piece) : Option (Frame String Nat) :=
  (piece.marks.filterMap Item.frame?).getLast?

/-- Whether a block starts here even behind an instruction. -/
def starts (piece : Piece) : Bool :=
  !piece.marks.isEmpty || piece.instructions.head?.any Instruction.isNew

def draft (piece : Piece) : Draft :=
  ⟨piece.frame?, piece.instructions.toArray, piece.branch?⟩

end Piece

/-- Some pieces, of which there is always one. -/
structure Pieces where
  first : Piece
  others : List Piece

namespace Pieces

def toList (pieces : Pieces) : List Piece :=
  pieces.first :: pieces.others

/-- The pieces with one more item before them. -/
def cons (item : Item) (pieces : Pieces) : Pieces :=
  match item with
  | .label _ | .frame _ =>
    { pieces with first := { pieces.first with marks := item :: pieces.first.marks } }
  | .instruction instruction =>
    if pieces.first.starts then ⟨⟨[], [instruction], none⟩, pieces.toList⟩
    else
      { pieces with
        first := { pieces.first with instructions := instruction :: pieces.first.instructions } }
  | .branch branch => ⟨⟨[], [], some branch⟩, pieces.toList⟩

/-- The pieces that items fall into. -/
def ofItems (items : List Item) : Pieces :=
  items.foldr cons ⟨.empty, []⟩

theorem ofItems_cons (item : Item) (items : List Item) :
    ofItems (item :: items) = cons item (ofItems items) :=
  rfl

/-- A piece that starts no block of its own has no labels and no frames. -/
theorem marks_of_not_starts {piece : Piece} (joins : ¬piece.starts = true) : piece.marks = [] := by
  cases empty : piece.marks with
  | nil => rfl
  | cons mark marks => simp [Piece.starts, empty] at joins

/-- A frame counts unless there is one behind it. -/
theorem frame?_cons_frame (frame : Frame String Nat) (pieces : Pieces) :
    (cons (.frame frame) pieces).first.frame? = pieces.first.frame?.or (some frame) := by
  simp only [cons, Piece.frame?, List.filterMap_cons, Item.frame?, List.getLast?_cons]
  cases (pieces.first.marks.filterMap Item.frame?).getLast? <;> rfl

/-! ## What pieces are made of -/

/-- No item is lost, and none is moved. -/
theorem flatMap_items (items : List Item) : (ofItems items).toList.flatMap Piece.items = items := by
  induction items with
  | nil => rfl
  | cons item items ih =>
    rw [ofItems_cons]
    generalize ofItems items = pieces at ih
    subst ih
    cases item with
    | label | frame => simp [cons, toList, Piece.items]
    | branch => simp [cons, toList, Piece.items]
    | instruction instruction =>
      rw [cons]
      split
      · simp [toList, Piece.items]
      · next joins => simp [toList, Piece.items, marks_of_not_starts joins]

theorem marks_ofItems (items : List Item) :
    (ofItems items).first.marks = items.takeWhile Item.isMark := by
  induction items with
  | nil => rfl
  | cons item items ih =>
    rw [ofItems_cons]
    cases item with
    | label | frame => exact congrArg (List.cons _) ih
    | branch => rfl
    | instruction instruction =>
      rw [cons]
      split
      · rfl
      · next joins =>
        have unmarked := marks_of_not_starts joins
        exact unmarked

/-- Pieces with nothing but labels and frames before their code, of which only the last may be
without code and has no branch. -/
inductive AreFormed : List Piece → Prop
  | last {piece : Piece} (marks : ∀ mark ∈ piece.marks, mark.isMark = true)
      (open_ : piece.branch? = none) : AreFormed [piece]
  | next {piece : Piece} {others : List Piece} (marks : ∀ mark ∈ piece.marks, mark.isMark = true)
      (some_ : piece.instructions ≠ [] ∨ piece.branch? ≠ none) (rest : AreFormed others) :
      AreFormed (piece :: others)

namespace AreFormed

variable {piece : Piece} {others pieces : List Piece}

theorem change {changed : Piece} (formed : AreFormed (piece :: others))
    (marks : ∀ mark ∈ changed.marks, mark.isMark = true)
    (some_ : piece.instructions ≠ [] → changed.instructions ≠ [])
    (same : changed.branch? = piece.branch?) : AreFormed (changed :: others) := by
  cases formed with
  | last _ open_ => exact .last marks (same.trans open_)
  | next _ code rest =>
    apply AreFormed.next marks _ rest
    rw [same]
    exact code.imp_left some_

theorem marks (formed : AreFormed pieces) :
    ∀ piece ∈ pieces, ∀ mark ∈ piece.marks, mark.isMark = true := by
  induction formed with
  | last marks => exact List.forall_mem_singleton.2 marks
  | next marks _ _ ih => exact List.forall_mem_cons.2 ⟨marks, ih⟩

/-- Two blocks never start at the same place in the code. -/
theorem apart (formed : AreFormed pieces) {index : Nat} (found : pieces[index]? = some piece)
    (inner : index + 1 < pieces.length) : piece.instructions ≠ [] ∨ piece.branch? ≠ none := by
  induction formed generalizing index with
  | last => simp at inner
  | next _ some_ _ ih =>
    cases index with
    | zero =>
      cases found
      exact some_
    | succ index => exact ih found (by simpa using inner)

theorem last_open (formed : AreFormed pieces) {index : Nat} (found : pieces[index]? = some piece)
    (last : index + 1 = pieces.length) : piece.branch? = none := by
  induction formed generalizing index with
  | last _ open_ =>
    cases index with
    | zero =>
      cases found
      exact open_
    | succ index => cases found
  | next _ _ rest ih =>
    cases index with
    | zero => cases rest <;> simp at last
    | succ index => exact ih found (by simpa using last)

end AreFormed

theorem areFormed_cons (item : Item) {pieces : Pieces} (formed : AreFormed pieces.toList) :
    AreFormed (cons item pieces).toList := by
  have marks := formed.marks pieces.first List.mem_cons_self
  cases item with
  | label | frame => exact formed.change (List.forall_mem_cons.2 ⟨rfl, marks⟩) id rfl
  | branch branch => exact .next (List.forall_mem_nil _) (.inr (Option.some_ne_none _)) formed
  | instruction instruction =>
    rw [cons]
    split
    · exact .next (List.forall_mem_nil _) (.inl (List.cons_ne_nil _ _)) formed
    · exact formed.change marks (fun _ => List.cons_ne_nil _ _) rfl

theorem areFormed_ofItems (items : List Item) : AreFormed (ofItems items).toList := by
  induction items with
  | nil => exact .last (List.forall_mem_nil _) rfl
  | cons item items ih => exact areFormed_cons item ih

/-! ## Labels by the pieces behind them -/

/-- A label stands in a piece with a number of pieces from there on. -/
def Places (pieces : List Piece) (label remaining : Nat) : Prop :=
  ∃ front piece back, pieces = front ++ piece :: back ∧ .label label ∈ piece.marks ∧
    remaining = back.length + 1

theorem places_cons {piece : Piece} {others : List Piece} {label remaining : Nat} :
    Places (piece :: others) label remaining ↔
      (.label label ∈ piece.marks ∧ remaining = others.length + 1) ∨
        Places others label remaining := by
  constructor
  · rintro ⟨front, here, back, whole, member, count⟩
    cases front with
    | nil =>
      cases whole
      exact .inl ⟨member, count⟩
    | cons before front =>
      cases whole
      exact .inr ⟨front, here, back, rfl, member, count⟩
  · rintro (⟨member, count⟩ | ⟨front, here, back, rfl, member, count⟩)
    · exact ⟨[], piece, others, rfl, member, count⟩
    · exact ⟨piece :: front, here, back, rfl, member, count⟩

/-- Counted from the front, a label stands in the piece at a position. -/
theorem places_iff {pieces : List Piece} {label block : Nat} :
    (∃ remaining, Places pieces label remaining ∧ block + remaining = pieces.length) ↔
      ∃ piece, pieces[block]? = some piece ∧ .label label ∈ piece.marks := by
  constructor
  · rintro ⟨_, ⟨front, piece, back, rfl, member, rfl⟩, here⟩
    rw [List.length_append, List.length_cons] at here
    obtain rfl := Nat.add_right_cancel here
    exact ⟨piece, by simp, member⟩
  · rintro ⟨piece, found, member⟩
    rcases List.getElem?_eq_some_iff.1 found with ⟨inside, rfl⟩
    refine ⟨_, ⟨pieces.take block, _, pieces.drop (block + 1), ?_, member, rfl⟩, ?_⟩
    · rw [← List.drop_eq_getElem_cons inside, List.take_append_drop]
    · rw [List.length_drop]
      omega

theorem not_places_empty {label remaining : Nat} :
    ¬Places (ofItems []).toList label remaining := by
  rw [ofItems, List.foldr_nil, toList, places_cons]
  rintro (⟨member, -⟩ | ⟨front, piece, back, whole, -⟩)
  · cases member
  · cases front <;> cases whole

theorem places_cons_item {item : Item} {pieces : Pieces} {label remaining : Nat} :
    Places (cons item pieces).toList label remaining ↔
      (item = .label label ∧ remaining = pieces.toList.length) ∨
        Places pieces.toList label remaining := by
  cases item with
  | label other =>
    rw [cons, toList, toList, places_cons, places_cons, List.length_cons, List.mem_cons, or_and_right,
      or_assoc, eq_comm (a := Item.label label)]
  | frame frame => simp [cons, toList, places_cons]
  | branch branch => simp [cons, toList, places_cons]
  | instruction instruction =>
    rw [cons]
    split
    · simp [toList, places_cons]
    · simp [toList, places_cons]

end Pieces

/-! ## Cutting from the front -/

open Pieces

/-- The drafts of an open block and of the pieces behind it. -/
def Draft.andThen (draft : Draft) (pieces : Pieces) : List Draft :=
  if draft.instructions = #[] then
    ⟨pieces.first.frame?.or draft.frame, pieces.first.instructions.toArray, pieces.first.branch?⟩ ::
      pieces.others.map Piece.draft
  else if pieces.first.starts then draft :: pieces.toList.map Piece.draft
  else
    ⟨draft.frame, draft.instructions ++ pieces.first.instructions.toArray, pieces.first.branch?⟩ ::
      pieces.others.map Piece.draft

namespace Draft

variable {draft : Draft} {pieces : Pieces}

theorem andThen_of_empty (empty : draft.instructions = #[]) : draft.andThen pieces =
    ⟨pieces.first.frame?.or draft.frame, pieces.first.instructions.toArray,
      pieces.first.branch?⟩ :: pieces.others.map Piece.draft :=
  if_pos empty

theorem andThen_of_starts (some_ : draft.instructions ≠ #[])
    (starts : pieces.first.starts = true) :
    draft.andThen pieces = draft :: pieces.toList.map Piece.draft := by
  rw [andThen, if_neg some_, if_pos starts]

theorem andThen_of_joins (some_ : draft.instructions ≠ #[])
    (joins : ¬pieces.first.starts = true) : draft.andThen pieces =
      ⟨draft.frame, draft.instructions ++ pieces.first.instructions.toArray,
        pieces.first.branch?⟩ :: pieces.others.map Piece.draft := by
  rw [andThen, if_neg some_, if_neg joins]

theorem empty_andThen (pieces : Pieces) :
    Draft.empty.andThen pieces = pieces.toList.map Piece.draft := by
  rw [andThen_of_empty rfl, empty, Option.or_none]
  rfl

end Draft

theorem Piece.starts_instruction (instruction : Instruction) (branch? : Option (Branch Nat Nat Unit))
    (rest : List Instruction) :
    (Piece.mk [] (instruction :: rest) branch?).starts = instruction.isNew := by
  rw [starts, List.isEmpty_nil, Bool.not_true, Bool.false_or, List.head?_cons, Option.any_some]

/-- An instruction joins the piece after it or makes one of its own. -/
theorem Pieces.cons_instruction (instruction : Instruction) (pieces : Pieces) :
    (pieces.first.starts = true ∧
        cons (.instruction instruction) pieces =
          ⟨⟨[], [instruction], none⟩, pieces.toList⟩) ∨
      (¬pieces.first.starts = true ∧
        cons (.instruction instruction) pieces =
          ⟨⟨[], instruction :: pieces.first.instructions, pieces.first.branch?⟩,
            pieces.others⟩) := by
  by_cases starts : pieces.first.starts = true
  · exact .inl ⟨starts, if_pos starts⟩
  · refine .inr ⟨starts, (if_neg starts).trans ?_⟩
    dsimp only
    rw [marks_of_not_starts starts]

theorem Pieces.starts_cons_instruction (instruction : Instruction) (pieces : Pieces) :
    (cons (.instruction instruction) pieces).first.starts = instruction.isNew := by
  rcases cons_instruction instruction pieces with ⟨-, same⟩ | ⟨-, same⟩ <;>
    rw [same, Piece.starts_instruction]

namespace Drafts

variable {subroutines : Bool} {drafts after : Drafts} {item : Item} {items : List Item}

theorem andThen_split (drafts : Drafts) (pieces : Pieces)
    (starts : pieces.first.starts = true) :
    drafts.split.closed.toList ++ drafts.split.open_.andThen pieces =
      drafts.closed.toList ++ drafts.open_.andThen pieces := by
  by_cases empty : drafts.open_.instructions = #[]
  · rw [split_of_empty empty]
  · rw [split_of_some empty, cut, Array.toList_push, Draft.empty_andThen,
      Draft.andThen_of_starts empty starts, List.append_assoc, List.singleton_append]

theorem andThen_addInstruction (open_ : drafts.open_.branch = none) (instruction : Instruction)
    (joins : drafts.open_.instructions = #[] ∨ instruction.isNew = false) (pieces : Pieces) :
    (drafts.addInstruction instruction).open_.andThen pieces =
      drafts.open_.andThen (cons (.instruction instruction) pieces) := by
  have pushed : (drafts.addInstruction instruction).open_ =
      ⟨drafts.open_.frame, drafts.open_.instructions.push instruction, none⟩ := open_ ▸ rfl
  have some_ : drafts.open_.instructions.push instruction ≠ #[] := Array.push_ne_empty
  have starts := starts_cons_instruction instruction pieces
  rw [pushed]
  by_cases empty : drafts.open_.instructions = #[]
  · rw [Draft.andThen_of_empty empty]
    rcases cons_instruction instruction pieces with ⟨ends, same⟩ | ⟨goesOn, same⟩
    · rw [same, Draft.andThen_of_starts some_ ends, empty]
      rfl
    · rw [same, Draft.andThen_of_joins some_ goesOn, empty]
      simp [Piece.frame?]
  · rw [Draft.andThen_of_joins empty (by simp [starts, joins.resolve_left empty])]
    rcases cons_instruction instruction pieces with ⟨ends, same⟩ | ⟨goesOn, same⟩
    · rw [same, Draft.andThen_of_starts some_ ends]
      simp
    · rw [same, Draft.andThen_of_joins some_ goesOn]
      simp

/-- An item goes where it belongs among the pieces. -/
theorem andThen_add (open_ : drafts.open_.branch = none)
    (run : drafts.add subroutines item = .ok after) (pieces : Pieces) :
    after.open_.branch = none ∧
      after.closed.toList ++ after.open_.andThen pieces =
        drafts.closed.toList ++ drafts.open_.andThen (cons item pieces) := by
  have empty := isEmpty_split drafts
  have unbranched := branch_split open_
  cases item with
  | label label =>
    rcases addLabel_eq_ok.1 run with ⟨-, rfl⟩
    refine ⟨unbranched, ?_⟩
    rw [← andThen_split drafts (cons (.label label) pieces) rfl, Draft.andThen_of_empty empty,
      Draft.andThen_of_empty empty]
    rfl
  | frame frame =>
    cases run
    refine ⟨unbranched, ?_⟩
    have framed : (drafts.split.addFrame frame).open_.instructions = #[] := empty
    rw [← andThen_split drafts (cons (.frame frame) pieces) rfl, Draft.andThen_of_empty empty,
      Draft.andThen_of_empty framed, frame?_cons_frame, Option.or_assoc]
    rfl
  | instruction instruction =>
    cases run
    cases new : instruction.isNew with
    | true =>
      refine ⟨unbranched, ?_⟩
      rw [if_pos rfl, andThen_addInstruction unbranched _ (.inl empty),
        ← andThen_split drafts _ ((starts_cons_instruction instruction pieces).trans new)]
      rfl
    | false =>
      refine ⟨open_, ?_⟩
      rw [if_neg Bool.false_ne_true, andThen_addInstruction open_ _ (.inr new)]
      rfl
  | branch branch =>
    rw [add] at run
    split at run
    · cases run
    · cases run
      refine ⟨rfl, ?_⟩
      have closed : (drafts.addBranch branch).closed.toList ++
          (drafts.addBranch branch).open_.andThen pieces = drafts.closed.toList ++
            ⟨drafts.open_.frame, drafts.open_.instructions, some branch⟩ ::
              pieces.toList.map Piece.draft := by
        rw [addBranch, cut, Draft.empty_andThen, Array.toList_push, List.append_assoc,
          List.singleton_append]
      rw [closed]
      by_cases none : drafts.open_.instructions = #[]
      · rw [Draft.andThen_of_empty none, none]
        rfl
      · rw [Draft.andThen_of_joins none (by simp [cons, Piece.starts])]
        simp [cons]

/-- The blocks cut from the front are those of the pieces. -/
theorem closed_addAll (open_ : drafts.open_.branch = none)
    (run : items.foldlM (add subroutines) drafts = .ok after) :
    after.cut.closed.toList = drafts.closed.toList ++ drafts.open_.andThen (Pieces.ofItems items) := by
  induction items generalizing drafts with
  | nil =>
    rcases pure_eq_ok.1 run with rfl
    have whole : drafts.open_ =
        ⟨drafts.open_.frame, drafts.open_.instructions, none⟩ := open_ ▸ rfl
    rw [cut, Array.toList_push]
    by_cases empty : drafts.open_.instructions = #[]
    · rw [Draft.andThen_of_empty empty, whole, empty]
      rfl
    · rw [Draft.andThen_of_joins empty (by simp [Pieces.ofItems, Piece.empty, Piece.starts]), whole]
      simp [Pieces.ofItems, Piece.empty]
  | cons item items ih =>
    rcases foldlM_cons_eq_ok.1 run with ⟨middle, first, rest⟩
    rcases andThen_add open_ first (Pieces.ofItems items) with ⟨unbranched, same⟩
    rw [ih unbranched rest, same]
    rfl

/-- Only a label places one, at the open block, which has no instructions then. -/
theorem labels_add (run : drafts.add subroutines item = .ok after) {label block : Nat} :
    after.labels[label]? = some block ↔ drafts.labels[label]? = some block ∨
      (item = .label label ∧ block = after.closed.size ∧ after.open_.instructions = #[]) := by
  have same := labels_split drafts
  cases item with
  | label other =>
    rcases addLabel_eq_ok.1 run with ⟨fresh, rfl⟩
    dsimp only
    rw [same] at fresh ⊢
    rw [Std.HashMap.getElem?_insert, Item.label.injEq]
    by_cases here : other = label
    · subst here
      have missing : drafts.labels[other]? = none := Std.HashMap.getElem?_eq_none fresh
      rw [if_pos BEq.rfl, missing, Option.some.injEq]
      simp [isEmpty_split drafts, eq_comm]
    · rw [if_neg (by simpa using here)]
      simp [here]
  | frame frame =>
    cases run
    simp [addFrame, same]
  | instruction instruction =>
    cases run
    split <;> simp [addInstruction, same]
  | branch branch =>
    rw [add] at run
    split at run
    · cases run
    · cases run
      simp [addBranch, cut]

/-- A label is placed at the block of the piece that it stands in. -/
theorem labels_addAll (open_ : drafts.open_.branch = none)
    (run : items.foldlM (add subroutines) drafts = .ok after) {label block : Nat} :
    after.labels[label]? = some block ↔ drafts.labels[label]? = some block ∨
      ∃ remaining, Places (Pieces.ofItems items).toList label remaining ∧
        block + remaining = after.cut.closed.size := by
  induction items generalizing drafts with
  | nil =>
    rcases pure_eq_ok.1 run with rfl
    refine (or_iff_left ?_).symm
    rintro ⟨remaining, places, -⟩
    exact not_places_empty places
  | cons item items ih =>
    rcases foldlM_cons_eq_ok.1 run with ⟨middle, first, rest⟩
    have unbranched := (andThen_add open_ first (Pieces.ofItems items)).1
    have size := congrArg List.length (closed_addAll unbranched rest)
    rw [List.length_append, Array.length_toList, Array.length_toList] at size
    rw [ih unbranched rest, labels_add first, or_assoc, ofItems_cons]
    apply or_congr_right
    simp only [places_cons_item, or_and_right, exists_or]
    apply or_congr_left
    constructor
    · rintro ⟨rfl, rfl, empty⟩
      rw [Draft.andThen_of_empty empty, List.length_cons, List.length_map] at size
      exact ⟨_, ⟨rfl, rfl⟩, size.symm⟩
    · rintro ⟨remaining, ⟨rfl, rfl⟩, here⟩
      have empty : middle.open_.instructions = #[] := by
        rcases addLabel_eq_ok.1 first with ⟨-, rfl⟩
        exact isEmpty_split drafts
      rw [Draft.andThen_of_empty empty, List.length_cons, List.length_map] at size
      rw [size] at here
      exact ⟨rfl, Nat.add_right_cancel here, empty⟩

/-- The blocks of all items, and where labels are placed. -/
theorem closed_ofItems (run : Drafts.ofItems subroutines items = .ok drafts) :
    drafts.closed.toList = (Pieces.ofItems items).toList.map Piece.draft ∧
      ∀ label block : Nat, drafts.labels[label]? = some block ↔
        ∃ piece, (Pieces.ofItems items).toList[block]? = some piece ∧
          .label label ∈ piece.marks := by
  rcases bind_eq_ok.1 run with ⟨last, added, isCut⟩
  rcases pure_eq_ok.1 isCut with rfl
  have closed := closed_addAll rfl added
  rw [empty, Draft.empty_andThen, List.nil_append] at closed
  refine ⟨closed, fun label block => ?_⟩
  have size := congrArg List.length closed
  rw [Array.length_toList, List.length_map] at size
  have nowhere : Drafts.empty.labels[label]? ≠ some block := by simp [empty]
  rw [← places_iff, ← size]
  exact (labels_addAll rfl added).trans (or_iff_right nowhere)

end Drafts
end FlowGraph
end ClassFile
