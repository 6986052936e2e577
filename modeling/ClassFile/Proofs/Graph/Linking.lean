import ClassFile.Proofs.Frame.Sites
import ClassFile.Proofs.Graph.Pieces

namespace ClassFile

/-!
# When labels resolve

Cutting items into blocks can fail for three reasons: a label is placed twice, a label is
used and never placed, or the code calls subroutines where it must not.  Without these the
blocks are there, one for every piece of the items, and labels, frames and handlers are
found where they were recorded.  A frame that a later one replaces before any code is not
used, and neither are the labels in it.
-/

namespace Item

/-- A supplied frame stands unless another one follows before the next code. -/
def Keeps (items : List Item) (frame : Frame String Nat) : Prop :=
  ∃ front back, items = front ++ .frame frame :: back ∧
    ∀ mark ∈ back.takeWhile isMark, mark.frame? = none

theorem keeps_cons {item : Item} {items : List Item} {frame : Frame String Nat} :
    Keeps (item :: items) frame ↔
      (item = .frame frame ∧ ∀ mark ∈ items.takeWhile isMark, mark.frame? = none) ∨
        Keeps items frame := by
  constructor
  · rintro ⟨front, back, whole, last⟩
    cases front with
    | nil =>
      cases whole
      exact .inl ⟨rfl, last⟩
    | cons before front =>
      cases whole
      exact .inr ⟨front, back, rfl, last⟩
  · rintro (⟨rfl, last⟩ | ⟨front, back, rfl, last⟩)
    · exact ⟨[], items, rfl, last⟩
    · exact ⟨item :: front, back, rfl, last⟩

end Item

namespace FlowGraph

/-! ## Frames of pieces -/

namespace Pieces

theorem frame?_eq_none {piece : Piece} :
    piece.frame? = none ↔ ∀ mark ∈ piece.marks, mark.frame? = none := by
  rw [Piece.frame?, List.getLast?_eq_none_iff, List.filterMap_eq_nil_iff]

theorem exists_frame_cons {item : Item} {pieces : Pieces} {frame : Frame String Nat} :
    (∃ piece ∈ (cons item pieces).toList, piece.frame? = some frame) ↔
      (item = .frame frame ∧ pieces.first.frame? = none) ∨
        ∃ piece ∈ pieces.toList, piece.frame? = some frame := by
  cases item with
  | label label => simp [cons, toList, Piece.frame?, Item.frame?]
  | branch branch => simp [cons, toList, Piece.frame?]
  | instruction instruction =>
    rw [cons]
    split
    · simp [toList, Piece.frame?]
    · simp [toList, Piece.frame?]
  | frame other =>
    have same : (cons (.frame other) pieces).others = pieces.others := rfl
    simp only [toList, List.exists_mem_cons_iff, frame?_cons_frame, same, Item.frame.injEq]
    cases pieces.first.frame? with
    | none => simp
    | some known => simp

/-- The frames of the pieces are those that are kept. -/
theorem exists_frame_iff {items : List Item} {frame : Frame String Nat} :
    (∃ piece ∈ (ofItems items).toList, piece.frame? = some frame) ↔ Item.Keeps items frame := by
  induction items with
  | nil => simp [ofItems, toList, Piece.empty, Piece.frame?, Item.Keeps]
  | cons item items ih =>
    rw [ofItems_cons, exists_frame_cons, ih, Item.keeps_cons, frame?_eq_none, marks_ofItems]

theorem exists_branch_iff {items : List Item} {branch : Branch Nat Nat Unit} :
    (∃ piece ∈ (ofItems items).toList, piece.branch? = some branch) ↔ .branch branch ∈ items := by
  have formed := (areFormed_ofItems items).marks
  have whole := flatMap_items items
  constructor
  · rintro ⟨piece, member, isBranch⟩
    rw [← whole]
    exact List.mem_flatMap.2 ⟨piece, member, by simp [Piece.items, isBranch]⟩
  · intro member
    rw [← whole, List.mem_flatMap] at member
    rcases member with ⟨piece, isPiece, member⟩
    rw [Piece.items, List.mem_append, List.mem_append] at member
    rcases member with (isMark | isInstruction) | isBranch
    · cases formed piece isPiece _ isMark
    · rcases List.mem_map.1 isInstruction with ⟨_, -, same⟩
      cases same
    · rcases List.mem_map.1 isBranch with ⟨_, isBranch, same⟩
      cases same
      exact ⟨piece, isPiece, Option.mem_toList.1 isBranch⟩

/-- Every label that is placed stands in a piece. -/
theorem exists_label_iff {items : List Item} {label : Nat} :
    (∃ piece ∈ (ofItems items).toList, .label label ∈ piece.marks) ↔ .label label ∈ items := by
  have whole := flatMap_items items
  constructor
  · rintro ⟨piece, member, isMark⟩
    rw [← whole]
    exact List.mem_flatMap.2 ⟨piece, member, by simp [Piece.items, isMark]⟩
  · intro member
    rw [← whole, List.mem_flatMap] at member
    rcases member with ⟨piece, isPiece, member⟩
    exact ⟨piece, isPiece, by simpa [Piece.items] using member⟩

end Pieces

/-! ## When cutting succeeds -/

namespace Drafts

variable {subroutines : Bool} {drafts : Drafts} {items : List Item}

theorem mem_add_iff {after : Drafts} {item : Item} (run : drafts.add subroutines item = .ok after)
    {label : Nat} : label ∈ after.labels ↔ label ∈ drafts.labels ∨ item.label? = some label := by
  constructor
  · intro known
    apply (mem_of_add run known).imp_right
    rintro rfl
    rfl
  · rintro (known | named)
    · rcases Option.isSome_iff_exists.1 (Std.HashMap.mem_iff_isSome_getElem?.1 known) with
        ⟨block, placed⟩
      exact mem_of_getElem? ((labels_add run).2 (.inl placed))
    · cases item with
      | label other =>
        cases named
        rcases addLabel_eq_ok.1 run with ⟨-, rfl⟩
        exact Std.HashMap.mem_insert_self
      | _ => cases named

theorem exists_add_iff {item : Item} : (∃ after, drafts.add subroutines item = .ok after) ↔
    (∀ label, item.label? = some label → label ∉ drafts.labels) ∧
      (subroutines = false → ∀ branch, item = .branch branch → branch.isSubroutine = false) := by
  cases item with
  | label label => simp [add, addLabel_eq_ok, labels_split, Item.label?]
  | frame frame => simp [add, Item.label?]
  | instruction instruction => simp [add, Item.label?]
  | branch branch =>
    cases subroutines <;> cases sub : branch.isSubroutine <;> simp [add, Item.label?, sub]

/-- Labels are placed at most once, and subroutines are called only if they may be. -/
theorem exists_addAll_iff : (∃ after, items.foldlM (add subroutines) drafts = .ok after) ↔
    (items.filterMap Item.label?).Nodup ∧
      (∀ label ∈ items.filterMap Item.label?, label ∉ drafts.labels) ∧
      (subroutines = false → ∀ branch, .branch branch ∈ items → branch.isSubroutine = false) := by
  induction items generalizing drafts with
  | nil => simp [pure_eq_ok]
  | cons item items ih =>
    have split : (∃ after, (item :: items).foldlM (add subroutines) drafts = .ok after) ↔
        ∃ middle, drafts.add subroutines item = .ok middle ∧
          ((items.filterMap Item.label?).Nodup ∧
            (∀ label ∈ items.filterMap Item.label?,
              ¬(label ∈ drafts.labels ∨ item.label? = some label)) ∧
            (subroutines = false →
              ∀ branch, .branch branch ∈ items → branch.isSubroutine = false)) := by
      simp only [foldlM_cons_eq_ok]
      rw [exists_comm]
      apply exists_congr
      intro middle
      rw [exists_and_left]
      apply and_congr_right
      intro run
      rw [ih]
      simp only [mem_add_iff run]
    rw [split, exists_and_right, exists_add_iff]
    have plain : (∀ branch, .branch branch ∈ item :: items → branch.isSubroutine = false) ↔
        (∀ branch, item = .branch branch → branch.isSubroutine = false) ∧
          ∀ branch, .branch branch ∈ items → branch.isSubroutine = false := by
      simp only [List.mem_cons, or_imp, forall_and, eq_comm]
    rw [plain]
    cases named : item.label? with
    | none =>
      rw [List.filterMap_cons_none named]
      simp only [reduceCtorEq, or_false, false_implies, implies_true, true_and]
      tauto
    | some label =>
      rw [List.filterMap_cons_some named, List.nodup_cons]
      simp only [Option.some.injEq, List.forall_mem_cons, not_or, forall_eq']
      have apart : (∀ other ∈ items.filterMap Item.label?, other ∉ drafts.labels ∧ label ≠ other) ↔
          (∀ other ∈ items.filterMap Item.label?, other ∉ drafts.labels) ∧
            label ∉ items.filterMap Item.label? := by
        rw [← List.forall_mem_ne]
        simp only [imp_and, forall_and, ne_eq]
      tauto

theorem exists_ofItems_iff : (∃ drafts, Drafts.ofItems subroutines items = .ok drafts) ↔
    (items.filterMap Item.label?).Nodup ∧
      (subroutines = false → ∀ branch, .branch branch ∈ items → branch.isSubroutine = false) := by
  have whole : (∃ drafts, Drafts.ofItems subroutines items = .ok drafts) ↔
      ∃ after, items.foldlM (add subroutines) empty = .ok after := by
    constructor
    · rintro ⟨drafts, run⟩
      rcases bind_eq_ok.1 run with ⟨after, added, -⟩
      exact ⟨after, added⟩
    · rintro ⟨after, added⟩
      exact ⟨after.cut, bind_eq_ok.2 ⟨after, added, rfl⟩⟩
  rw [whole, exists_addAll_iff]
  apply and_congr_right
  intro _
  apply and_iff_right
  intro label _
  exact Std.HashMap.not_mem_empty

end Drafts
end FlowGraph

/-- Sites of a frame are renamed where each of them can be. -/
theorem Frame.exists_mapM_iff {frame : BlockFrame} {site : Nat → Except Fault Nat} :
    (∃ renamed : BlockFrame, frame.mapM pure site = .ok renamed) ↔
      ∀ label, frame.Mentions label → ∃ block, site label = .ok block := by
  constructor
  · rintro ⟨renamed, run⟩ label mentions
    have found : ∀ {types : List BlockType} {results : List BlockType},
        types.mapM (fun type => type.mapM pure site) = .ok results →
          .uninitialized label ∈ types → ∃ block, site label = .ok block := by
      intro types results run member
      rcases forall₂_mem (mapM_eq_ok.1 run).flip member with ⟨result, -, here⟩
      rcases bind_eq_ok.1 here with ⟨block, known, -⟩
      exact ⟨block, known⟩
    rcases bind_eq_ok.1 run with ⟨locals, areLocals, onward⟩
    rcases bind_eq_ok.1 onward with ⟨operands, areOperands, -⟩
    rcases mentions with inLocals | inStack
    · exact found areLocals inLocals
    · exact found areOperands (List.mem_reverse.2 inStack)
  · intro known
    have each : ∀ types : List BlockType,
        (∀ label, .uninitialized label ∈ types → frame.Mentions label) →
          ∃ results, types.mapM (fun type => type.mapM pure site) = .ok results := by
      intro types inside
      apply exists_mapM_eq_ok
      intro type member
      cases type with
      | uninitialized label =>
        rcases known label (inside label member) with ⟨block, found⟩
        exact ⟨_, bind_eq_ok.2 ⟨block, found, rfl⟩⟩
      | _ => exact ⟨_, rfl⟩
    rcases each frame.locals (fun _ => .inl) with ⟨locals, areLocals⟩
    rcases each frame.operands (fun _ member => .inr (List.mem_reverse.1 member)) with
      ⟨operands, areOperands⟩
    exact ⟨_, bind_eq_ok.2 ⟨locals, areLocals, bind_eq_ok.2 ⟨operands, areOperands, rfl⟩⟩⟩

namespace FlowGraph

/-! ## Blocks made of pieces -/

/-- A block with the contents of a piece, where labels are resolved. -/
structure MadeOf (labels : Std.HashMap Nat Nat) (block count : Nat) (piece : Piece)
    (code : CodeBlock) : Prop where
  instructions : code.instructions.toList = piece.instructions
  frame : Option.Rel (fun recorded frame => recorded.mapM pure (resolve labels) = .ok frame)
    piece.frame? code.frame
  ends : Ends labels block count piece.branch? code.branch

variable {labels : Std.HashMap Nat Nat} {block count : Nat} {piece : Piece}

theorem madeOf_of_resolve {code : CodeBlock} (inside : block < count)
    (inner : ∀ branch, piece.branch? = some branch → block + 1 < count)
    (run : piece.draft.resolve labels (block + 1) (block + 1 = count) = .ok code) :
    MadeOf labels block count piece code := by
  rcases Draft.ends_of_resolve inside inner run with ⟨instructions, ends⟩
  refine ⟨?_, ?_, ends⟩
  · rw [instructions]
    rfl
  · exact option_mapM_eq_ok.1 (Draft.resolve_eq_ok.1 run).2.1

theorem exists_resolve_label_iff {label : Nat} :
    (∃ block, resolve labels label = .ok block) ↔ label ∈ labels := by
  simp only [resolve_eq_ok, Std.HashMap.mem_iff_isSome_getElem?, Option.isSome_iff_exists]

theorem exists_ending_iff {isLast : Bool} {next : Nat} {draft : Draft} :
    (∃ branch, draft.ending labels next isLast = .ok branch) ↔
      ∀ branch, draft.branch = some branch → ∀ label ∈ branch.targets, label ∈ labels := by
  rw [Draft.ending]
  cases draft.branch with
  | none => simp [pure_eq_ok]
  | some branch =>
    simp only [Option.some.injEq, forall_eq', ← exists_resolve_label_iff]
    exact Branch.exists_mapM_iff fun _ => ⟨next, rfl⟩

theorem exists_resolve_iff {isLast : Bool} {next : Nat} {draft : Draft} :
    (∃ code, draft.resolve labels next isLast = .ok code) ↔
      (∀ branch, draft.branch = some branch → ∀ label ∈ branch.targets, label ∈ labels) ∧
        ∀ frame, draft.frame = some frame → ∀ label, frame.Mentions label → label ∈ labels := by
  have framed : (∃ frame?, (draft.frame.mapM fun frame => frame.mapM pure (resolve labels)) =
      (.ok frame? : Except Fault (Option BlockFrame))) ↔
        ∀ frame, draft.frame = some frame → ∀ label, frame.Mentions label → label ∈ labels := by
    cases draft.frame with
    | none => simp [pure_eq_ok]
    | some frame =>
      simp only [Option.some.injEq, forall_eq', ← exists_resolve_label_iff,
        ← Frame.exists_mapM_iff, Option.mapM_some, map_eq_ok]
      constructor
      · rintro ⟨_, renamed, run, -⟩
        exact ⟨renamed, run⟩
      · rintro ⟨renamed, run⟩
        exact ⟨_, renamed, run, rfl⟩
  rw [← exists_ending_iff, ← framed]
  constructor
  · rintro ⟨code, run⟩
    rcases Draft.resolve_eq_ok.1 run with ⟨ends, known, -⟩
    exact ⟨⟨_, ends⟩, ⟨_, known⟩⟩
  · rintro ⟨⟨branch, ends⟩, ⟨frame?, known⟩⟩
    exact ⟨⟨frame?, draft.instructions, branch⟩, Draft.resolve_eq_ok.2 ⟨ends, known, rfl⟩⟩

theorem exists_resolveHandler_iff {handler : Handler} :
    (∃ resolved, resolveHandler labels handler = .ok resolved) ↔
      handler.start ∈ labels ∧ handler.stop ∈ labels ∧ handler.entry ∈ labels := by
  simp only [← exists_resolve_label_iff]
  constructor
  · rintro ⟨resolved, run⟩
    rcases bind_eq_ok.1 run with ⟨start, isStart, onward⟩
    rcases bind_eq_ok.1 onward with ⟨stop, isStop, onward⟩
    rcases bind_eq_ok.1 onward with ⟨entry, isEntry, -⟩
    exact ⟨⟨start, isStart⟩, ⟨stop, isStop⟩, ⟨entry, isEntry⟩⟩
  · rintro ⟨⟨start, isStart⟩, ⟨stop, isStop⟩, ⟨entry, isEntry⟩⟩
    exact ⟨_, bind_eq_ok.2 ⟨start, isStart, bind_eq_ok.2 ⟨stop, isStop, bind_eq_ok.2
      ⟨entry, isEntry, rfl⟩⟩⟩⟩

/-! ## Graphs of pieces -/

/-- Labels are placed once each, and so is every label that is used. -/
structure Linked (items : List Item) (handlers : List Handler) (subroutines : Bool) : Prop where
  once : (items.filterMap Item.label?).Nodup
  plain : subroutines = false → ∀ branch, .branch branch ∈ items → branch.isSubroutine = false
  branches : ∀ branch, .branch branch ∈ items → ∀ label ∈ branch.targets, .label label ∈ items
  frames : ∀ frame, Item.Keeps items frame → ∀ label, frame.Mentions label → .label label ∈ items
  handlers : ∀ handler ∈ handlers, .label handler.start ∈ items ∧ .label handler.stop ∈ items ∧
    .label handler.entry ∈ items

/-- A graph has one block for every piece of the items.  Only the last piece may be without
code, so a block starts where its labels and frames stand, and no other block does. -/
structure IsCut (graph : FlowGraph) (items : List Item) (handlers : List Handler)
    (pieces : List Piece) : Prop where
  whole : pieces.flatMap Piece.items = items
  marks : ∀ piece ∈ pieces, ∀ mark ∈ piece.marks, mark.isMark = true
  apart : ∀ (block : Nat) piece, pieces[block]? = some piece → block + 1 < pieces.length →
    piece.instructions ≠ [] ∨ piece.branch? ≠ none
  size_eq : graph.blocks.size = pieces.length
  blocks : ∀ (block : Nat) piece code, pieces[block]? = some piece →
    graph.blocks[block]? = some code → MadeOf graph.labels block graph.blocks.size piece code
  labels : ∀ label block : Nat, graph.labels[label]? = some block ↔
    ∃ piece, pieces[block]? = some piece ∧ .label label ∈ piece.marks
  newFirst : graph.NewFirst
  falls : ∀ (block : Nat) code next, graph.blocks[block]? = some code →
    code.branch.next? = some next → next = block + 1 ∧ next < graph.blocks.size
  handlers : List.Forall₂ (fun recorded handler => resolveHandler graph.labels recorded = .ok handler)
    handlers graph.handlers

variable {items : List Item} {handlers : List Handler} {subroutines : Bool} {graph : FlowGraph}

theorem IsCut.lt_size {pieces : List Piece} (isCut : graph.IsCut items handlers pieces)
    (found : pieces[block]? = some piece) : block < graph.blocks.size := by
  rw [isCut.size_eq]
  exact (List.getElem?_eq_some_iff.1 found).1

theorem Ends.next {branch? : Option (Branch Nat Nat Unit)} {branch : Branch Nat Nat Nat} {next : Nat}
    (ends : Ends labels block count branch? branch) (after : branch.next? = some next) :
    next = block + 1 ∧ next < count := by
  cases ends with
  | @recorded recorded resolved inner renamed =>
    have goesOn := renamed.next?
    rw [after] at goesOn
    generalize recorded.next? = next? at goesOn
    cases goesOn with
    | some same => exact ⟨same, same ▸ inner⟩
  | through inner =>
    cases after
    exact ⟨rfl, inner⟩
  | stops => cases after

/-- The blocks are those of the pieces. -/
theorem isCut_of_ofItems (built : ofItems items handlers subroutines = .ok graph) :
    graph.IsCut items handlers (Pieces.ofItems items).toList := by
  have newFirst := newFirst_of_ofItems built
  have resolvedHandlers := resolved_of_ofItems built
  have formed := Pieces.areFormed_ofItems items
  rcases bind_eq_ok.1 built with ⟨drafts, cut, onward⟩
  rcases bind_eq_ok.1 onward with ⟨blocks, resolved, onward⟩
  rcases bind_eq_ok.1 onward with ⟨handlers', -, same⟩
  rcases pure_eq_ok.1 same with rfl
  rcases Drafts.closed_ofItems cut with ⟨closed, labels⟩
  have each := mapM_eq_ok.1 resolved
  have count : drafts.closed.size = (Pieces.ofItems items).toList.length := by
    rw [← Array.length_toList, closed, List.length_map]
  have size : blocks.toArray.size = (Pieces.ofItems items).toList.length := by
    rw [List.size_toArray, ← each.length_eq, List.length_zipIdx, Array.length_toList, count]
  have madeOf : ∀ (block : Nat) piece code, (Pieces.ofItems items).toList[block]? = some piece →
      blocks.toArray[block]? = some code →
        MadeOf drafts.labels block blocks.toArray.size piece code := by
    intro block piece code isPiece isCode
    rw [List.getElem?_toArray] at isCode
    rcases forall₂_getElem? each isCode with ⟨⟨draft, position⟩, isDraft, run⟩
    rw [List.getElem?_zipIdx, closed, List.getElem?_map, isPiece] at isDraft
    cases isDraft
    rw [Nat.zero_add, count, ← size] at run
    have inside : block < blocks.toArray.size := size ▸ (List.getElem?_eq_some_iff.1 isPiece).1
    refine madeOf_of_resolve inside (fun branch isBranch => ?_) run
    by_contra reaches
    rw [formed.last_open isPiece (by omega)] at isBranch
    cases isBranch
  refine ⟨Pieces.flatMap_items items, formed.marks, fun _ _ => formed.apart, size, madeOf, labels,
    newFirst, fun block code next isCode after => ?_, resolvedHandlers⟩
  have inside : block < (Pieces.ofItems items).toList.length :=
    size ▸ (Array.getElem?_eq_some_iff.1 isCode).1
  exact (madeOf block _ code (List.getElem?_eq_getElem inside) isCode).ends.next after

variable {drafts : Drafts}

theorem mem_labels_iff (cut : Drafts.ofItems subroutines items = .ok drafts) {label : Nat} :
    label ∈ drafts.labels ↔ .label label ∈ items := by
  rw [← Pieces.exists_label_iff, Std.HashMap.mem_iff_isSome_getElem?, Option.isSome_iff_exists]
  simp only [(Drafts.closed_ofItems cut).2, List.mem_iff_getElem?]
  constructor
  · rintro ⟨block, piece, found, member⟩
    exact ⟨piece, ⟨block, found⟩, member⟩
  · rintro ⟨piece, ⟨block, found⟩, member⟩
    exact ⟨block, piece, found, member⟩

theorem exists_blocks_iff (cut : Drafts.ofItems subroutines items = .ok drafts) :
    (∃ blocks, (drafts.closed.toList.zipIdx.mapM fun (draft, position) =>
      draft.resolve drafts.labels (position + 1) (position + 1 = drafts.closed.size)) = .ok blocks) ↔
      (∀ branch, .branch branch ∈ items → ∀ label ∈ branch.targets, .label label ∈ items) ∧
        ∀ frame, Item.Keeps items frame → ∀ label, frame.Mentions label → .label label ∈ items := by
  have each : ∀ holds : Draft → Prop, (∀ pair ∈ drafts.closed.toList.zipIdx, holds pair.1) ↔
      ∀ piece ∈ (Pieces.ofItems items).toList, holds piece.draft := by
    intro holds
    rw [← List.forall_mem_map, List.zipIdx_map_fst, (Drafts.closed_ofItems cut).1,
      List.forall_mem_map]
  simp only [exists_mapM_iff, exists_resolve_iff, mem_labels_iff cut]
  refine (each fun draft => (∀ branch, draft.branch = some branch →
    ∀ label ∈ branch.targets, .label label ∈ items) ∧
      ∀ frame, draft.frame = some frame → ∀ label, frame.Mentions label →
        .label label ∈ items).trans ?_
  constructor
  · intro all
    constructor
    · intro branch isIn
      rcases Pieces.exists_branch_iff.2 isIn with ⟨piece, member, same⟩
      exact (all piece member).1 branch same
    · intro frame keeps
      rcases Pieces.exists_frame_iff.2 keeps with ⟨piece, member, same⟩
      exact (all piece member).2 frame same
  · rintro ⟨branches, frames⟩ piece member
    exact ⟨fun branch same => branches branch (Pieces.exists_branch_iff.1 ⟨piece, member, same⟩),
      fun frame same => frames frame (Pieces.exists_frame_iff.1 ⟨piece, member, same⟩)⟩

/-- Cutting succeeds where the labels are linked. -/
theorem exists_ofItems_iff :
    (∃ graph, ofItems items handlers subroutines = .ok graph) ↔ Linked items handlers subroutines := by
  constructor
  · rintro ⟨graph, built⟩
    rcases bind_eq_ok.1 built with ⟨drafts, cut, onward⟩
    rcases bind_eq_ok.1 onward with ⟨blocks, resolved, onward⟩
    rcases bind_eq_ok.1 onward with ⟨handlers', resolvedHandlers, -⟩
    rcases Drafts.exists_ofItems_iff.1 ⟨drafts, cut⟩ with ⟨once, plain⟩
    rcases (exists_blocks_iff cut).1 ⟨blocks, resolved⟩ with ⟨branches, frames⟩
    refine ⟨once, plain, branches, frames, fun handler member => ?_⟩
    simp only [← mem_labels_iff cut]
    exact exists_resolveHandler_iff.1 (exists_mapM_iff.1 ⟨_, resolvedHandlers⟩ handler member)
  · intro linked
    rcases Drafts.exists_ofItems_iff.2 ⟨linked.once, linked.plain⟩ with ⟨drafts, cut⟩
    rcases (exists_blocks_iff cut).2 ⟨linked.branches, linked.frames⟩ with ⟨blocks, resolved⟩
    have each : ∀ handler ∈ handlers, ∃ result, resolveHandler drafts.labels handler = .ok result := by
      intro handler member
      rw [exists_resolveHandler_iff, mem_labels_iff cut, mem_labels_iff cut, mem_labels_iff cut]
      exact linked.handlers handler member
    rcases exists_mapM_eq_ok each with ⟨handlers', resolvedHandlers⟩
    exact ⟨_, bind_eq_ok.2 ⟨drafts, cut, bind_eq_ok.2 ⟨blocks, resolved, bind_eq_ok.2
      ⟨handlers', resolvedHandlers, rfl⟩⟩⟩⟩

/-- Cutting items into blocks succeeds just when their labels are linked, and then gives one
block for every piece of the items. -/
theorem ofItems_linked (items : List Item) (handlers : List Handler) (subroutines : Bool) :
    ((∃ graph, ofItems items handlers subroutines = .ok graph) ↔
        Linked items handlers subroutines) ∧
      ∀ graph, ofItems items handlers subroutines = .ok graph →
        ∃ pieces, graph.IsCut items handlers pieces :=
  ⟨exists_ofItems_iff, fun _ built => ⟨_, isCut_of_ofItems built⟩⟩

/-- A loop with two labels at its head, a frame between them, and a label at the very end. -/
def loopItems : List Item :=
  [.instruction (.withClass .new 1), .label 1, .frame ⟨[], [.uninitialized 4]⟩, .label 2,
    .branch (.goto 1), .label 4, .instruction (.withClass .new 1),
    .branch (.conditional (.null .eq) 3 ()), .label 3]

theorem ofItems_linked_loop : Linked loopItems [⟨4, 3, 2, none⟩] false ∧
    ∃ graph pieces, ofItems loopItems [⟨4, 3, 2, none⟩] false = .ok graph ∧
      graph.IsCut loopItems [⟨4, 3, 2, none⟩] pieces := by
  rcases ofItems_linked loopItems [⟨4, 3, 2, none⟩] false with ⟨succeeds, cuts⟩
  have linked : Linked loopItems [⟨4, 3, 2, none⟩] false := by
    refine ⟨by decide, fun _ branch member => ?_, fun branch member => ?_,
      fun frame ⟨front, back, whole, _⟩ => ?_, by decide⟩
    · simp only [loopItems, List.mem_cons, reduceCtorEq, false_or, Item.branch.injEq] at member
      rcases member with rfl | rfl | none
      · rfl
      · rfl
      · cases none
    · simp only [loopItems, List.mem_cons, reduceCtorEq, false_or, Item.branch.injEq] at member
      rcases member with rfl | rfl | none
      · decide
      · decide
      · cases none
    · have member : .frame frame ∈ loopItems := whole ▸ List.mem_append_right front List.mem_cons_self
      simp only [loopItems, List.mem_cons, reduceCtorEq, false_or, Item.frame.injEq] at member
      rcases member with rfl | none
      · rintro label (inLocals | inStack)
        · cases inLocals
        · simp only [List.mem_singleton, VerificationType.uninitialized.injEq] at inStack
          rw [inStack]
          decide
      · cases none
  refine ⟨linked, ?_⟩
  rcases succeeds.2 linked with ⟨graph, run⟩
  rcases cuts graph run with ⟨pieces, isCut⟩
  exact ⟨graph, pieces, run, isCut⟩

/-- A frame that is replaced before any code may use labels that are never placed. -/
theorem ofItems_replaced_frame :
    (∃ graph, ofItems [.frame ⟨[.uninitialized 9], []⟩, .frame ⟨[], []⟩,
      .branch (.returns none)] [] false = .ok graph) ∧
      Frame.Mentions ⟨[.uninitialized 9], []⟩ 9 ∧
      .label 9 ∉ [.frame ⟨[.uninitialized 9], []⟩, .frame ⟨[], []⟩, Item.branch (.returns none)] :=
  ⟨⟨_, rfl⟩, .inl List.mem_cons_self, by decide⟩

end FlowGraph
end ClassFile
