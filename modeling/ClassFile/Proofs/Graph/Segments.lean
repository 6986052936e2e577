import ClassFile.Code.FlowGraph
import ClassFile.Proofs.Graph.Branches

namespace ClassFile
namespace FlowGraph

/-!
# Blocks and the items they were cut from

The items of a method fall into one segment for every block.  A segment starts
with the labels and frames of the block, then come its instructions, and then its
branch, if one was recorded.  A label is resolved to the block whose segment it
stands in, so every block that a branch or a handler leads to is there.
-/

/-- A label or a frame that stands before the instructions of a block. -/
inductive IsMark (labels : Std.HashMap Nat Nat) (block : Nat) : Item → Prop
  | label {label : Nat} (placed : labels[label]? = some block) : IsMark labels block (.label label)
  | frame (frame : Frame String Nat) : IsMark labels block (.frame frame)

/-- A list of items makes up a block. -/
def Draft.Spells (labels : Std.HashMap Nat Nat) (block : Nat) (draft : Draft)
    (items : List Item) : Prop :=
  ∃ marks, items = marks ++ draft.instructions.toList.map Item.instruction ++
    draft.branch.toList.map Item.branch ∧ ∀ mark ∈ marks, IsMark labels block mark

/-- A mark belongs to the open block when that has no instructions yet. -/
theorem Draft.Spells.addMark {labels : Std.HashMap Nat Nat} {block : Nat} {draft : Draft}
    {items : List Item} (spells : draft.Spells labels block items)
    (empty : draft.instructions = #[]) (open_ : draft.branch = none) {mark : Item}
    (isMark : IsMark labels block mark) (frame : Option (Frame String Nat)) :
    Draft.Spells labels block { draft with frame } (items ++ [mark]) := by
  obtain ⟨marks, spelled, areMarks⟩ := spells
  refine ⟨marks ++ [mark], ?_, fun other member => ?_⟩
  · rw [spelled, empty, open_]
    simp
  · rcases List.mem_append.1 member with earlier | here
    · exact areMarks other earlier
    · exact List.mem_singleton.1 here ▸ isMark

theorem Draft.Spells.mono {labels more : Std.HashMap Nat Nat} {block : Nat} {draft : Draft}
    {items : List Item} (spells : draft.Spells labels block items)
    (grows : ∀ label block : Nat, labels[label]? = some block → more[label]? = some block) :
    draft.Spells more block items := by
  obtain ⟨marks, spelled, areMarks⟩ := spells
  refine ⟨marks, spelled, fun mark member => ?_⟩
  cases areMarks mark member with
  | label placed => exact .label (grows _ _ placed)
  | frame frame => exact .frame frame

namespace Drafts

/-- A label is placed once. -/
theorem addLabel_eq_ok {drafts after : Drafts} {label : Nat} :
    drafts.addLabel label = .ok after ↔ label ∉ drafts.labels ∧
      { drafts with labels := drafts.labels.insert label drafts.closed.size } = after := by
  rw [addLabel]
  split
  · next placed =>
    refine ⟨fun same => ?_, fun fresh => absurd placed fresh.1⟩
    cases same
  · next fresh =>
    exact ⟨fun same => ⟨fresh, Except.ok.inj same⟩, fun same => congrArg Except.ok same.2⟩

/-! A block is cut where it has instructions. -/

theorem split_of_empty {drafts : Drafts} (empty : drafts.open_.instructions = #[]) :
    drafts.split = drafts :=
  if_pos (by rw [empty]; rfl)

theorem split_of_some {drafts : Drafts} (some_ : drafts.open_.instructions ≠ #[]) :
    drafts.split = drafts.cut :=
  if_neg (by rwa [Array.isEmpty_iff])

theorem isEmpty_split (drafts : Drafts) : drafts.split.open_.instructions = #[] := by
  rw [Drafts.split]
  split
  · next empty => exact Array.isEmpty_iff.1 empty
  · rfl

theorem labels_split (drafts : Drafts) : drafts.split.labels = drafts.labels := by
  rw [Drafts.split]
  split <;> rfl

theorem branch_split {drafts : Drafts} (falls : drafts.open_.branch = none) :
    drafts.split.open_.branch = none := by
  rw [Drafts.split]
  split
  · exact falls
  · rfl

/-- Instructions that make no object go to the open block. -/
theorem foldlM_add_instructions {subroutines : Bool} {instructions : List Instruction}
    (old : ∀ instruction ∈ instructions, instruction.isNew = false) (drafts : Drafts) :
    (instructions.map Item.instruction).foldlM (add subroutines) drafts =
      .ok ⟨drafts.closed, drafts.labels, ⟨drafts.open_.frame,
        drafts.open_.instructions ++ instructions.toArray, drafts.open_.branch⟩⟩ := by
  induction instructions generalizing drafts with
  | nil =>
    rw [Array.append_empty]
    rfl
  | cons instruction instructions ih =>
    rw [List.forall_mem_cons] at old
    rw [List.map_cons, List.foldlM_cons, add, old.1]
    refine (ih old.2 _).trans ?_
    rw [List.toArray_cons, ← Array.append_assoc, Array.append_singleton]
    rfl

/-- Items cut into blocks, of which the last one is still open. -/
structure Cuts (drafts : Drafts) (segments : List (List Item)) (last : List Item) : Prop where
  length_eq : segments.length = drafts.closed.size
  closed : ∀ block (draft : Draft) segment, drafts.closed[block]? = some draft →
    segments[block]? = some segment → draft.Spells drafts.labels block segment
  open_ : drafts.open_.Spells drafts.labels drafts.closed.size last
  inside : ∀ label block : Nat, drafts.labels[label]? = some block → block ≤ drafts.closed.size

variable {drafts after : Drafts} {segments : List (List Item)} {last : List Item}

theorem Cuts.cut (cuts : Cuts drafts segments last) :
    Cuts drafts.cut (segments ++ [last]) [] := by
  refine ⟨?_, fun block draft segment isDraft isSegment => ?_, ⟨[], rfl, fun _ member => ?_⟩,
    fun label block placed => ?_⟩
  · rw [Drafts.cut, List.length_append, cuts.length_eq, Array.size_push]
    rfl
  · rw [Drafts.cut, Array.getElem?_push] at isDraft
    split at isDraft
    · next here =>
      subst here
      rw [← cuts.length_eq, List.getElem?_concat_length] at isSegment
      obtain rfl := Option.some.inj isDraft
      obtain rfl := Option.some.inj isSegment
      exact cuts.open_
    · have inside : block < segments.length := by
        rw [cuts.length_eq]
        exact (Array.getElem?_eq_some_iff.1 isDraft).1
      rw [List.getElem?_append_left inside] at isSegment
      exact cuts.closed block draft segment isDraft isSegment
  · cases member
  · rw [Drafts.cut, Array.size_push]
    exact Nat.le_succ_of_le (cuts.inside label block placed)

/-- After a split the open block has no instructions. -/
theorem Cuts.split (cuts : Cuts drafts segments last) (open_ : drafts.open_.branch = none) :
    ∃ segments' last', Cuts drafts.split segments' last' ∧
      segments'.flatten ++ last' = segments.flatten ++ last ∧
        drafts.split.open_.instructions = #[] ∧ drafts.split.open_.branch = none := by
  rw [Drafts.split]
  split
  · next empty => exact ⟨segments, last, cuts, rfl, Array.isEmpty_iff.1 empty, open_⟩
  · refine ⟨segments ++ [last], [], cuts.cut, ?_, rfl, rfl⟩
    rw [List.flatten_append, List.flatten_singleton, List.append_nil]

theorem Cuts.addInstruction (cuts : Cuts drafts segments last)
    (open_ : drafts.open_.branch = none) (instruction : Instruction) :
    Cuts (drafts.addInstruction instruction) segments (last ++ [.instruction instruction]) := by
  obtain ⟨marks, spelled, areMarks⟩ := cuts.open_
  refine ⟨cuts.length_eq, cuts.closed, ⟨marks, ?_, areMarks⟩, cuts.inside⟩
  rw [spelled, open_, Drafts.addInstruction, open_]
  simp

theorem Cuts.addBranch (cuts : Cuts drafts segments last) (open_ : drafts.open_.branch = none)
    (branch : Branch Nat Nat Unit) :
    Cuts (drafts.addBranch branch) (segments ++ [last ++ [.branch branch]]) [] := by
  obtain ⟨marks, spelled, areMarks⟩ := cuts.open_
  have closing : Cuts { drafts with open_ := { drafts.open_ with branch := some branch } }
      segments (last ++ [.branch branch]) := by
    refine ⟨cuts.length_eq, cuts.closed, ⟨marks, ?_, areMarks⟩, cuts.inside⟩
    rw [spelled, open_]
    simp
  exact closing.cut

theorem Cuts.addFrame (cuts : Cuts drafts segments last) (empty : drafts.open_.instructions = #[])
    (open_ : drafts.open_.branch = none) (frame : Frame String Nat) :
    Cuts (drafts.addFrame frame) segments (last ++ [.frame frame]) :=
  ⟨cuts.length_eq, cuts.closed, cuts.open_.addMark empty open_ (.frame frame) (some frame),
    cuts.inside⟩

theorem Cuts.addLabel (cuts : Cuts drafts segments last) (empty : drafts.open_.instructions = #[])
    (open_ : drafts.open_.branch = none) {label : Nat}
    (run : drafts.addLabel label = .ok after) :
    Cuts after segments (last ++ [.label label]) ∧ after.open_ = drafts.open_ := by
  obtain ⟨fresh, rfl⟩ := addLabel_eq_ok.1 run
  have grows : ∀ other block : Nat, drafts.labels[other]? = some block →
      (drafts.labels.insert label drafts.closed.size)[other]? = some block := by
    intro other block placed
    rw [Std.HashMap.getElem?_insert]
    split
    · next same =>
      obtain rfl := eq_of_beq same
      rw [Std.HashMap.getElem?_eq_none fresh] at placed
      cases placed
    · exact placed
  refine ⟨⟨cuts.length_eq, fun block draft segment isDraft isSegment =>
    (cuts.closed block draft segment isDraft isSegment).mono grows, ?_, ?_⟩, rfl⟩
  · exact (cuts.open_.mono grows).addMark empty open_
      (.label (Std.HashMap.getElem?_insert_self)) drafts.open_.frame
  · intro other block placed
    dsimp only at placed
    rw [Std.HashMap.getElem?_insert] at placed
    split at placed
    · exact Nat.le_of_eq (Option.some.inj placed).symm
    · exact cuts.inside other block placed

theorem Cuts.add {subroutines : Bool} (cuts : Cuts drafts segments last)
    (open_ : drafts.open_.branch = none) {item : Item}
    (run : drafts.add subroutines item = .ok after) :
    ∃ segments' last', Cuts after segments' last' ∧
      segments'.flatten ++ last' = segments.flatten ++ last ++ [item] ∧
        after.open_.branch = none := by
  obtain ⟨segments', last', split, whole, empty, none⟩ := cuts.split open_
  cases item with
  | label label =>
    obtain ⟨added, same⟩ := split.addLabel empty none run
    refine ⟨segments', _, added, ?_, same ▸ none⟩
    rw [← List.append_assoc, whole]
  | frame frame =>
    obtain rfl := Except.ok.inj run
    refine ⟨segments', _, split.addFrame empty none frame, ?_, none⟩
    rw [← List.append_assoc, whole]
  | instruction instruction =>
    obtain rfl := Except.ok.inj run
    split
    · refine ⟨segments', _, split.addInstruction none instruction, ?_, none⟩
      rw [← List.append_assoc, whole]
    · exact ⟨segments, _, cuts.addInstruction open_ instruction, (List.append_assoc ..).symm, open_⟩
  | branch branch =>
    rw [Drafts.add] at run
    split at run
    · cases run
    · obtain rfl := Except.ok.inj run
      refine ⟨_, [], cuts.addBranch open_ branch, ?_, rfl⟩
      simp

theorem Cuts.addAll {subroutines : Bool} {items : List Item} (cuts : Cuts drafts segments last)
    (open_ : drafts.open_.branch = none)
    (run : items.foldlM (Drafts.add subroutines) drafts = .ok after) :
    ∃ segments' last', Cuts after segments' last' ∧
      segments'.flatten ++ last' = segments.flatten ++ last ++ items ∧
        after.open_.branch = none := by
  induction items generalizing drafts segments last with
  | nil =>
    obtain rfl := pure_eq_ok.1 run
    exact ⟨segments, last, cuts, (List.append_nil _).symm, open_⟩
  | cons item items ih =>
    obtain ⟨middle, first, rest⟩ := foldlM_cons_eq_ok.1 run
    obtain ⟨segments', last', cuts', whole', open'⟩ := cuts.add open_ first
    obtain ⟨segments'', last'', cuts'', whole'', open''⟩ := ih cuts' open' rest
    refine ⟨segments'', last'', cuts'', ?_, open''⟩
    rw [whole'', whole', List.append_assoc _ [item] items]
    rfl

theorem mem_of_getElem? {labels : Std.HashMap Nat Nat} {label block : Nat}
    (known : labels[label]? = some block) : label ∈ labels := by
  rw [Std.HashMap.mem_iff_isSome_getElem?, known]
  rfl

/-- Only labels are placed, each of them where it stands. -/
theorem mem_of_add {subroutines : Bool} {item : Item} (run : drafts.add subroutines item = .ok after)
    {label : Nat} (known : label ∈ after.labels) : label ∈ drafts.labels ∨ item = .label label := by
  have split := labels_split drafts
  cases item with
  | label other =>
    obtain ⟨-, rfl⟩ := addLabel_eq_ok.1 run
    rcases Std.HashMap.mem_insert.1 known with same | before
    · exact .inr (congrArg Item.label (eq_of_beq same))
    · exact .inl (split ▸ before)
  | frame frame =>
    cases run
    exact .inl (split ▸ known)
  | instruction instruction =>
    cases run
    left
    split at known
    · exact split ▸ known
    · exact known
  | branch branch =>
    rw [Drafts.add] at run
    split at run <;> cases run
    exact .inl known

theorem mem_of_addAll {subroutines : Bool} {items : List Item}
    (run : items.foldlM (Drafts.add subroutines) drafts = .ok after) {label : Nat}
    (known : label ∈ after.labels) : label ∈ drafts.labels ∨ .label label ∈ items := by
  induction items generalizing drafts with
  | nil =>
    obtain rfl := pure_eq_ok.1 run
    exact .inl known
  | cons item items ih =>
    obtain ⟨middle, first, rest⟩ := foldlM_cons_eq_ok.1 run
    rcases ih rest with before | later
    · rcases mem_of_add first before with before | rfl
      · exact .inl before
      · exact .inr List.mem_cons_self
    · exact .inr (List.mem_cons_of_mem _ later)

theorem mem_of_ofItems {subroutines : Bool} {items : List Item}
    (run : Drafts.ofItems subroutines items = .ok drafts) {label : Nat}
    (known : label ∈ drafts.labels) : .label label ∈ items := by
  obtain ⟨before, added, same⟩ := bind_eq_ok.1 run
  obtain rfl := pure_eq_ok.1 same
  exact (mem_of_addAll added known).resolve_left Std.HashMap.not_mem_empty

/-- The blocks that recorded items are cut into, and the items of each. -/
theorem cuts_of_ofItems {subroutines : Bool} {items : List Item}
    (run : Drafts.ofItems subroutines items = .ok drafts) :
    ∃ segments, Cuts drafts segments [] ∧ segments.flatten = items ∧
      0 < drafts.closed.size ∧
        (∀ label block : Nat, drafts.labels[label]? = some block → block < drafts.closed.size) ∧
        ∀ draft : Draft, drafts.closed[drafts.closed.size - 1]? = some draft →
          draft.branch = none := by
  obtain ⟨before, added, same⟩ := bind_eq_ok.1 run
  obtain rfl := pure_eq_ok.1 same
  have nothing : Cuts Drafts.empty [] [] := by
    refine ⟨rfl, fun block draft segment found => ?_, ⟨[], rfl, fun _ member => ?_⟩,
      fun label block placed => ?_⟩
    · rw [Drafts.empty, Array.getElem?_empty] at found
      cases found
    · cases member
    · rw [Drafts.empty, Std.HashMap.getElem?_empty] at placed
      cases placed
  obtain ⟨segments, last, cuts, whole, open_⟩ := nothing.addAll rfl added
  have size : before.cut.closed.size = before.closed.size + 1 := Array.size_push ..
  refine ⟨segments ++ [last], cuts.cut, ?_, ?_, fun label block placed => ?_, fun draft found => ?_⟩
  · rw [List.flatten_append, List.flatten_singleton]
    exact whole
  · rw [size]
    exact Nat.succ_pos _
  · rw [size]
    exact Nat.lt_succ_of_le (cuts.inside label block placed)
  · rw [size, Nat.add_sub_cancel, Drafts.cut, Array.getElem?_push_size] at found
    exact Option.some.inj found ▸ open_

end Drafts

/-! ## Resolved blocks -/

/-- How a block ends, given what was recorded for it.  The last block runs off
the end of the code. -/
inductive Ends (labels : Std.HashMap Nat Nat) (block count : Nat) :
    Option (Branch Nat Nat Unit) → Branch Nat Nat Nat → Prop
  | recorded {branch : Branch Nat Nat Unit} {resolved : Branch Nat Nat Nat}
      (inner : block + 1 < count)
      (renamed : Branch.Renamed (fun label target => labels[label]? = some target)
        (fun label target => labels[label]? = some target) (fun _ next => next = block + 1)
        branch resolved) : Ends labels block count (some branch) resolved
  | through (inner : block + 1 < count) : Ends labels block count none (.fallThrough (block + 1))
  | stops (last : block + 1 = count) : Ends labels block count none .stop

/-- A block and the items that it was cut from. -/
def IsSegment (graph : FlowGraph) (block : Nat) (code : CodeBlock) (items : List Item) : Prop :=
  ∃ marks branch?, items = marks ++ code.instructions.toList.map Item.instruction ++
    branch?.toList.map Item.branch ∧ (∀ mark ∈ marks, IsMark graph.labels block mark) ∧
      Ends graph.labels block graph.blocks.size branch? code.branch

theorem resolve_eq_ok {labels : Std.HashMap Nat Nat} {label block : Nat} :
    resolve labels label = .ok block ↔ labels[label]? = some block := by
  rw [resolve]
  constructor
  · intro run
    split at run
    · next found => exact (Except.ok.inj run) ▸ found
    · cases run
  · intro found
    rw [found]

/-- The end of a block, of which labels are resolved. -/
def Draft.ending (labels : Std.HashMap Nat Nat) (draft : Draft) (next : Nat) (isLast : Bool) :
    Except Fault (Branch Nat Nat Nat) :=
  match draft.branch with
  | some branch => branch.mapM (FlowGraph.resolve labels) (FlowGraph.resolve labels) fun _ => return next
  | none => return if isLast then .stop else .fallThrough next

/-- A block is resolved where its branch and its frame are. -/
theorem Draft.resolve_eq_ok {labels : Std.HashMap Nat Nat} {draft : Draft} {next : Nat}
    {isLast : Bool} {code : CodeBlock} : draft.resolve labels next isLast = .ok code ↔
      draft.ending labels next isLast = .ok code.branch ∧
        (draft.frame.mapM fun frame => frame.mapM pure (FlowGraph.resolve labels)) = .ok code.frame ∧
          draft.instructions = code.instructions := by
  have unfolded : draft.resolve labels next isLast = (do
      let branch ← draft.ending labels next isLast
      let frame ← draft.frame.mapM fun frame => frame.mapM pure (FlowGraph.resolve labels)
      return ⟨frame, draft.instructions, branch⟩) := by
    rcases draft with ⟨frame, instructions, branch⟩
    cases branch <;> rfl
  rw [unfolded]
  constructor
  · intro run
    rcases bind_eq_ok.1 run with ⟨branch, ends, onward⟩
    rcases bind_eq_ok.1 onward with ⟨frame, framed, same⟩
    rcases pure_eq_ok.1 same with rfl
    exact ⟨ends, framed, rfl⟩
  · rintro ⟨ends, framed, same⟩
    rw [same]
    exact bind_eq_ok.2 ⟨_, ends, bind_eq_ok.2 ⟨_, framed, rfl⟩⟩

theorem Draft.ends_of_resolve {labels : Std.HashMap Nat Nat} {draft : Draft} {block count : Nat}
    {code : CodeBlock} (inside : block < count)
    (inner : ∀ branch, draft.branch = some branch → block + 1 < count)
    (run : draft.resolve labels (block + 1) (block + 1 = count) = .ok code) :
    code.instructions = draft.instructions ∧
      Ends labels block count draft.branch code.branch := by
  rcases Draft.resolve_eq_ok.1 run with ⟨ends, -, instructions⟩
  refine ⟨instructions.symm, ?_⟩
  rw [Draft.ending] at ends
  split at ends
  · next branch isBranch =>
    rw [isBranch]
    exact .recorded (inner branch isBranch) ((Branch.renamed_of_mapM ends).mono
      (fun _ _ => FlowGraph.resolve_eq_ok.1) (fun _ _ => FlowGraph.resolve_eq_ok.1)
      (fun _ _ same => (pure_eq_ok.1 same).symm))
  · next isBranch =>
    rw [isBranch, ← pure_eq_ok.1 ends]
    by_cases last : block + 1 = count
    · simp only [last, decide_true, if_true]
      exact .stops last
    · simp only [last, decide_false, if_false, Bool.false_eq_true]
      exact .through (by omega)

/-- What is known of a graph that was cut from items: every label and every
handler leads to one of the blocks, and each block has a segment of the items. -/
structure Segmented (graph : FlowGraph) (items : List Item) (segments : List (List Item)) :
    Prop where
  whole : segments.flatten = items
  length_eq : segments.length = graph.blocks.size
  some_ : 0 < graph.blocks.size
  labels : ∀ label block : Nat, graph.labels[label]? = some block → block < graph.blocks.size
  placed : ∀ label block : Nat, graph.labels[label]? = some block → .label label ∈ items
  handlers : ∀ handler ∈ graph.handlers, handler.entry < graph.blocks.size
  each : ∀ block code segment, graph.blocks[block]? = some code →
    segments[block]? = some segment → IsSegment graph block code segment

theorem segmented_of_ofItems {items : List Item} {handlers : List Handler} {subroutines : Bool}
    {graph : FlowGraph} (built : ofItems items handlers subroutines = .ok graph) :
    ∃ segments, Segmented graph items segments := by
  obtain ⟨drafts, cut, built⟩ := bind_eq_ok.1 built
  obtain ⟨blocks, resolved, built⟩ := bind_eq_ok.1 built
  obtain ⟨handlers', resolvedHandlers, same⟩ := bind_eq_ok.1 built
  obtain rfl := pure_eq_ok.1 same
  obtain ⟨segments, cuts, whole, some_, labels, lastOpen⟩ := Drafts.cuts_of_ofItems cut
  have each := mapM_eq_ok.1 resolved
  have size : blocks.toArray.size = drafts.closed.size := by
    rw [List.size_toArray, ← each.length_eq, List.length_zipIdx, Array.length_toList]
  refine ⟨segments, whole, cuts.length_eq.trans size.symm, size ▸ some_, size ▸ labels,
    fun label block known => Drafts.mem_of_ofItems cut (Drafts.mem_of_getElem? known),
    fun handler member => ?_, fun block code segment isCode isSegment => ?_⟩
  · obtain ⟨recorded, -, run⟩ := forall₂_mem (mapM_eq_ok.1 resolvedHandlers) member
    obtain ⟨start, -, run⟩ := bind_eq_ok.1 run
    obtain ⟨stop, -, run⟩ := bind_eq_ok.1 run
    obtain ⟨entry, found, same⟩ := bind_eq_ok.1 run
    obtain rfl := pure_eq_ok.1 same
    rw [size]
    exact labels _ _ (resolve_eq_ok.1 found)
  · rw [List.getElem?_toArray] at isCode
    obtain ⟨⟨_, position⟩, isDraft, run⟩ := forall₂_getElem? each isCode
    rw [List.getElem?_zipIdx, Option.map_eq_some_iff] at isDraft
    obtain ⟨draft, isDraft, same⟩ := isDraft
    obtain ⟨rfl, rfl⟩ := Prod.mk.inj same
    rw [Array.getElem?_toList] at isDraft
    rw [Nat.zero_add] at run
    have inside := (Array.getElem?_eq_some_iff.1 isDraft).1
    have inner : ∀ branch, draft.branch = some branch → block + 1 < drafts.closed.size := by
      intro branch isBranch
      by_contra reaches
      have last : block = drafts.closed.size - 1 := by omega
      rw [lastOpen draft (last ▸ isDraft)] at isBranch
      cases isBranch
    obtain ⟨instructions, ends⟩ := Draft.ends_of_resolve inside inner run
    obtain ⟨marks, spelled, areMarks⟩ := cuts.closed block draft segment isDraft isSegment
    refine ⟨marks, draft.branch, ?_, areMarks, ?_⟩
    · rw [spelled, instructions]
    · rw [size]
      exact ends

/-- Handlers keep their order when their labels are resolved. -/
theorem resolved_of_ofItems {items : List Item} {handlers : List Handler} {subroutines : Bool}
    {graph : FlowGraph} (built : ofItems items handlers subroutines = .ok graph) :
    List.Forall₂ (fun recorded handler => resolveHandler graph.labels recorded = .ok handler)
      handlers graph.handlers := by
  obtain ⟨drafts, -, built⟩ := bind_eq_ok.1 built
  obtain ⟨blocks, -, built⟩ := bind_eq_ok.1 built
  obtain ⟨resolved, each, same⟩ := bind_eq_ok.1 built
  obtain rfl := pure_eq_ok.1 same
  exact mapM_eq_ok.1 each

end FlowGraph
end ClassFile
