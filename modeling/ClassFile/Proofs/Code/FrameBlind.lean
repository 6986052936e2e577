import ClassFile.Proofs.Code.Computed

namespace ClassFile

/-!
# Code apart from its frames

The frames of blocks have no part in how blocks are padded, widened, laid out and
measured.  So blocks that differ in their frames only are laid out at the same offsets
and written as the same bytes.
-/

namespace Assembly

open Widening

variable {blocks others : Array CodeBlock}

theorem sameCode_iff :
    SameCode blocks others ↔ blocks.toList.map contents = others.toList.map contents := by
  rw [List.ext_getElem?_iff]
  refine forall_congr' fun block => ?_
  rw [List.getElem?_map, List.getElem?_map, Array.getElem?_toList, Array.getElem?_toList]

/-- The two blocks at a position, if there are any. -/
theorem SameCode.both (same : SameCode blocks others) (block : Nat) :
    blocks[block]? = none ∧ others[block]? = none ∨
      ∃ (code : CodeBlock) (frame : Option BlockFrame), blocks[block]? = some code ∧
        others[block]? = some ⟨frame, code.instructions, code.branch⟩ := by
  cases there : blocks[block]? with
  | some code =>
    obtain ⟨frame, there'⟩ := same.exists_code there
    exact .inr ⟨code, frame, rfl, there'⟩
  | none =>
    have here := same block
    rw [there, Option.map_none, eq_comm, Option.map_eq_none_iff] at here
    exact .inl ⟨rfl, here⟩

/-! ## Padding -/

theorem contents_alignedFrom {codes codes' : List CodeBlock}
    (same : codes.map contents = codes'.map contents) (offset : Nat) :
    (alignedFrom offset codes).map contents = (alignedFrom offset codes').map contents := by
  induction codes generalizing codes' offset with
  | nil =>
    obtain rfl := List.map_eq_nil_iff.1 same.symm
    rfl
  | cons code codes ih =>
    cases codes' with
    | nil => cases same
    | cons code' codes' =>
      obtain ⟨here, rest⟩ := List.cons_eq_cons.1 same
      obtain ⟨frame, instructions, branch⟩ := code
      obtain ⟨frame', instructions', branch'⟩ := code'
      obtain ⟨rfl, rfl⟩ := Prod.mk.inj here
      exact congrArg (_ :: ·) (ih rest _)

theorem SameCode.align (same : SameCode blocks others) :
    SameCode (alignSwitches blocks) (alignSwitches others) := by
  rw [sameCode_iff] at same ⊢
  rw [alignSwitches_eq, alignSwitches_eq]
  exact contents_alignedFrom same 0

/-! ## Widening -/

theorem SameCode.jumpsOf_eq (same : SameCode blocks others) (range : Range) (order : List Nat) :
    jumpsOf range blocks order = jumpsOf range others order := by
  unfold jumpsOf
  rw [same.starts_eq]
  refine List.filterMap_congr fun block _ => ?_
  rcases same.both block with ⟨there, there'⟩ | ⟨code, frame, there, there'⟩
  · rw [there, there']
  · rw [there, there']
    rfl

theorem SameCode.farJumps_eq (same : SameCode blocks others) (range : Range) (order : List Nat) :
    farJumps range blocks order = farJumps range others order := by
  unfold farJumps
  rw [same.jumpsOf_eq]

theorem SameCode.chosenJumps_eq (same : SameCode blocks others) (range : Range)
    (order : List Nat) : chosenJumps range blocks order = chosenJumps range others order := by
  rw [chosenJumps, same.farJumps_eq, chosenJumps]

theorem SameCode.modify (same : SameCode blocks others) (block : Nat) :
    SameCode (blocks.modify block (widenJump .nop)) (others.modify block (widenJump .nop)) := by
  intro other
  rw [Array.getElem?_modify, Array.getElem?_modify]
  split
  · rcases same.both other with ⟨there, there'⟩ | ⟨code, frame, there, there'⟩
    · rw [there, there']
    · rw [there, there']
      obtain ⟨_, instructions, branch⟩ := code
      cases branch <;> rfl
  · exact same other

theorem SameCode.push (same : SameCode blocks others) {code code' : CodeBlock}
    (sameContents : contents code = contents code') :
    SameCode (blocks.push code) (others.push code') := by
  rw [sameCode_iff] at same ⊢
  rw [Array.toList_push, Array.toList_push, List.map_append, List.map_append, same,
    List.map_singleton, List.map_singleton, sameContents]

theorem SameCode.set (same : SameCode blocks others) (block : Nat) {code code' : CodeBlock}
    (sameContents : contents code = contents code') :
    SameCode (blocks.setIfInBounds block code) (others.setIfInBounds block code') := by
  rw [sameCode_iff] at same ⊢
  rw [Array.toList_setIfInBounds, Array.toList_setIfInBounds, List.map_set, List.map_set, same,
    sameContents]

theorem SameCode.splitBranch (same : SameCode blocks others) (first block : Nat) :
    SameCode (Widening.splitBranch none first blocks block)
      (Widening.splitBranch none first others block) := by
  unfold Widening.splitBranch
  rcases same.both block with ⟨there, there'⟩ | ⟨code, frame, there, there'⟩
  · rw [there, there']
    exact same
  · rw [there, there']
    obtain ⟨_, instructions, branch⟩ := code
    cases branch with
    | conditional condition target next =>
      refine ((same.set block ?_).push ?_).push ?_ <;> rfl
    | _ => exact same

theorem SameCode.foldl {change : Array CodeBlock → Nat → Array CodeBlock}
    (keeps : ∀ {blocks others : Array CodeBlock}, SameCode blocks others → ∀ block,
      SameCode (change blocks block) (change others block))
    (same : SameCode blocks others) (names : List Nat) :
    SameCode (names.foldl change blocks) (names.foldl change others) := by
  induction names generalizing blocks others with
  | nil => exact same
  | cons name names ih => exact ih (keeps same name)

theorem SameCode.rewriteBlocks (same : SameCode blocks others) (far : List Jump) :
    SameCode (Widening.rewriteBlocks .nop none far blocks)
      (Widening.rewriteBlocks .nop none far others) := by
  unfold Widening.rewriteBlocks
  rw [same.size_eq]
  refine SameCode.foldl (fun same block => ?_)
    (SameCode.foldl (fun same block => ?_) same (padNames far)) (splitNames far)
  · exact same.splitBranch _ block
  · exact same.modify block

/-- Widening does the same to blocks that differ in their frames only. -/
theorem SameCode.widened (same : SameCode blocks others) :
    SameCode (widened blocks).blocks (widened others).blocks ∧
      (widened blocks).order = (widened others).order := by
  unfold Assembly.widened
  rw [same.size_eq, widen_eq_chosen (splitOnce_of_nodup _ blocks List.nodup_range),
    widen_eq_chosen (splitOnce_of_nodup _ others List.nodup_range), same.size_eq, same.chosenJumps_eq]
  exact ⟨same.rewriteBlocks _, rfl⟩

theorem SameCode.plain (same : SameCode blocks others) {order : List Nat}
    (plain : Plain blocks order) : Plain others order := by
  have onward : ∀ {block : Nat} {code : CodeBlock}, others[block]? = some code →
      ∃ frame, blocks[block]? = some ⟨frame, code.instructions, code.branch⟩ := by
    intro block code there
    rcases same.both block with ⟨-, there'⟩ | ⟨code', frame, there', there''⟩
    · cases there.symm.trans there'
    · obtain rfl := Option.some.inj (there.symm.trans there'')
      exact ⟨code'.frame, there'⟩
  constructor
  case distinct => exact plain.distinct
  case inside => exact same.size_eq ▸ plain.inside
  case placed =>
    intro block placed code there target isTarget
    obtain ⟨frame, there'⟩ := onward there
    exact plain.placed block placed _ there' target isTarget
  case follows =>
    intro block placed code there condition target next branch
    obtain ⟨frame, there'⟩ := onward there
    exact plain.follows block placed _ there' condition target next branch

/-- The same blocks are rewritten in the same way, each with the frames it has. -/
theorem SameCode.rewriting (same : SameCode blocks others)
    (plain : Plain blocks (List.range blocks.size)) :
    ∃ far parts,
      Rewriting .nop none blocks (List.range blocks.size) (Assembly.widened blocks) far parts ∧
        Rewriting .nop none others (List.range blocks.size) (Assembly.widened others) far parts := by
  unfold Assembly.widened
  rw [← same.size_eq, widen_eq_chosen (splitOnce_of_nodup _ blocks List.nodup_range),
    widen_eq_chosen (splitOnce_of_nodup _ others List.nodup_range), ← same.size_eq,
    ← same.chosenJumps_eq]
  have chosen := chosen_chosenJumps .short blocks (List.range blocks.size)
  have chosen' := chosen_chosenJumps .short others (List.range blocks.size)
  rw [← same.chosenJumps_eq] at chosen'
  refine ⟨_, _, chosen.rewriting plain _, ?_⟩
  have rewriting := @Chosen.rewriting _ _ .nop none _ _ _ _ chosen' (same.plain plain)
  rw [← same.size_eq] at rewriting
  exact rewriting _

/-! ## Computed frames -/

/-- Blocks with computed frames are the blocks as they were recorded, until what is dead
is replaced. -/
theorem sameCode_framed {frames : Array (Option BlockFrame)} (size : frames.size = blocks.size) :
    SameCode (framed blocks frames) (alignSwitches blocks) := by
  have unframed : SameCode (Array.zipWith (fun (code : CodeBlock) frame => { code with frame })
      blocks frames) blocks := by
    intro block
    rw [Array.getElem?_zipWith]
    rcases Nat.lt_or_ge block blocks.size with inside | beyond
    · rw [Array.getElem?_eq_getElem inside, Array.getElem?_eq_getElem (size.symm ▸ inside)]
      rfl
    · rw [Array.getElem?_eq_none beyond]
  exact unframed.align

/-! ## Encoding -/

/-- A block is written by what it holds and by where the blocks are. -/
theorem encodeBlock_congr {laid other : LaidCode} {block : Nat}
    (here : laid.blocks[block]?.map contents = other.blocks[block]?.map contents)
    (offsets : laid.offsets = other.offsets) : encodeBlock laid block = encodeBlock other block := by
  have placed : laid.offset = other.offset := by
    funext block
    rw [LaidCode.offset, LaidCode.offset, offsets]
  unfold encodeBlock relative distance
  rw [placed]
  cases there : laid.blocks[block]? with
  | none =>
    rw [there, Option.map_none, eq_comm, Option.map_eq_none_iff] at here
    rw [here]
  | some code =>
    rw [there, Option.map_some] at here
    obtain ⟨⟨frame, instructions, branch⟩, there', same⟩ := Option.map_eq_some_iff.1 here.symm
    cases same
    rw [there']
    rfl

theorem encodeBlock_eq {laid other : LaidCode} (same : SameCode laid.blocks other.blocks)
    (offsets : laid.offsets = other.offsets) (block : Nat) :
    encodeBlock laid block = encodeBlock other block :=
  encodeBlock_congr (same block) offsets

end Assembly

/-! ## Limits -/

namespace Limits

variable {graph supplied : FlowGraph}

theorem leave_eq (handlers : supplied.handlers = graph.handlers) (pool : Pool)
    (block height : Nat) (code : CodeBlock) (frame : Option BlockFrame) :
    leave supplied pool block height ⟨frame, code.instructions, code.branch⟩ =
      leave graph pool block height code := by
  unfold leave FlowGraph.handlersOf
  rw [handlers]

theorem walk_eq (same : Assembly.SameCode graph.blocks supplied.blocks)
    (handlers : supplied.handlers = graph.handlers) (pool : Pool) (heights : Array (Option Nat))
    (peak : Nat) (waiting : List Entry) :
    walk graph pool heights peak waiting = walk supplied pool heights peak waiting := by
  fun_induction walk graph pool heights peak waiting with
  | case1 heights peak => rw [walk]
  | case2 heights peak block height waiting code fresh there ih =>
    obtain ⟨frame, there'⟩ := same.exists_code there
    conv_rhs => rw [walk]
    split
    · next fresh' there'' =>
      obtain rfl := Option.some.inj (there'.symm.trans there'')
      rw [leave_eq handlers]
      cases leave graph pool block height code with
      | error fault => rfl
      | ok left => exact ih left.1 left.2
    · next other => exact (other _ fresh there').elim
  | case3 heights peak block height waiting other ih =>
    conv_rhs => rw [walk]
    split
    · next code fresh there =>
      rcases same.both block with ⟨-, missing⟩ | ⟨code', frame, there', -⟩
      · cases there.symm.trans missing
      · exact (other code' fresh there').elim
    · exact ih

theorem compute_eq (same : Assembly.SameCode graph.blocks supplied.blocks)
    (handlers : supplied.handlers = graph.handlers) (pool : Pool) (parameters : Nat) :
    compute graph pool parameters = compute supplied pool parameters := by
  have locals : graph.blocks.foldl (fun most code => max most (blockLocals code)) parameters =
      supplied.blocks.foldl (fun most code => max most (blockLocals code)) parameters := by
    have onContents : ∀ codes : List CodeBlock,
        codes.foldl (fun most code => max most (blockLocals code)) parameters =
          (codes.map Assembly.contents).foldl (fun most contents =>
            max most (blockLocals ⟨none, contents.1, contents.2⟩)) parameters := by
      intro codes
      rw [List.foldl_map]
      rfl
    rw [← Array.foldl_toList, ← Array.foldl_toList, onContents, onContents,
      Assembly.sameCode_iff.1 same]
  unfold compute
  rw [locals, walk_eq same handlers, same.size_eq]

end Limits

end ClassFile
