import ClassFile.Code.Assembly
import ClassFile.Proofs.Layout
import ClassFile.Proofs.Success

namespace ClassFile
namespace Assembly

/-!
# What assembling writes

When frames are recorded and not computed, no block is replaced.  Switches get
the padding of where they would stand without widening, branches out of range
are widened, and the frames that are added then change no code.  `Written` keeps
what is needed to say where each block is written and as which bytes.
-/

/-! ## Aligned switches -/

/-- Blocks from an offset on, their switches padded. -/
def alignedFrom (offset : Nat) : List CodeBlock → List CodeBlock
  | [] => []
  | code :: rest =>
    let padded := { code with
      branch := code.branch.withPadding (Branch.paddingAt (offset + code.bodyWidth)) }
    padded :: alignedFrom (offset + padded.width) rest

theorem alignSwitches_eq (blocks : Array CodeBlock) :
    (alignSwitches blocks).toList = alignedFrom 0 blocks.toList := by
  have from_ : ∀ (rest : List CodeBlock) (aligned : Array CodeBlock) (offset : Nat),
      (rest.foldl (fun (state : Array CodeBlock × Nat) code =>
        let padding := Branch.paddingAt (state.2 + code.bodyWidth)
        let code := { code with branch := code.branch.withPadding padding }
        (state.1.push code, state.2 + code.width)) (aligned, offset)).1.toList =
          aligned.toList ++ alignedFrom offset rest := by
    intro rest
    induction rest with
    | nil => exact fun aligned _ => (List.append_nil _).symm
    | cons code rest ih =>
      intro aligned offset
      rw [List.foldl_cons, ih, Array.toList_push, List.append_assoc]
      rfl
  rw [alignSwitches, ← Array.foldl_toList]
  exact from_ blocks.toList #[] 0

theorem alignedFrom_getElem? (offset : Nat) (blocks : List CodeBlock) (block : Nat) :
    (alignedFrom offset blocks)[block]? = blocks[block]?.map fun code =>
      { code with branch := code.branch.withPadding (Branch.paddingAt
          (offset + (((alignedFrom offset blocks).take block).map Block.width).sum +
            code.bodyWidth)) } := by
  induction blocks generalizing offset block with
  | nil => rfl
  | cons code rest ih =>
    cases block with
    | zero => rfl
    | succ block =>
      rw [alignedFrom, List.getElem?_cons_succ, ih, List.getElem?_cons_succ, List.take_succ_cons,
        List.map_cons, List.sum_cons, Nat.add_assoc]

/-- The widths of the first blocks of an array. -/
theorem map_blockWidth_range {φ ι : Type} [Wide ι] (blocks : Array (Block φ ι)) {count : Nat}
    (inside : count ≤ blocks.size) :
    (List.range count).map (Layout.blockWidth blocks) = (blocks.toList.take count).map Block.width := by
  refine List.ext_getElem? fun index => ?_
  rw [List.getElem?_map, List.getElem?_map, List.getElem?_take]
  split
  · next below =>
    rw [List.getElem?_range below, Array.getElem?_toList, Option.map_some, Layout.blockWidth,
      Array.getElem?_eq_getElem (by omega)]
    rfl
  · next beyond =>
    rw [List.getElem?_eq_none (by rw [List.length_range]; omega)]
    rfl

/-- A block is padded as at the offset where the aligned blocks before it end. -/
theorem alignSwitches_getElem? (blocks : Array CodeBlock) {block : Nat} {code : CodeBlock}
    (found : (alignSwitches blocks)[block]? = some code) :
    ∃ original, blocks[block]? = some original ∧
      code = { original with branch := original.branch.withPadding (Branch.paddingAt
        (Layout.startOf (Layout.blockWidth (alignSwitches blocks))
          (List.range (alignSwitches blocks).size) block + original.bodyWidth)) } := by
  have inside := (Array.getElem?_eq_some_iff.1 found).1
  rw [← Array.getElem?_toList, alignSwitches_eq, alignedFrom_getElem?, Option.map_eq_some_iff,
    ← alignSwitches_eq] at found
  rcases found with ⟨original, there, rfl⟩
  refine ⟨original, by rwa [Array.getElem?_toList] at there, ?_⟩
  rw [Nat.zero_add, ← map_blockWidth_range _ (Nat.le_of_lt inside), Layout.startOf_range _ inside]

/-! ## Added frames -/

/-- What a block is written from, which leaves out its frame. -/
def contents (code : CodeBlock) : Array Instruction × Branch Nat Nat Nat :=
  (code.instructions, code.branch)

/-- Blocks that differ in their frames only. -/
def SameCode (blocks others : Array CodeBlock) : Prop :=
  ∀ block : Nat, blocks[block]?.map contents = others[block]?.map contents

theorem SameCode.refl (blocks : Array CodeBlock) : SameCode blocks blocks :=
  fun _ => rfl

theorem SameCode.setFrame {blocks others : Array CodeBlock} (same : SameCode blocks others)
    {block : Nat} {code : CodeBlock} (there : others[block]? = some code)
    (frame : Option BlockFrame) :
    SameCode blocks (others.setIfInBounds block ⟨frame, code.instructions, code.branch⟩) := by
  intro other
  rw [same other, Array.getElem?_setIfInBounds]
  split
  · next here =>
    subst here
    rw [if_pos (Array.getElem?_eq_some_iff.1 there).1, there]
    rfl
  · rfl

theorem sameCode_addWidenedFrames {context : CodeContext} {locals : Nat}
    {blocks others : Array CodeBlock}
    (run : addWidenedFrames context locals blocks = .ok others) : SameCode blocks others := by
  refine @foldlM_preserves _ _ _ (SameCode blocks) _ _ ?_ _ _ (SameCode.refl blocks) run
  intro block _ before after same step
  split at step
  · cases pure_eq_ok.1 step
    exact same
  · split at step
    · next there =>
      rcases bind_eq_ok.1 step with ⟨frame, -, step⟩
      cases pure_eq_ok.1 step
      exact same.setFrame there (some frame)
    · cases pure_eq_ok.1 step
      exact same

section

variable {blocks others : Array CodeBlock} {block : Nat}

theorem SameCode.exists_code (same : SameCode blocks others) {code : CodeBlock}
    (there : blocks[block]? = some code) :
    ∃ frame, others[block]? = some ⟨frame, code.instructions, code.branch⟩ := by
  have here := same block
  rw [there, Option.map_some] at here
  rcases Option.map_eq_some_iff.1 here.symm with ⟨⟨frame, instructions, branch⟩, found, equal⟩
  cases equal
  exact ⟨frame, found⟩

theorem SameCode.size_eq (same : SameCode blocks others) : blocks.size = others.size := by
  have bounds : ∀ block, blocks.size ≤ block ↔ others.size ≤ block := by
    intro block
    rw [← Array.getElem?_eq_none_iff, ← Array.getElem?_eq_none_iff,
      ← Option.map_eq_none_iff (f := contents), same block, Option.map_eq_none_iff]
  exact Nat.le_antisymm ((bounds _).2 (Nat.le_refl _)) ((bounds _).1 (Nat.le_refl _))

theorem SameCode.blockWidth_eq (same : SameCode blocks others) :
    Layout.blockWidth blocks = Layout.blockWidth others := by
  funext block
  cases found : blocks[block]? with
  | some code =>
    rcases same.exists_code found with ⟨frame, there⟩
    rw [Layout.blockWidth, Layout.blockWidth, found, there]
    rfl
  | none =>
    have here := same block
    rw [found, Option.map_none, eq_comm, Option.map_eq_none_iff] at here
    rw [Layout.blockWidth, Layout.blockWidth, found, here]

theorem SameCode.starts_eq (same : SameCode blocks others) (order : List Nat) :
    Layout.starts blocks order = Layout.starts others order :=
  Layout.starts_congr same.blockWidth_eq order

theorem SameCode.offsets_eq (same : SameCode blocks others) (order : List Nat) :
    Layout.offsets blocks order = Layout.offsets others order :=
  Layout.offsets_congr same.blockWidth_eq same.size_eq order

end

/-! ## Written code -/

/-- Blocks in the order they were recorded, with jumps out of range widened. -/
def widened (blocks : Array CodeBlock) : Widening.Result (Option BlockFrame) Instruction :=
  Widening.widen .short .nop none blocks (List.range blocks.size)

/-- The blocks of a graph were laid out and written. -/
structure Written (graph : FlowGraph) (laid : LaidCode) (bytes : Bytes) : Prop where
  sameCode : SameCode (widened (alignSwitches graph.blocks)).blocks laid.blocks
  order_eq : laid.order = (widened (alignSwitches graph.blocks)).order
  offsets_eq : laid.offsets = Layout.offsets laid.blocks laid.order
  short : Layout.length laid.blocks laid.order < 65536
  encoded : Encoding.each (encodeBlock laid) laid.order = .ok bytes

theorem zipWith_frame (blocks : Array CodeBlock) :
    Array.zipWith (fun code frame => { code with frame }) blocks (blocks.map Block.frame) =
      blocks := by
  refine Array.ext (by simp) fun index _ _ => ?_
  simp

/-- Where nothing is dead, nothing is buried. -/
theorem zipWith_bury (blocks : Array CodeBlock) :
    Array.zipWith (fun code isDead => if isDead then bury code else code) blocks
      (blocks.map fun _ => false) = blocks := by
  refine Array.ext (by simp) fun index _ _ => ?_
  simp

end Assembly

end ClassFile
