import ClassFile.Proofs.Code.HalvedGrowth
import ClassFile.Proofs.Code.WidenedRows

namespace ClassFile

/-!
# Rows of cut blocks

A block that is cut in two is written as one more row, and all other rows are as they
were.  So what is written for the code is the same.
-/

open Assembly Widening
open FlowGraph (Halved past past_of_le past_of_lt firstHalf secondHalf branchAt branchAt_of_ne
  branchAt_cut)

theorem Branch.renumber_renumber (number number' : Nat → Nat) (branch : Branch Nat Nat Nat) :
    (branch.renumber number).renumber number' = branch.renumber (number' ∘ number) := by
  cases branch with
  | tableSwitch | lookupSwitch => simp [Branch.renumber, Branch.map]
  | _ => rfl

/-- Instructions have bytes. -/
theorem Instruction.total_pos {instructions : List Instruction} (some_ : instructions ≠ []) :
    0 < Wide.total instructions := by
  obtain ⟨instruction, rest, rfl⟩ := List.exists_cons_of_ne_nil some_
  have one : 0 < Wide.width instruction := Nat.add_pos_left (Nat.succ_pos _) _
  rw [Wide.total_cons]
  exact Nat.add_pos_left one _

namespace Assembly

/-! ## Where a row ends -/

section

variable {blocks : Array CodeBlock} {far : Finset Nat} {block : Nat} {code : CodeBlock}

/-- Blocks come one after the other. -/
theorem grownOffset_le {other : Nat} (before : block < other) (inside : other < blocks.size) :
    grownOffset blocks far block + grownWidth blocks far block ≤ grownOffset blocks far other := by
  rw [grownOffset, grownOffset, grownStart, grownStart, Layout.startOf_range _ inside,
    Layout.startOf_range _ (before.trans inside), ← sum_range_succ]
  obtain ⟨more, rfl⟩ := Nat.exists_eq_add_of_le before
  have split := @List.range_add (block + 1) more
  rw [split, List.map_append, List.sum_append]
  exact Nat.le_add_right _ _

theorem width_grownRow (frame? : Nat → Option BlockFrame) :
    (grownRow blocks far frame? block code).width = code.width :=
  congrArg (Wide.total _ + ·) (Branch.width_renumber _ code.branch)

/-- The first row of a block does not go beyond it. -/
theorem width_of_grownRows {frame? : Nat → Option BlockFrame} {row : Row} {rest : List Row}
    (isRow : grownRows blocks far frame? block = row :: rest) :
    row.offset = grownOffset blocks far block ∧ row.width ≤ grownWidth blocks far block := by
  rw [grownRows] at isRow
  rw [grownWidth, Layout.blockWidth, growthOf]
  cases there : blocks[block]? with
  | none =>
    rw [there] at isRow
    cases isRow
  | some code =>
    rw [there] at isRow
    dsimp only [Option.bind_some] at isRow ⊢
    have width := @width_grownRow blocks far block code frame?
    by_cases widened : block ∈ far
    · rw [if_pos widened] at isRow ⊢
      rw [Row.width, grownRow] at width
      rw [Row.widen, grownRow] at isRow
      generalize code.branch = branch at isRow width ⊢
      cases branch with
      | goto target | jsr target next =>
        obtain ⟨rfl, -⟩ := List.cons.inj isRow
        refine ⟨rfl, ?_⟩
        rw [← width, Row.width, Wide.total_append]
        exact Nat.le_of_eq (by simp only [Nat.add_assoc]; rfl)
      | _ =>
        obtain ⟨rfl, -⟩ := List.cons.inj isRow
        exact ⟨rfl, Nat.le_add_right_of_le (Nat.le_of_eq width)⟩
    · rw [if_neg widened] at isRow
      obtain ⟨rfl, -⟩ := List.cons.inj isRow
      exact ⟨rfl, Nat.le_add_right_of_le (Nat.le_of_eq width)⟩

end

/-! ## Rows of the same blocks -/

section

variable {cut : Nat} {cutCode : CodeBlock} {head tail : List Instruction}
  {blocks others : Array CodeBlock} (halved : Halved cut cutCode head tail blocks others)
  {far far' : Finset Nat} (same : ∀ block, branchAt cut block ∈ far' ↔ block ∈ far)
  {frame? frame?' : Nat → Option BlockFrame}
  (frames : ∀ block < blocks.size,
    frame?' (past cut block) = (frame? block).map (Frame.renumber (past cut)))
  {block : Nat}
include halved same

theorem grownOffset_past : grownOffset others far' ∘ past cut = grownOffset blocks far :=
  funext (grownStart_past halved same)

theorem frame_past (frame : Option BlockFrame) :
    (frame.map (Frame.renumber (past cut))).map (Frame.renumber (grownOffset others far')) =
      frame.map (Frame.renumber (grownOffset blocks far)) := by
  rw [Option.map_map, ← grownOffset_past halved same]
  congr 1
  funext frame
  exact Frame.renumber_renumber _ _ frame

theorem branch_past (branch : Branch Nat Nat Nat) :
    (branch.renumber (past cut)).renumber (grownOffset others far') =
      branch.renumber (grownOffset blocks far) := by
  rw [Branch.renumber_renumber, grownOffset_past halved same]

omit same in
/-- Blocks have the frames they had. -/
theorem frameOf?_past (block : Nat) : frameOf? others (past cut block) =
    (frameOf? blocks block).map (Frame.renumber (past cut)) := by
  rw [frameOf?, frameOf?]
  by_cases here : block = cut
  · subst here
    rw [past_of_le (Nat.le_refl block), halved.first, halved.there]
    rfl
  · rw [halved.apart here]
    cases blocks[block]? <;> rfl

theorem targetFrame?_past {code code' : CodeBlock}
    (branch : code'.branch = code.branch.renumber (past cut)) :
    targetFrame? others far' code' = targetFrame? blocks far code := by
  rw [targetFrame?, targetFrame?, branch, shortTarget?_renumber]
  cases shortTarget? code.branch with
  | none => rfl
  | some short =>
    rw [Option.map_some, Option.bind_some, Option.bind_some, frameOf?_past halved,
      frame_past halved same]

include frames

theorem grownRows_apart (apart : block ≠ cut) :
    grownRows others far' frame?' (past cut block) = grownRows blocks far frame? block := by
  have offset : grownOffset others far' (past cut block) = grownOffset blocks far block :=
    congrFun (grownOffset_past halved same) block
  have member := same block
  rw [branchAt_of_ne apart] at member
  rw [grownRows, grownRows, halved.apart apart]
  cases there : blocks[block]? with
  | none => rfl
  | some code =>
    have inside := (Array.getElem?_eq_some_iff.1 there).1
    have row : grownRow others far' frame?' (past cut block) (code.renumber (past cut)) =
        grownRow blocks far frame? block code := by
      rw [grownRow, grownRow, frames block inside, frame_past halved same, offset]
      exact congrArg (Row.mk _ _ _) (branch_past halved same code.branch)
    have target : targetFrame? others far' (code.renumber (past cut)) = targetFrame? blocks far code :=
      targetFrame?_past halved same rfl
    rw [Option.map_some]
    dsimp only
    rw [row, target]
    simp only [member]

/-- Before branches are widened, a row is cut like its block. -/
theorem halves_grownRow (new : frame?' (cut + 1) = none) :
    Row.Halves (grownRow blocks far frame? cut cutCode)
      (grownRow others far' frame?' cut (firstHalf cut cutCode head))
      (grownRow others far' frame?' (cut + 1) (secondHalf cut cutCode tail)) := by
  have start : grownOffset others far' cut = grownOffset blocks far cut := by
    have here := congrFun (grownOffset_past halved same) cut
    rwa [Function.comp_apply, past_of_le (Nat.le_refl cut)] at here
  have middle : grownOffset others far' (cut + 1) = grownOffset blocks far cut + Wide.total head :=
    grownStart_second halved same
  have frame := frames cut (Array.getElem?_eq_some_iff.1 halved.there).1
  rw [past_of_le (Nat.le_refl cut)] at frame
  have first : grownRow others far' frame?' cut (firstHalf cut cutCode head) =
      ⟨grownOffset blocks far cut, (frame? cut).map (Frame.renumber (grownOffset blocks far)), head,
        .fallThrough (grownOffset blocks far cut + Wide.total head)⟩ := by
    rw [grownRow, start, frame, frame_past halved same]
    exact congrArg (fun next => Row.mk _ _ head (.fallThrough next)) middle
  have second : grownRow others far' frame?' (cut + 1) (secondHalf cut cutCode tail) =
      ⟨grownOffset blocks far cut + Wide.total head, none, tail,
        cutCode.branch.renumber (grownOffset blocks far)⟩ := by
    rw [grownRow, middle, new]
    exact congrArg (Row.mk _ _ _) (branch_past halved same cutCode.branch)
  rw [first, second, grownRow, halved.whole]
  exact .mk _ _ head tail _ (Instruction.total_pos halved.some_)

/-- The block that is cut is written as one more row. -/
theorem grownRows_halves (new : frame?' (cut + 1) = none) :
    ∃ whole first second rest, Row.Halves whole first second ∧
      grownRows blocks far frame? cut = whole :: rest ∧
        grownRows others far' frame?' cut = [first] ∧
          grownRows others far' frame?' (cut + 1) = second :: rest := by
  have halves := halves_grownRow halved same frames new
  have member := same cut
  rw [branchAt_cut] at member
  have one : grownRows others far' frame?' cut =
      [grownRow others far' frame?' cut (firstHalf cut cutCode head)] := by
    rw [grownRows, halved.first]
    exact ite_self _
  have target : targetFrame? others far' (secondHalf cut cutCode tail) =
      targetFrame? blocks far cutCode := targetFrame?_past halved same rfl
  rw [one, grownRows, grownRows, halved.there, halved.second]
  dsimp only
  rw [target]
  by_cases widened : cut ∈ far
  · rw [if_pos widened, if_pos (member.2 widened)]
    obtain ⟨whole, second, rest, isWhole, isSecond, halves'⟩ :=
      halves.widen (targetFrame? blocks far cutCode)
    exact ⟨whole, _, second, rest, halves', isWhole, rfl, isSecond⟩
  · rw [if_neg widened, if_neg fun inside => widened (member.1 inside)]
    exact ⟨_, _, _, [], halves, rfl, rfl, rfl⟩

/-- All rows but the one of the block that is cut stay. -/
theorem flatMap_grownRows (new : frame?' (cut + 1) = none) :
    ∃ whole first second front back, Row.Halves whole first second ∧
      (List.range blocks.size).flatMap (grownRows blocks far frame?) = front ++ whole :: back ∧
        (List.range others.size).flatMap (grownRows others far' frame?') =
          front ++ first :: second :: back ∧
        whole.offset = grownOffset blocks far cut ∧ whole.width ≤ grownWidth blocks far cut := by
  obtain ⟨whole, first, second, rest, halves, isWhole, isFirst, isSecond⟩ :=
    grownRows_halves halved same frames new
  have inside := (Array.getElem?_eq_some_iff.1 halved.there).1
  obtain ⟨more, count⟩ : ∃ more, blocks.size = cut + 1 + more := Nat.exists_eq_add_of_le inside
  have count' : others.size = cut + 2 + more := by
    rw [halved.size_eq, count]
    omega
  have before : (List.range cut).flatMap (grownRows others far' frame?') =
      (List.range cut).flatMap (grownRows blocks far frame?) := by
    refine List.flatMap_congr fun block member => ?_
    have below := List.mem_range.1 member
    have moved := @grownRows_apart _ _ _ _ _ _ halved _ _ same _ _ frames block (Nat.ne_of_lt below)
    rwa [past_of_le (Nat.le_of_lt below)] at moved
  have after : ((List.range more).map (cut + 2 + ·)).flatMap (grownRows others far' frame?') =
      ((List.range more).map (cut + 1 + ·)).flatMap (grownRows blocks far frame?) := by
    rw [List.flatMap_map, List.flatMap_map]
    refine List.flatMap_congr fun block _ => ?_
    have moved := @grownRows_apart _ _ _ _ _ _ halved _ _ same _ _ frames (cut + 1 + block) (by omega)
    rw [past_of_lt (by omega)] at moved
    rw [← moved]
    congr 1
    omega
  have split : List.range blocks.size =
      List.range cut ++ cut :: (List.range more).map (cut + 1 + ·) := by
    rw [count, List.range_add, List.range_succ, List.append_assoc, List.singleton_append]
  have split' : List.range others.size =
      List.range cut ++ cut :: (cut + 1) :: (List.range more).map (cut + 2 + ·) := by
    rw [count', List.range_add, List.range_succ, List.range_succ, List.append_assoc,
      List.append_assoc, List.singleton_append, List.singleton_append]
  refine ⟨whole, first, second, (List.range cut).flatMap (grownRows blocks far frame?),
    rest ++ ((List.range more).map (cut + 1 + ·)).flatMap (grownRows blocks far frame?), halves, ?_, ?_,
    width_of_grownRows isWhole⟩
  · rw [split, List.flatMap_append, List.flatMap_cons, isWhole, List.cons_append]
  · rw [split', List.flatMap_append, List.flatMap_cons, List.flatMap_cons, isFirst, isSecond, before,
      after]
    rfl

end

end Assembly
end ClassFile
