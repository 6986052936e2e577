import ClassFile.Proofs.Graph.Linking

namespace ClassFile

/-!
# One more label

A label that is put between recorded items joins the labels and frames at the start of a
block, or it cuts a block in two behind some of its instructions.  Then there is one block
more, and the blocks behind it are numbered anew.  Apart from these numbers nothing else
changes: the first half falls into the second one, which has the branch and no frame.
-/

/-! ## Other numbers for blocks -/

def VerificationType.renumber (number : Nat → Nat) : BlockType → BlockType
  | .uninitialized site => .uninitialized (number site)
  | type => type

def Frame.renumber (number : Nat → Nat) (frame : BlockFrame) : BlockFrame :=
  ⟨frame.locals.map (VerificationType.renumber number),
    frame.stack.map (VerificationType.renumber number)⟩

def Branch.renumber (number : Nat → Nat) (branch : Branch Nat Nat Nat) : Branch Nat Nat Nat :=
  branch.map number number number

def Block.renumber (number : Nat → Nat) (code : CodeBlock) : CodeBlock :=
  ⟨code.frame.map (Frame.renumber number), code.instructions, code.branch.renumber number⟩

def Handler.renumber (number : Nat → Nat) (handler : Handler) : Handler :=
  ⟨number handler.start, number handler.stop, number handler.entry, handler.catches⟩

section

variable {number : Nat → Nat}

@[simp] theorem VerificationType.renumber_id (type : BlockType) : type.renumber id = type := by
  cases type <;> rfl

@[simp] theorem Frame.renumber_id (frame : BlockFrame) : frame.renumber id = frame := by
  have same : VerificationType.renumber id = id := funext VerificationType.renumber_id
  rw [Frame.renumber, same, List.map_id, List.map_id]

@[simp] theorem Branch.renumber_id (branch : Branch Nat Nat Nat) : branch.renumber id = branch := by
  cases branch with
  | tableSwitch | lookupSwitch => simp [Branch.renumber, Branch.map]
  | _ => rfl

@[simp] theorem Block.renumber_id (code : CodeBlock) : code.renumber id = code := by
  have same : Frame.renumber id = id := funext Frame.renumber_id
  rw [Block.renumber, Branch.renumber_id, same, Option.map_id]
  rfl

@[simp] theorem Branch.width_renumber (number : Nat → Nat) (branch : Branch Nat Nat Nat) :
    (branch.renumber number).width = branch.width :=
  (Branch.renamed_map number number number branch).width.symm

@[simp] theorem Block.bodyWidth_renumber (number : Nat → Nat) (code : CodeBlock) :
    (code.renumber number).bodyWidth = code.bodyWidth :=
  rfl

@[simp] theorem Block.width_renumber (number : Nat → Nat) (code : CodeBlock) :
    (code.renumber number).width = code.width := by
  rw [Block.width, Block.width, Block.bodyWidth_renumber]
  exact congrArg _ (Branch.width_renumber number code.branch)

/-- Sites are resolved to other blocks if their labels are. -/
theorem Frame.mapM_renumber {site site' : Nat → Except Fault Nat}
    (follows : ∀ label block, site label = .ok block → site' label = .ok (number block))
    {frame renamed : BlockFrame} (run : frame.mapM pure site = .ok renamed) :
    frame.mapM pure site' = .ok (renamed.renumber number) := by
  have types : ∀ {types results : List BlockType},
      types.mapM (fun type => type.mapM pure site) = .ok results →
        types.mapM (fun type => type.mapM pure site') =
          .ok (results.map (VerificationType.renumber number)) := by
    intro types results run
    rw [mapM_eq_ok, List.forall₂_map_right_iff]
    refine (mapM_eq_ok.1 run).imp fun type result here => ?_
    cases type with
    | uninitialized label =>
      rcases bind_eq_ok.1 here with ⟨block, known, same⟩
      rcases pure_eq_ok.1 same with rfl
      exact bind_eq_ok.2 ⟨_, follows label block known, rfl⟩
    | _ =>
      rcases pure_eq_ok.1 here with rfl
      rfl
  rcases bind_eq_ok.1 run with ⟨locals, areLocals, onward⟩
  rcases bind_eq_ok.1 onward with ⟨operands, areOperands, same⟩
  rcases pure_eq_ok.1 same with rfl
  refine bind_eq_ok.2 ⟨_, types areLocals, bind_eq_ok.2 ⟨_, types areOperands, ?_⟩⟩
  rw [pure_eq_ok, Frame.renumber, List.map_reverse]

theorem Branch.eq_of_renamed {branch other : Branch Nat Nat Nat}
    (same : Branch.Renamed Eq Eq Eq branch other) : branch = other := by
  cases same with
  | tableSwitch padding low default_ taken =>
    rw [List.forall₂_eq_eq_eq] at taken
    rw [default_, taken]
  | lookupSwitch padding default_ taken =>
    have pairs := taken.imp fun (pair other : Int32 × Nat) both => Prod.ext both.1 both.2
    rw [List.forall₂_eq_eq_eq] at pairs
    rw [default_, pairs]
  | conditional _ taken after | jsr taken after | jsrWide taken after => rw [taken, after]
  | goto taken | gotoWide taken | fallThrough taken => rw [taken]
  | ret | returns | throws | stop => rfl

end

namespace FlowGraph

section

variable {labels labels' : Std.HashMap Nat Nat} {number : Nat → Nat} {block block' count count' : Nat}
  {branch? : Option (Branch Nat Nat Unit)} {branch other : Branch Nat Nat Nat} {piece : Piece}
  {code code' : CodeBlock}

/-- A block ends in one way only. -/
theorem Ends.unique (ends : Ends labels block count branch? branch)
    (ends' : Ends labels block count branch? other) : branch = other := by
  cases ends with
  | recorded _ renamed =>
    cases ends' with
    | recorded _ renamed' =>
      refine Branch.eq_of_renamed ((renamed.flip.comp renamed').mono ?_ ?_ ?_)
      · rintro _ _ ⟨_, one, other⟩
        exact Option.some.inj (one.symm.trans other)
      · rintro _ _ ⟨_, one, other⟩
        exact Option.some.inj (one.symm.trans other)
      · rintro _ _ ⟨_, one, other⟩
        exact one.trans other.symm
  | through inner =>
    cases ends' with
    | through => rfl
    | stops last => omega
  | stops last =>
    cases ends' with
    | through inner => omega
    | stops => rfl

theorem MadeOf.unique (made : MadeOf labels block count piece code)
    (made' : MadeOf labels block count piece code') : code = code' := by
  obtain ⟨instructions, frame, ends⟩ := made
  obtain ⟨instructions', frame', ends'⟩ := made'
  have sameFrame : code.frame = code'.frame := by
    rw [← option_mapM_eq_ok] at frame frame'
    exact Except.ok.inj (frame.symm.trans frame')
  have sameInstructions : code.instructions = code'.instructions :=
    Array.toList_inj.1 (instructions.trans instructions'.symm)
  have sameBranch := ends.unique ends'
  cases code
  cases code'
  subst sameFrame sameInstructions sameBranch
  rfl

variable (follows : ∀ label target : Nat, labels[label]? = some target →
  labels'[label]? = some (number target))
include follows

theorem Ends.renumber (ends : Ends labels block count branch? branch)
    (next : block + 1 < count → number (block + 1) = block' + 1 ∧ block' + 1 < count')
    (last : block + 1 = count → block' + 1 = count') :
    Ends labels' block' count' branch? (branch.renumber number) := by
  cases ends with
  | recorded inner renamed =>
    obtain ⟨isNext, inner'⟩ := next inner
    refine .recorded inner'
      ((renamed.comp (Branch.renamed_map number number number branch)).mono ?_ ?_ ?_)
    · rintro label _ ⟨target, placed, rfl⟩
      exact follows label target placed
    · rintro label _ ⟨target, placed, rfl⟩
      exact follows label target placed
    · rintro _ _ ⟨_, rfl, rfl⟩
      exact isNext
  | through inner =>
    obtain ⟨isNext, inner'⟩ := next inner
    rw [Branch.renumber, Branch.map, isNext]
    exact .through inner'
  | stops isLast => exact .stops (last isLast)

theorem frame_renumber {recorded : Option (Frame String Nat)} {frame : Option BlockFrame}
    (resolved : Option.Rel (fun recorded frame => recorded.mapM pure (resolve labels) = .ok frame)
      recorded frame) :
    Option.Rel (fun recorded frame => recorded.mapM pure (resolve labels') = .ok frame) recorded
      (frame.map (Frame.renumber number)) := by
  cases resolved with
  | none => exact .none
  | some run =>
    refine .some (Frame.mapM_renumber (fun label block known => ?_) run)
    rw [resolve_eq_ok] at known ⊢
    exact follows label block known

theorem MadeOf.renumber (made : MadeOf labels block count piece code)
    (next : block + 1 < count → number (block + 1) = block' + 1 ∧ block' + 1 < count')
    (last : block + 1 = count → block' + 1 = count') :
    MadeOf labels' block' count' piece (code.renumber number) :=
  ⟨made.instructions, frame_renumber follows made.frame, made.ends.renumber follows next last⟩

theorem resolveHandler_renumber {handler resolved : Handler}
    (run : resolveHandler labels handler = .ok resolved) :
    resolveHandler labels' handler = .ok (resolved.renumber number) := by
  have onward : ∀ label block, resolve labels label = .ok block →
      resolve labels' label = .ok (number block) := by
    intro label block known
    rw [resolve_eq_ok] at known ⊢
    exact follows label block known
  rcases bind_eq_ok.1 run with ⟨start, isStart, run⟩
  rcases bind_eq_ok.1 run with ⟨stop, isStop, run⟩
  rcases bind_eq_ok.1 run with ⟨entry, isEntry, same⟩
  rcases pure_eq_ok.1 same with rfl
  exact bind_eq_ok.2 ⟨_, onward _ _ isStart, bind_eq_ok.2 ⟨_, onward _ _ isStop,
    bind_eq_ok.2 ⟨_, onward _ _ isEntry, rfl⟩⟩⟩

theorem handlers_renumber {handlers resolved resolved' : List Handler}
    (each : List.Forall₂ (fun recorded handler => resolveHandler labels recorded = .ok handler)
      handlers resolved)
    (each' : List.Forall₂ (fun recorded handler => resolveHandler labels' recorded = .ok handler)
      handlers resolved') : resolved' = resolved.map (Handler.renumber number) := by
  rw [← mapM_eq_ok] at each'
  refine Except.ok.inj (each'.symm.trans (mapM_eq_ok.2 ?_))
  rw [List.forall₂_map_right_iff]
  exact each.imp fun _ _ run => resolveHandler_renumber follows run

end

/-! ## The pieces of labelled code -/

namespace Pieces

/-- Pieces with one more label: it stands among the marks of one of them, or it cuts one behind
some of its instructions. -/
inductive Labelled (label : Nat) : List Piece → List Piece → Prop
  | marked (marks marks' : List Item) (instructions : List Instruction)
      (branch? : Option (Branch Nat Nat Unit)) (others : List Piece) :
      Labelled label (⟨marks ++ marks', instructions, branch?⟩ :: others)
        (⟨marks ++ .label label :: marks', instructions, branch?⟩ :: others)
  | halved (marks : List Item) {head : List Instruction} (tail : List Instruction)
      (branch? : Option (Branch Nat Nat Unit)) (others : List Piece) (some_ : head ≠ []) :
      Labelled label (⟨marks, head ++ tail, branch?⟩ :: others)
        (⟨marks, head, none⟩ :: ⟨[.label label], tail, branch?⟩ :: others)
  | later (piece : Piece) {others others' : List Piece} (rest : Labelled label others others') :
      Labelled label (piece :: others) (piece :: others')

variable {label : Nat}

theorem labelled_cons (item : Item) {pieces pieces' : Pieces}
    (labelled : Labelled label pieces.toList pieces'.toList) :
    Labelled label (cons item pieces).toList (cons item pieces').toList := by
  obtain ⟨first, others⟩ := pieces
  obtain ⟨first', others'⟩ := pieces'
  cases labelled with
  | later _ rest =>
    cases item with
    | label | frame => exact .later _ rest
    | branch => exact .later _ (.later _ rest)
    | instruction instruction =>
      unfold cons
      dsimp only
      split
      · exact .later _ (.later _ rest)
      · exact .later _ rest
  | marked marks marks' instructions branch? =>
    cases item with
    | label | frame => exact .marked (_ :: marks) marks' instructions branch? others
    | branch => exact .later _ (.marked marks marks' instructions branch? others)
    | instruction instruction =>
      have starts' : (Piece.mk (marks ++ .label label :: marks') instructions branch?).starts = true := by
        simp [Piece.starts]
      rcases cons_instruction instruction ⟨⟨marks ++ marks', instructions, branch?⟩, others⟩ with
        ⟨-, same⟩ | ⟨joins, same⟩
      · rw [same, cons, if_pos starts']
        exact .later _ (.marked marks marks' instructions branch? others)
      · -- The label now starts a piece behind the instruction.
        have none := marks_of_not_starts joins
        obtain ⟨rfl, rfl⟩ := List.append_eq_nil_iff.1 none
        rw [same, cons, if_pos starts']
        exact .halved [] instructions branch? others (List.cons_ne_nil instruction [])
  | @halved marks head tail branch? _ some_ =>
    cases item with
    | label | frame => exact .halved (_ :: marks) tail branch? others some_
    | branch => exact .later _ (.halved marks tail branch? others some_)
    | instruction instruction =>
      have starts : (Piece.mk marks head none).starts =
          (Piece.mk marks (head ++ tail) branch?).starts := by
        rw [Piece.starts, Piece.starts, List.head?_append_of_ne_nil _ some_]
      rcases cons_instruction instruction ⟨⟨marks, head ++ tail, branch?⟩, others⟩ with
        ⟨starts', same⟩ | ⟨joins, same⟩
      · rw [same, cons, if_pos (starts.trans starts')]
        exact .later _ (.halved marks tail branch? others some_)
      · have joins' : ¬(Piece.mk marks head none).starts = true := starts ▸ joins
        have none := marks_of_not_starts joins
        dsimp only at none
        subst none
        rw [same, cons, if_neg joins']
        exact .halved [] tail branch? others (List.cons_ne_nil instruction head)

/-- A label joins the piece that the items behind it start with, or it starts one. -/
theorem labelled_ofItems (label : Nat) (front back : List Item) :
    Labelled label (ofItems (front ++ back)).toList (ofItems (front ++ .label label :: back)).toList := by
  induction front with
  | nil =>
    have first : (ofItems back).toList = ⟨[] ++ (ofItems back).first.marks,
        (ofItems back).first.instructions, (ofItems back).first.branch?⟩ :: (ofItems back).others := rfl
    rw [List.nil_append, first]
    exact .marked [] _ _ _ _
  | cons item front ih => exact labelled_cons item ih

/-- The two ways in which pieces are labelled. -/
theorem Labelled.cases {pieces pieces' : List Piece} (labelled : Labelled label pieces pieces') :
    (∃ before marks marks' instructions branch? after,
      pieces = before ++ ⟨marks ++ marks', instructions, branch?⟩ :: after ∧
        pieces' = before ++ ⟨marks ++ .label label :: marks', instructions, branch?⟩ :: after) ∨
      ∃ before marks head tail branch? after, head ≠ [] ∧
        pieces = before ++ ⟨marks, head ++ tail, branch?⟩ :: after ∧
          pieces' = before ++ ⟨marks, head, none⟩ :: ⟨[.label label], tail, branch?⟩ :: after := by
  induction labelled with
  | marked marks marks' instructions branch? others =>
    exact .inl ⟨[], marks, marks', instructions, branch?, others, rfl, rfl⟩
  | halved marks tail branch? others some_ =>
    exact .inr ⟨[], marks, _, tail, branch?, others, some_, rfl, rfl⟩
  | later piece _ ih =>
    rcases ih with ⟨before, marks, marks', instructions, branch?, after, rfl, rfl⟩ |
      ⟨before, marks, head, tail, branch?, after, some_, rfl, rfl⟩
    · exact .inl ⟨piece :: before, marks, marks', instructions, branch?, after, rfl, rfl⟩
    · exact .inr ⟨piece :: before, marks, head, tail, branch?, after, some_, rfl, rfl⟩

end Pieces

/-! ## One more block -/

/-- The number of a block once the one at `cut` is followed by one more. -/
def past (cut block : Nat) : Nat :=
  if block ≤ cut then block else block + 1

section

variable {cut block other : Nat}

theorem past_of_le (before : block ≤ cut) : past cut block = block :=
  if_pos before

theorem past_of_lt (behind : cut < block) : past cut block = block + 1 :=
  if_neg (Nat.not_le_of_lt behind)

theorem past_le_past : past cut block ≤ past cut other ↔ block ≤ other := by
  unfold past
  split_ifs <;> omega

theorem past_lt_past : past cut block < past cut other ↔ block < other := by
  unfold past
  split_ifs <;> omega

theorem past_inj : past cut block = past cut other ↔ block = other := by
  unfold past
  split_ifs <;> omega

theorem past_injective (cut : Nat) : Function.Injective (past cut) :=
  fun _ _ => past_inj.1

/-- Only the block that is new has no number before. -/
theorem past_ne (cut block : Nat) : past cut block ≠ cut + 1 := by
  unfold past
  split_ifs <;> omega

theorem past_cases (cut block : Nat) :
    block = cut ∨ block = cut + 1 ∨ ∃ before ≠ cut, block = past cut before := by
  rcases Nat.lt_trichotomy block cut with below | same | above
  · exact .inr (.inr ⟨block, Nat.ne_of_lt below, (past_of_le (Nat.le_of_lt below)).symm⟩)
  · exact .inl same
  · rcases Nat.lt_or_eq_of_le (Nat.succ_le_of_lt above) with beyond | next
    · refine .inr (.inr ⟨block - 1, by omega, ?_⟩)
      rw [past_of_lt (by omega)]
      omega
    · exact .inr (.inl next.symm)

theorem getElem?_past {α : Type} {before after : List α} (one first second : α)
    (apart : block ≠ before.length) :
    (before ++ first :: second :: after)[past before.length block]? =
      (before ++ one :: after)[block]? := by
  rcases Nat.lt_or_gt_of_ne apart with below | above
  · rw [past_of_le (Nat.le_of_lt below), List.getElem?_append_left below,
      List.getElem?_append_left below]
  · obtain ⟨index, rfl⟩ : ∃ index, block = before.length + (index + 1) :=
      ⟨block - before.length - 1, by omega⟩
    rw [past_of_lt above, Nat.add_assoc, List.getElem?_append_right (Nat.le_add_right _ _),
      List.getElem?_append_right (Nat.le_add_right _ _), Nat.add_sub_cancel_left,
      Nat.add_sub_cancel_left, List.getElem?_cons_succ, List.getElem?_cons_succ,
      List.getElem?_cons_succ]

/-- The number of the block that ends with the branch of a block. -/
def branchAt (cut block : Nat) : Nat :=
  if block < cut then block else block + 1

theorem past_succ (cut block : Nat) : past cut (block + 1) = branchAt cut block + 1 := by
  unfold past branchAt
  split_ifs <;> omega

theorem branchAt_of_ne (apart : block ≠ cut) : branchAt cut block = past cut block := by
  unfold past branchAt
  split_ifs <;> omega

theorem branchAt_cut (cut : Nat) : branchAt cut cut = cut + 1 :=
  if_neg (Nat.lt_irrefl cut)

theorem branchAt_injective (cut : Nat) : Function.Injective (branchAt cut) := by
  intro block other same
  unfold branchAt at same
  split_ifs at same <;> omega

theorem branchAt_ne (cut block : Nat) : branchAt cut block ≠ cut := by
  unfold branchAt
  split_ifs <;> omega

/-- Only the first half of a block has none of the branches before. -/
theorem eq_branchAt (apart : block ≠ cut) : ∃ before, block = branchAt cut before := by
  rcases Nat.lt_or_gt_of_ne apart with below | above
  · exact ⟨block, (if_pos below).symm⟩
  · refine ⟨block - 1, ?_⟩
    rw [branchAt, if_neg (by omega)]
    omega

end

/-- The part of a block before a label, which falls into the part behind it. -/
def firstHalf (cut : Nat) (code : CodeBlock) (head : List Instruction) : CodeBlock :=
  ⟨code.frame.map (Frame.renumber (past cut)), head.toArray, .fallThrough (cut + 1)⟩

/-- The part of a block behind a label. -/
def secondHalf (cut : Nat) (code : CodeBlock) (tail : List Instruction) : CodeBlock :=
  ⟨none, tail.toArray, code.branch.renumber (past cut)⟩

/-- Blocks of which one is cut in two, behind some of its instructions. -/
structure Halved (cut : Nat) (code : CodeBlock) (head tail : List Instruction)
    (blocks others : Array CodeBlock) : Prop where
  some_ : head ≠ []
  whole : code.instructions.toList = head ++ tail
  split : ∃ before after, before.length = cut ∧ blocks.toList = before ++ code :: after ∧
    others.toList = before.map (Block.renumber (past cut)) ++
      firstHalf cut code head :: secondHalf cut code tail ::
        after.map (Block.renumber (past cut))

namespace Halved

variable {cut block : Nat} {code : CodeBlock} {head tail : List Instruction}
  {blocks others : Array CodeBlock}

theorem of_getElem? (some_ : head ≠ []) (whole : code.instructions.toList = head ++ tail)
    (there : blocks[cut]? = some code) (size : others.size = blocks.size + 1)
    (first : others[cut]? = some (firstHalf cut code head))
    (second : others[cut + 1]? = some (secondHalf cut code tail))
    (apart : ∀ block ≠ cut, ∀ code, blocks[block]? = some code →
      others[past cut block]? = some (code.renumber (past cut))) :
    Halved cut code head tail blocks others := by
  have inside := (Array.getElem?_eq_some_iff.1 there).1
  obtain ⟨before, after, isBefore, split⟩ : ∃ before after, before.length = cut ∧
      blocks.toList = before ++ code :: after := by
    have inside' : cut < blocks.toList.length := inside
    refine ⟨blocks.toList.take cut, blocks.toList.drop (cut + 1), ?_, ?_⟩
    · rw [List.length_take, Nat.min_eq_left (Nat.le_of_lt inside')]
    · have found : blocks.toList[cut] = code := (Array.getElem?_eq_some_iff.1 there).2
      rw [← found, ← List.drop_eq_getElem_cons inside', List.take_append_drop]
  refine ⟨some_, whole, before, after, isBefore, split, List.ext_getElem? fun index => ?_⟩
  have isBefore' : (before.map (Block.renumber (past cut))).length = cut := by
    rw [List.length_map, isBefore]
  rw [Array.getElem?_toList]
  rcases past_cases cut index with rfl | rfl | ⟨block, different, rfl⟩
  · rw [first, List.getElem?_append_right (Nat.le_of_eq isBefore'), isBefore', Nat.sub_self,
      List.getElem?_cons_zero]
  · rw [second, List.getElem?_append_right (by omega), isBefore', Nat.add_sub_cancel_left,
      List.getElem?_cons_succ, List.getElem?_cons_zero]
  · have moved := @getElem?_past block _ _ (after.map (Block.renumber (past cut)))
      (code.renumber (past cut)) (firstHalf cut code head) (secondHalf cut code tail)
      (isBefore'.symm ▸ different)
    rw [isBefore'] at moved
    rw [moved, ← List.map_cons, ← List.map_append, ← split, List.getElem?_map,
      Array.getElem?_toList]
    cases found : blocks[block]? with
    | some code => exact apart block different code found
    | none =>
      rw [Option.map_none, Array.getElem?_eq_none_iff, size]
      rw [Array.getElem?_eq_none_iff] at found
      rw [past_of_lt (by omega)]
      exact Nat.succ_le_succ found

variable (halved : Halved cut code head tail blocks others)
include halved

theorem size_eq : others.size = blocks.size + 1 := by
  obtain ⟨before, after, -, split, split'⟩ := halved.split
  rw [← Array.length_toList, ← Array.length_toList, split, split']
  simp only [List.length_append, List.length_map, List.length_cons]
  omega

theorem there : blocks[cut]? = some code := by
  obtain ⟨before, after, rfl, split, -⟩ := halved.split
  rw [← Array.getElem?_toList, split, List.getElem?_append_right (Nat.le_refl _), Nat.sub_self,
    List.getElem?_cons_zero]

theorem first : others[cut]? = some (firstHalf cut code head) := by
  obtain ⟨before, after, rfl, -, split⟩ := halved.split
  rw [← Array.getElem?_toList, split, List.getElem?_append_right (by simp), List.length_map,
    Nat.sub_self, List.getElem?_cons_zero]

theorem second : others[cut + 1]? = some (secondHalf cut code tail) := by
  obtain ⟨before, after, rfl, -, split⟩ := halved.split
  rw [← Array.getElem?_toList, split, List.getElem?_append_right (by simp), List.length_map,
    Nat.add_sub_cancel_left, List.getElem?_cons_succ, List.getElem?_cons_zero]

/-- All other blocks only have other numbers. -/
theorem apart (different : block ≠ cut) :
    others[past cut block]? = blocks[block]?.map (Block.renumber (past cut)) := by
  obtain ⟨before, after, rfl, split, split'⟩ := halved.split
  have moved := @getElem?_past block _ (before.map (Block.renumber (past before.length)))
    (after.map (Block.renumber (past before.length)))
    (code.renumber (past before.length)) (firstHalf before.length code head)
    (secondHalf before.length code tail) (by rwa [List.length_map])
  rw [List.length_map] at moved
  rw [← Array.getElem?_toList, split', moved, ← List.map_cons, ← List.map_append, ← split,
    List.getElem?_map, Array.getElem?_toList]

end Halved

/-- A graph of which one block is cut in two behind some of its instructions. -/
structure CutInTwo (cut : Nat) (code : CodeBlock) (head tail : List Instruction)
    (graph other : FlowGraph) : Prop extends Halved cut code head tail graph.blocks other.blocks where
  handlers : other.handlers = graph.handlers.map (Handler.renumber (past cut))
  /-- Objects are still made at the start of a block. -/
  old : ∀ cls, .withClass .new cls ∉ tail

/-- What one more label does to a graph: the blocks are the same, or one of them is cut in
two. -/
inductive Labelled (graph other : FlowGraph) : Prop
  | same (blocks : other.blocks = graph.blocks) (handlers : other.handlers = graph.handlers)
  | cut {cut : Nat} {code : CodeBlock} {head tail : List Instruction}
    (isCut : CutInTwo cut code head tail graph other)

section

variable {items items' : List Item} {handlers : List Handler} {graph other : FlowGraph}
  {pieces pieces' : List Piece} {block block' : Nat} {number : Nat → Nat} {piece piece' : Piece}
  {code : CodeBlock}

theorem IsCut.exists_code (isCut : graph.IsCut items handlers pieces)
    (found : pieces[block]? = some piece) : ∃ code, graph.blocks[block]? = some code ∧
      MadeOf graph.labels block graph.blocks.size piece code := by
  have there := Array.getElem?_eq_getElem (isCut.lt_size found)
  exact ⟨_, there, isCut.blocks block piece _ found there⟩

/-- What a piece is made into depends on what it holds and on the labels. -/
theorem IsCut.code_eq (isCut : graph.IsCut items handlers pieces)
    (isCut' : other.IsCut items' handlers pieces')
    (follows : ∀ label target : Nat, graph.labels[label]? = some target →
      other.labels[label]? = some (number target))
    (next : number (block + 1) = block' + 1)
    (last : block + 1 = graph.blocks.size ↔ block' + 1 = other.blocks.size)
    (isPiece : pieces[block]? = some piece) (isPiece' : pieces'[block']? = some piece')
    (same : piece'.draft = piece.draft) (there : graph.blocks[block]? = some code) :
    other.blocks[block']? = some (code.renumber number) := by
  obtain ⟨code', there', made'⟩ := isCut'.exists_code isPiece'
  have inside := (Array.getElem?_eq_some_iff.1 there).1
  have inside' := (Array.getElem?_eq_some_iff.1 there').1
  have made := (isCut.blocks block piece code isPiece there).renumber follows
    (fun inner => ⟨next, by omega⟩) last.1
  obtain ⟨frame, instructions, branch⟩ := Draft.mk.inj same
  have again : MadeOf other.labels block' other.blocks.size piece code' :=
    ⟨made'.instructions.trans (congrArg Array.toList instructions), frame ▸ made'.frame,
      branch ▸ made'.ends⟩
  rw [there', again.unique made]

end

open Pieces

variable {front back : List Item} {handlers : List Handler} {subroutines : Bool} {label : Nat}
  {graph other : FlowGraph}

/-- A label among the marks of a piece is not seen in its block. -/
theorem IsCut.marked {items items' : List Item} {pieces pieces' : List Piece}
    (isCut : graph.IsCut items handlers pieces) (isCut' : other.IsCut items' handlers pieces')
    (each : List.Forall₂ (fun piece' piece : Piece => piece'.draft = piece.draft ∧
      ∀ mark ∈ piece.marks, mark ∈ piece'.marks) pieces' pieces) :
    other.blocks = graph.blocks ∧ other.handlers = graph.handlers := by
  have size : other.blocks.size = graph.blocks.size := by
    rw [isCut.size_eq, isCut'.size_eq, each.length_eq]
  have follows : ∀ label target : Nat, graph.labels[label]? = some target →
      other.labels[label]? = some (id target) := by
    intro label target placed
    obtain ⟨piece, found, member⟩ := (isCut.labels label target).1 placed
    obtain ⟨piece', found', -, marks⟩ := forall₂_getElem? each found
    exact (isCut'.labels label target).2 ⟨piece', found', marks _ member⟩
  constructor
  · refine Array.ext_getElem? fun block => ?_
    cases there : graph.blocks[block]? with
    | none => rwa [Array.getElem?_eq_none_iff, size, ← Array.getElem?_eq_none_iff]
    | some code =>
      have inside : block < pieces.length := by
        rw [← isCut.size_eq]
        exact (Array.getElem?_eq_some_iff.1 there).1
      have found := List.getElem?_eq_getElem inside
      obtain ⟨piece', found', same, -⟩ := forall₂_getElem? each found
      have moved := isCut.code_eq isCut' follows rfl (by rw [size]) found found' same there
      rwa [Block.renumber_id] at moved
  · rw [handlers_renumber follows isCut.handlers isCut'.handlers]
    have same : Handler.renumber id = id := rfl
    rw [same, List.map_id]

/-- A label behind some instructions of a piece cuts its block. -/
theorem IsCut.halved {items items' : List Item} {before after : List Piece} {marks : List Item}
    {head tail : List Instruction} {branch? : Option (Branch Nat Nat Unit)}
    (isCut : graph.IsCut items handlers (before ++ ⟨marks, head ++ tail, branch?⟩ :: after))
    (isCut' : other.IsCut items' handlers
      (before ++ ⟨marks, head, none⟩ :: ⟨[.label label], tail, branch?⟩ :: after))
    (some_ : head ≠ []) :
    ∃ code, CutInTwo before.length code head tail graph other := by
  have size : other.blocks.size = graph.blocks.size + 1 := by
    rw [isCut.size_eq, isCut'.size_eq]
    simp only [List.length_append, List.length_cons]
    omega
  have here : (before ++ ⟨marks, head ++ tail, branch?⟩ :: after)[before.length]? =
      some (Piece.mk marks (head ++ tail) branch?) := by
    rw [List.getElem?_append_right (Nat.le_refl _), Nat.sub_self, List.getElem?_cons_zero]
  have first : (before ++ ⟨marks, head, none⟩ :: ⟨[.label label], tail, branch?⟩ ::
      after)[before.length]? = some (Piece.mk marks head none) := by
    rw [List.getElem?_append_right (Nat.le_refl _), Nat.sub_self, List.getElem?_cons_zero]
  have second : (before ++ ⟨marks, head, none⟩ :: ⟨[.label label], tail, branch?⟩ ::
      after)[before.length + 1]? = some (Piece.mk [.label label] tail branch?) := by
    rw [List.getElem?_append_right (Nat.le_add_right _ _), Nat.add_sub_cancel_left,
      List.getElem?_cons_succ, List.getElem?_cons_zero]
  have follows : ∀ label target : Nat, graph.labels[label]? = some target →
      other.labels[label]? = some (past before.length target) := by
    intro label target placed
    obtain ⟨piece, found, member⟩ := (isCut.labels label target).1 placed
    refine (isCut'.labels label _).2 ?_
    by_cases same : target = before.length
    · subst same
      rw [past_of_le (Nat.le_refl _)]
      rw [here] at found
      cases found
      exact ⟨_, first, member⟩
    · refine ⟨piece, ?_, member⟩
      rwa [getElem?_past ⟨marks, head ++ tail, branch?⟩ _ _ same]
  obtain ⟨code, there, made⟩ := isCut.exists_code here
  have inside := (Array.getElem?_eq_some_iff.1 there).1
  have next : past before.length (before.length + 1) = before.length + 1 + 1 :=
    past_of_lt (Nat.lt_succ_self _)
  have halves : Halved before.length code head tail graph.blocks other.blocks := by
    refine .of_getElem? some_ made.instructions there size ?_ ?_ ?_
    · obtain ⟨code', there', made'⟩ := isCut'.exists_code first
      have firstMade : MadeOf other.labels before.length other.blocks.size
          ⟨marks, head, none⟩ (firstHalf before.length code head) :=
        ⟨rfl, frame_renumber follows made.frame, .through (by omega)⟩
      rw [there', made'.unique firstMade]
    · obtain ⟨code', there', made'⟩ := isCut'.exists_code second
      have secondMade : MadeOf other.labels (before.length + 1) other.blocks.size
          ⟨[.label label], tail, branch?⟩ (secondHalf before.length code tail) :=
        ⟨rfl, .none, made.ends.renumber follows (fun inner => ⟨next, by omega⟩) (by omega)⟩
      rw [there', made'.unique secondMade]
    · intro block different other found
      have isPiece : block < (before ++ ⟨marks, head ++ tail, branch?⟩ :: after).length := by
        rw [← isCut.size_eq]
        exact (Array.getElem?_eq_some_iff.1 found).1
      have isPiece := List.getElem?_eq_getElem isPiece
      refine isCut.code_eq isCut' follows ?_ ?_ isPiece
        ((getElem?_past _ _ _ different).trans isPiece) rfl found
      · unfold past
        split_ifs <;> omega
      · have inside' := (Array.getElem?_eq_some_iff.1 found).1
        unfold past
        split_ifs <;> omega
  refine ⟨code, halves, handlers_renumber follows isCut.handlers isCut'.handlers,
    fun cls member => ?_⟩
  obtain ⟨index, found⟩ := List.mem_iff_getElem?.1 member
  have isNew : code.instructions[head.length + index]? = some (.withClass .new cls) := by
    rw [← Array.getElem?_toList, halves.whole, List.getElem?_append_right (Nat.le_add_right _ _),
      Nat.add_sub_cancel_left, found]
  have atStart := isCut.newFirst _ code _ cls there isNew
  exact some_ (List.length_eq_zero_iff.1 (Nat.eq_zero_of_add_eq_zero_right atStart))

theorem ofItems_labelled (built : ofItems (front ++ back) handlers subroutines = .ok graph)
    (built' : ofItems (front ++ .label label :: back) handlers subroutines = .ok other) :
    Labelled graph other := by
  have isCut := isCut_of_ofItems built
  have isCut' := isCut_of_ofItems built'
  rcases (labelled_ofItems label front back).cases with
    ⟨before, marks, marks', instructions, branch?, after, same, same'⟩ |
      ⟨before, marks, head, tail, branch?, after, some_, same, same'⟩
  · rw [same] at isCut
    rw [same'] at isCut'
    have refl : ∀ pieces : List Piece, List.Forall₂ (fun piece' piece : Piece =>
        piece'.draft = piece.draft ∧ ∀ mark ∈ piece.marks, mark ∈ piece'.marks) pieces pieces :=
      fun pieces => List.forall₂_same.2 fun _ _ => ⟨rfl, fun _ member => member⟩
    have kept : ∀ mark ∈ marks ++ marks', mark ∈ marks ++ .label label :: marks' := by
      intro mark member
      simp only [List.mem_append, List.mem_cons] at member ⊢
      tauto
    have both := isCut.marked isCut' (List.rel_append (refl before)
      (.cons ⟨by simp [Piece.draft, Piece.frame?, Item.frame?], kept⟩ (refl after)))
    exact .same both.1 both.2
  · rw [same] at isCut
    rw [same'] at isCut'
    obtain ⟨code, cut⟩ := isCut.halved isCut' some_
    exact .cut cut

end FlowGraph
end ClassFile
