import Mathlib.Algebra.BigOperators.Ring.Finset
import Mathlib.Algebra.Ring.Int.Defs
import ClassFile.Proofs.Layout
import ClassFile.Proofs.Widening.Settling

namespace ClassFile
namespace Widening

/-!
# Growth of a layout

What widening has to achieve is a property of the layout alone.  If the blocks
of a set grow at their ends by what widening adds to their branches, every other
short branch still reaches its target.  `jumpsOf` turns the branches of a layout
into jumps between places, and the two ways of measuring agree.
-/

variable {φ ι : Type} [Wide ι]

/-- A layout as it is before widening.  No block is repeated, every target is
laid out, and a conditional branch falls into the block after it. -/
structure Plain (blocks : Array (Block φ ι)) (order : List Nat) : Prop where
  distinct : order.Nodup
  inside : ∀ block ∈ order, block < blocks.size
  placed : ∀ block ∈ order, ∀ code, blocks[block]? = some code →
    ∀ target ∈ code.branch.targets, target ∈ order
  follows : ∀ block ∈ order, ∀ code, blocks[block]? = some code → ∀ condition target next,
    code.branch = .conditional condition target next →
      ∃ front back, order = front ++ block :: next :: back

/-- Bytes that widening the branch of a block adds. -/
def growthOf (blocks : Array (Block φ ι)) (block : Nat) : Nat :=
  match blocks[block]?.bind fun code => shortTarget? code.branch with
  | some (_, unconditional) => if unconditional then 4 else 8
  | none => 0

omit [Wide ι] in
theorem four_dvd_growthOf (blocks : Array (Block φ ι)) (block : Nat) :
    4 ∣ growthOf blocks block := by
  rw [growthOf]
  split
  · split <;> decide
  · exact Nat.dvd_zero 4

/-- The width of a block in a layout where some blocks grow. -/
def grownWidth (blocks : Array (Block φ ι)) (far : Finset Nat) (block : Nat) : Nat :=
  Layout.blockWidth blocks block + if block ∈ far then growthOf blocks block else 0

/-- Where a block starts when some blocks have grown at their ends. -/
def grownStart (blocks : Array (Block φ ι)) (order : List Nat) (far : Finset Nat)
    (block : Nat) : Nat :=
  Layout.startOf (grownWidth blocks far) order block

/-- Bytes from the branch of a block to a target when some blocks have grown at
their ends. -/
def grownDistance (blocks : Array (Block φ ι)) (order : List Nat) (far : Finset Nat)
    (block : Nat) (code : Block φ ι) (target : Nat) : Int :=
  grownStart blocks order far target - (grownStart blocks order far block + code.bodyWidth : Nat)

/-- Every short branch outside of a set of blocks is within range once those of
the set have grown. -/
def Enough (range : Range) (blocks : Array (Block φ ι)) (order : List Nat)
    (far : Finset Nat) : Prop :=
  ∀ block ∈ order, ∀ code, blocks[block]? = some code →
    ∀ target unconditional, shortTarget? code.branch = some (target, unconditional) →
      block ∉ far → range.contains (grownDistance blocks order far block code target) = true

/-! ## Lookup in tables -/

section

variable {α β : Type} {key : α → Nat} {value : α → β} {entries : List α}
  {table : Std.HashMap Nat β}

theorem getElem?_foldl_insert_of_notMem (key : α → Nat) (value : α → β) {name : Nat}
    (absent : name ∉ entries.map key) :
    (entries.foldl (fun table entry => table.insert (key entry) (value entry)) table)[name]? =
      table[name]? := by
  induction entries generalizing table with
  | nil => rfl
  | cons entry entries ih =>
    rw [List.map_cons, List.mem_cons, not_or] at absent
    rw [List.foldl_cons, ih absent.2, Std.HashMap.getElem?_insert,
      if_neg (by simpa using Ne.symm absent.1)]

theorem getElem?_foldl_insert_of_mem (key : α → Nat) (value : α → β)
    (distinct : (entries.map key).Nodup) {entry : α}
    (member : entry ∈ entries) :
    (entries.foldl (fun table entry => table.insert (key entry) (value entry)) table)[key entry]? =
      some (value entry) := by
  induction entries generalizing table with
  | nil => cases member
  | cons first entries ih =>
    rw [List.map_cons, List.nodup_cons] at distinct
    rw [List.foldl_cons]
    rcases List.mem_cons.1 member with rfl | later
    · rw [getElem?_foldl_insert_of_notMem key value distinct.1, Std.HashMap.getElem?_insert_self]
    · exact ih distinct.2 later

end

/-! ## Branches as jumps -/

/-- The jump of a block between two places of a layout. -/
def jumpAt (range : Range) (blocks : Array (Block φ ι)) (order : List Nat) (block : Nat) :
    Option Jump :=
  blocks[block]?.bind fun code =>
    (shortTarget? code.branch).map fun (target, unconditional) =>
      let distance := grownDistance blocks order ∅ block code target
      { block, unconditional, distance
        origin := order.idxOf block + 1
        target := order.idxOf target
        isFar := !range.contains distance }

theorem grownStart_empty (blocks : Array (Block φ ι)) (order : List Nat) (block : Nat) :
    grownStart blocks order ∅ block =
      Layout.startOf (Layout.blockWidth blocks) order block := by
  have same : grownWidth blocks ∅ = Layout.blockWidth blocks := by
    funext other
    rw [grownWidth, if_neg (Finset.notMem_empty other), Nat.add_zero]
  rw [grownStart, same]

theorem mem_targets_of_short {branch : Branch Nat Nat Nat} {target : Nat} {unconditional : Bool}
    (short : shortTarget? branch = some (target, unconditional)) : target ∈ branch.targets := by
  cases branch <;> simp_all [shortTarget?, Branch.targets]

omit [Wide ι] in
theorem Plain.targetPlaced {blocks : Array (Block φ ι)} {order : List Nat}
    (plain : Plain blocks order) {block target : Nat} {code : Block φ ι} {unconditional : Bool}
    (placed : block ∈ order) (there : blocks[block]? = some code)
    (short : shortTarget? code.branch = some (target, unconditional)) : target ∈ order :=
  plain.placed block placed code there target (mem_targets_of_short short)

theorem jumpsOf_eq {range : Range} {blocks : Array (Block φ ι)} {order : List Nat}
    (plain : Plain blocks order) :
    jumpsOf range blocks order = order.filterMap (jumpAt range blocks order) := by
  obtain ⟨places, same, whole⟩ : ∃ places : Std.HashMap Nat (Nat × Nat),
      places = (Layout.starts blocks order).zipIdx.foldl
        (fun places entry => places.insert entry.1.1 (entry.2, entry.1.2)) ∅ ∧
      jumpsOf range blocks order = order.filterMap fun block =>
        blocks[block]?.bind fun code => (shortTarget? code.branch).bind fun short =>
          places[block]?.bind fun start => places[short.1]?.bind fun target =>
            let distance : Int := target.2 - (start.2 + code.bodyWidth : Nat)
            some ⟨block, start.1 + 1, target.1, short.2, distance, !range.contains distance⟩ :=
    ⟨_, rfl, rfl⟩
  have found : ∀ block ∈ order, places[block]? =
      some (order.idxOf block, grownStart blocks order ∅ block) := by
    intro block placed
    rw [grownStart_empty, same]
    have member : ((block, Layout.startOf (Layout.blockWidth blocks) order block), order.idxOf block) ∈
        (Layout.starts blocks order).zipIdx :=
      List.mk_mem_zipIdx_iff_getElem?.2 (Layout.starts_getElem? placed)
    refine getElem?_foldl_insert_of_mem (fun entry : (Nat × Nat) × Nat => entry.1.1)
      (fun entry => (entry.2, entry.1.2)) ?_ member
    rw [show (fun entry : (Nat × Nat) × Nat => entry.1.1) = Prod.fst ∘ Prod.fst from rfl,
      ← List.map_map, List.zipIdx_map_fst, Layout.starts_map_fst]
    exact plain.distinct
  rw [whole]
  refine List.filterMap_congr fun block placed => ?_
  rw [jumpAt]
  cases there : blocks[block]? with
  | none => rfl
  | some code =>
    cases short : shortTarget? code.branch with
    | none => simp [short]
    | some pair =>
      have targetPlaced := plain.targetPlaced placed there short
      simp [short, found block placed, found pair.1 targetPlaced, grownDistance]

section

variable {range : Range} {blocks : Array (Block φ ι)} {order : List Nat} {block : Nat}
  {far : Finset Nat} {jump : Jump}

theorem jumpAt_eq_some (found : jumpAt range blocks order block = some jump) :
    ∃ code target, blocks[block]? = some code ∧
      shortTarget? code.branch = some (target, jump.unconditional) ∧
      jump = ⟨block, order.idxOf block + 1, order.idxOf target, jump.unconditional,
        grownDistance blocks order ∅ block code target,
        !range.contains (grownDistance blocks order ∅ block code target)⟩ := by
  obtain ⟨code, there, found⟩ := Option.bind_eq_some_iff.1 found
  obtain ⟨⟨target, unconditional⟩, short, rfl⟩ := Option.map_eq_some_iff.1 found
  exact ⟨code, target, there, short, rfl⟩

theorem jumpAt_of_short (range : Range) (order : List Nat) {code : Block φ ι} {target : Nat} {unconditional : Bool}
    (there : blocks[block]? = some code)
    (short : shortTarget? code.branch = some (target, unconditional)) :
    jumpAt range blocks order block =
      some ⟨block, order.idxOf block + 1, order.idxOf target, unconditional,
        grownDistance blocks order ∅ block code target,
        !range.contains (grownDistance blocks order ∅ block code target)⟩ := by
  rw [jumpAt, there, Option.bind_some, short, Option.map_some]

theorem growthOf_of_jumpAt (found : jumpAt range blocks order block = some jump) :
    (growthOf blocks block : Int) = jump.growth := by
  obtain ⟨code, target, there, short, -⟩ := jumpAt_eq_some found
  rw [growthOf, there, Option.bind_some, short, Jump.growth]
  cases jump.unconditional <;> rfl

theorem growthOf_of_not_jumpAt (missing : jumpAt range blocks order block = none) :
    growthOf blocks block = 0 := by
  rw [growthOf]
  cases there : blocks[block]? with
  | none => rfl
  | some code =>
    rw [jumpAt, there, Option.bind_some, Option.map_eq_none_iff] at missing
    rw [Option.bind_some, missing]

/-- Only blocks with room for a short jump grow. -/
theorem growthOf_le (blocks : Array (Block φ ι)) (block : Nat) :
    growthOf blocks block ≤ 3 * Layout.blockWidth blocks block := by
  rw [growthOf, Layout.blockWidth]
  cases blocks[block]? with
  | none => exact Nat.zero_le _
  | some code =>
    rw [Option.bind_some]
    dsimp only
    rw [Block.width]
    cases code.branch <;> simp [shortTarget?, Branch.width] <;> omega

theorem added_filterMap {at? : Nat → Option Jump} (keep : Jump → Bool) (blocks : List Nat)
    (jump : Jump) :
    Jump.added ((blocks.filterMap at?).filter keep) jump =
      (blocks.map fun block =>
        match at? block with
        | some other => if keep other = true ∧ other.Crosses jump then other.growth else 0
        | none => 0).sum := by
  induction blocks with
  | nil => rfl
  | cons block rest ih =>
    rw [List.map_cons, List.sum_cons, ← ih]
    cases found : at? block with
    | none => rw [List.filterMap_cons_none found, zero_add]
    | some other =>
      rw [List.filterMap_cons_some found]
      cases kept : keep other with
      | true => simp [kept, Jump.added_cons]
      | false => simp [kept]

/-- What grows under a jump is what grows between two places. -/
theorem added_eq_between (first last : Nat)
    (crossed : ∀ other ∈ order, other ∈ far →
      (jump.low ≤ order.idxOf other + 1 ∧ order.idxOf other + 1 ≤ jump.high ↔
        first ≤ order.idxOf other ∧ order.idxOf other < last)) :
    Jump.added ((order.filterMap (jumpAt range blocks order)).filter (·.block ∈ far)) jump =
      Layout.between (fun other => if other ∈ far then growthOf blocks other else 0)
        order first last := by
  rw [added_filterMap, Layout.between, Nat.cast_list_sum, List.map_map]
  refine congrArg List.sum (List.map_congr_left fun other placed => ?_)
  rw [Function.comp_apply]
  cases found : jumpAt range blocks order other with
  | none => simp [growthOf_of_not_jumpAt found]
  | some widened =>
    obtain ⟨code, target, -, -, same⟩ := jumpAt_eq_some found
    have growth := growthOf_of_jumpAt found
    have place : widened.origin = order.idxOf other + 1 := by rw [same]
    have name : widened.block = other := by rw [same]
    have crossing : other ∈ far → (widened.Crosses jump ↔
        first ≤ order.idxOf other ∧ order.idxOf other < last) := by
      intro grows
      unfold Jump.Crosses
      rw [place]
      exact crossed other placed grows
    dsimp only
    rw [name]
    by_cases grows : other ∈ far
    · by_cases inside : first ≤ order.idxOf other ∧ order.idxOf other < last
      · rw [if_pos ⟨decide_eq_true grows, (crossing grows).2 inside⟩, if_pos inside,
          if_pos grows, growth]
      · rw [if_neg fun crosses => inside ((crossing grows).1 crosses.2),
          if_neg inside, Nat.cast_zero]
    · rw [if_neg fun crosses => grows (of_decide_eq_true crosses.1), if_neg grows, ite_self,
        Nat.cast_zero]

/-- A branch that does not grow itself covers as much as its jump does among
the jumps that grow. -/
theorem grownDistance_eq_among (plain : Plain blocks order) (placed : block ∈ order)
    {code : Block φ ι} {target : Nat} {unconditional : Bool} (there : blocks[block]? = some code)
    (short : shortTarget? code.branch = some (target, unconditional)) (stays : block ∉ far)
    (found : jumpAt range blocks order block = some jump) :
    grownDistance blocks order far block code target =
      jump.among ((jumpsOf range blocks order).filter (·.block ∈ far)) := by
  have targetPlaced := plain.targetPlaced placed there short
  rw [jumpAt_of_short range order there short] at found
  obtain rfl := (Option.some.inj found).symm
  rw [jumpsOf_eq plain, Jump.among]
  dsimp only
  have grown : ∀ other, grownStart blocks order far other =
      grownStart blocks order ∅ other +
        Layout.startOf (fun other => if other ∈ far then growthOf blocks other else 0) order other := by
    intro other
    rw [grownStart_empty]
    exact Layout.startOf_add _ order other
  rw [grownDistance, grownDistance, grown, grown, grownStart_empty, grownStart_empty]
  rcases lt_or_ge (order.idxOf block) (order.idxOf target) with forward | backward
  · have start := Layout.startOf_eq_add_between (Layout.blockWidth blocks)
      plain.distinct forward.le
    have growth := Layout.startOf_eq_add_between
      (fun other => if other ∈ far then growthOf blocks other else 0)
      plain.distinct forward.le
    have body := Layout.le_between (Layout.blockWidth blocks) placed le_rfl forward
    rw [Layout.blockWidth, there] at body
    dsimp only at body
    rw [Block.width] at body
    rw [added_eq_between (order.idxOf block) (order.idxOf target)]
    · rw [if_neg (by omega)]
      omega
    · intro other _ _
      simp only [Jump.low, Jump.high]
      rw [if_neg (by omega)]
      omega
  · have start := Layout.startOf_eq_add_between (Layout.blockWidth blocks)
      plain.distinct backward
    have growth := Layout.startOf_eq_add_between
      (fun other => if other ∈ far then growthOf blocks other else 0)
      plain.distinct backward
    have bounded := Layout.between_le_mul (Layout.blockWidth blocks) order 3
      (fun other => if other ∈ far then growthOf blocks other else 0)
      (fun other _ => by
        split_ifs
        · exact growthOf_le blocks other
        · exact Nat.zero_le _) (order.idxOf target) (order.idxOf block)
    rw [added_eq_between (order.idxOf target) (order.idxOf block)]
    · split_ifs <;> omega
    · intro other otherPlaced grows
      have different : order.idxOf other ≠ order.idxOf block := by
        intro same
        exact stays ((List.idxOf_inj otherPlaced).1 same ▸ grows)
      simp only [Jump.low, Jump.high]
      rw [if_pos (by omega)]
      omega

/-! ## The jumps that are widened -/

omit [Wide ι] in
theorem map_block_filterMap {jump? : Nat → Option Jump}
    (named : ∀ block jump, jump? block = some jump → jump.block = block) (order : List Nat) :
    ((order.filterMap jump?).map Jump.block).Sublist order := by
  induction order with
  | nil => exact List.Sublist.refl _
  | cons block order ih =>
    cases found : jump? block with
    | none =>
      rw [List.filterMap_cons_none found]
      exact ih.cons block
    | some jump =>
      rw [List.filterMap_cons_some found, List.map_cons, named block jump found]
      exact ih.cons_cons block

omit [Wide ι] in
/-- A block that has a jump has it each time it is laid out. -/
theorem count_map_block_filterMap {jump? : Nat → Option Jump}
    (named : ∀ block jump, jump? block = some jump → jump.block = block)
    (found : jump? block = some jump) (order : List Nat) :
    ((order.filterMap jump?).map Jump.block).count block = order.count block := by
  induction order with
  | nil => rfl
  | cons other order ih =>
    by_cases same : other = block
    · rw [same, List.filterMap_cons_some found, List.map_cons, named block jump found,
        List.count_cons_self, List.count_cons_self, ih]
    · rw [List.count_cons_of_ne same]
      cases there : jump? other with
      | none => rw [List.filterMap_cons_none there, ih]
      | some jump =>
        rw [List.filterMap_cons_some there, List.map_cons, named other jump there,
          List.count_cons_of_ne same, ih]

/-- Every block has one jump at most, which is that of its branch. -/
theorem exists_jumpsOf_eq (range : Range) (blocks : Array (Block φ ι)) (order : List Nat) :
    ∃ jump? : Nat → Option Jump, jumpsOf range blocks order = order.filterMap jump? ∧
      ∀ block jump, jump? block = some jump → jump.block = block ∧
        ∃ code target, blocks[block]? = some code ∧
          shortTarget? code.branch = some (target, jump.unconditional) := by
  rw [jumpsOf]
  refine ⟨_, rfl, fun block jump found => ?_⟩
  obtain ⟨code, there, found⟩ := Option.bind_eq_some_iff.1 found
  obtain ⟨⟨target, unconditional⟩, short, found⟩ := Option.bind_eq_some_iff.1 found
  obtain ⟨start, -, found⟩ := Option.bind_eq_some_iff.1 found
  obtain ⟨targetStart, -, found⟩ := Option.bind_eq_some_iff.1 found
  obtain rfl := Option.some.inj found
  exact ⟨rfl, code, target, there, short⟩

theorem jumpsOf_map_block (range : Range) (blocks : Array (Block φ ι)) (order : List Nat) :
    ((jumpsOf range blocks order).map Jump.block).Sublist order := by
  obtain ⟨jump?, same, known⟩ := exists_jumpsOf_eq range blocks order
  rw [same]
  exact map_block_filterMap (fun block jump found => (known block jump found).1) order

theorem mem_jumpsOf (member : jump ∈ jumpsOf range blocks order) :
    jump.block ∈ order ∧ ∃ code target, blocks[jump.block]? = some code ∧
      shortTarget? code.branch = some (target, jump.unconditional) := by
  obtain ⟨jump?, same, known⟩ := exists_jumpsOf_eq range blocks order
  rw [same] at member
  obtain ⟨block, placed, found⟩ := List.mem_filterMap.1 member
  obtain ⟨rfl, short⟩ := known block jump found
  exact ⟨placed, short⟩

theorem jumpsOf_eq_of_block {other : Jump} (member : jump ∈ jumpsOf range blocks order)
    (otherMember : other ∈ jumpsOf range blocks order) (sameBlock : jump.block = other.block) :
    jump = other := by
  obtain ⟨jump?, same, known⟩ := exists_jumpsOf_eq range blocks order
  rw [same] at member otherMember
  obtain ⟨block, -, found⟩ := List.mem_filterMap.1 member
  obtain ⟨block', -, found'⟩ := List.mem_filterMap.1 otherMember
  rw [(known block jump found).1, (known block' other found').1] at sameBlock
  rw [sameBlock] at found
  exact Option.some.inj (found.symm.trans found')

theorem count_jumpsOf (member : jump ∈ jumpsOf range blocks order) :
    ((jumpsOf range blocks order).map Jump.block).count jump.block = order.count jump.block := by
  obtain ⟨jump?, same, known⟩ := exists_jumpsOf_eq range blocks order
  rw [same] at member ⊢
  obtain ⟨block, -, found⟩ := List.mem_filterMap.1 member
  rw [(known block jump found).1]
  exact count_map_block_filterMap (fun block jump found => (known block jump found).1) found order

theorem jumpsOf_distinct (distinct : order.Nodup) :
    ((jumpsOf range blocks order).map Jump.block).Nodup :=
  distinct.sublist (jumpsOf_map_block range blocks order)

theorem jumpsOf_flagged (plain : Plain blocks order) :
    ∀ jump ∈ jumpsOf range blocks order, jump.isFar = !range.contains jump.distance := by
  intro jump member
  rw [jumpsOf_eq plain] at member
  obtain ⟨_, -, found⟩ := List.mem_filterMap.1 member
  obtain ⟨_, _, -, -, same⟩ := jumpAt_eq_some found
  rw [same]

/-- Whether a set of blocks is enough can be told from the jumps. -/
theorem enough_iff (plain : Plain blocks order) :
    Enough range blocks order far ↔ Sufficient range (jumpsOf range blocks order) far := by
  constructor
  · intro enough jump member outside
    have found := member
    rw [jumpsOf_eq plain] at found
    obtain ⟨block, placed, found⟩ := List.mem_filterMap.1 found
    obtain ⟨code, target, there, short, same⟩ := jumpAt_eq_some found
    have name : jump.block = block := by rw [same]
    rw [name] at outside
    rw [← grownDistance_eq_among plain placed there short outside found]
    exact enough block placed code there target _ short outside
  · intro sufficient block placed code there target unconditional short outside
    have found := jumpAt_of_short range order there short
    rw [grownDistance_eq_among plain placed there short outside found]
    refine sufficient _ ?_ outside
    rw [jumpsOf_eq plain]
    exact List.mem_filterMap.2 ⟨block, placed, found⟩

theorem sufficient_perm {jumps others : List Jump} (perm : jumps.Perm others) :
    Sufficient range jumps far ↔ Sufficient range others far := by
  have same : ∀ jump : Jump, jump.among (jumps.filter (·.block ∈ far)) =
      jump.among (others.filter (·.block ∈ far)) := by
    intro jump
    rw [Jump.among, Jump.added_perm (perm.filter _), Jump.among]
  constructor
  · intro sufficient jump member outside
    rw [← same]
    exact sufficient jump (perm.mem_iff.2 member) outside
  · intro sufficient jump member outside
    rw [same]
    exact sufficient jump (perm.mem_iff.1 member) outside

/-- The tree over the spans of some jumps, each known by its position. -/
theorem spans_of_ofList? {jumps : List Jump} {spans : IntervalTree Nat Nat}
    (made : IntervalTree.ofList?
      (jumps.zipIdx.map fun (jump, index) => Interval.mk jump.low jump.high index) = some spans) :
    Spans jumps spans := by
  have answer : ∀ place, (across spans place).Perm
      (((jumps.zipIdx.map fun (jump, index) => Interval.mk jump.low jump.high index).filter
        fun interval => interval.Contains place).map Interval.item) := by
    intro place
    exact (List.mergeSort_perm _ _).trans ((IntervalTree.query_perm made place).map _)
  constructor
  · intro place
    refine (answer place).nodup_iff.2 ?_
    have indices : ((jumps.zipIdx.map fun (jump, index) =>
        Interval.mk jump.low jump.high index).map Interval.item).Nodup := by
      rw [List.map_map]
      change (jumps.zipIdx.map Prod.snd).Nodup
      rw [List.zipIdx_map_snd]
      exact List.nodup_range'
    exact indices.sublist (List.filter_sublist.map _)
  · intro place index
    rw [(answer place).mem_iff, List.mem_map]
    constructor
    · rintro ⟨interval, member, rfl⟩
      obtain ⟨inside, around⟩ := List.mem_filter.1 member
      obtain ⟨⟨jump, position⟩, there, rfl⟩ := List.mem_map.1 inside
      exact ⟨jump, List.mk_mem_zipIdx_iff_getElem?.1 there, of_decide_eq_true around⟩
    · rintro ⟨jump, there, around⟩
      refine ⟨⟨jump.low, jump.high, index⟩, List.mem_filter.2 ⟨?_, decide_eq_true around⟩, rfl⟩
      exact List.mem_map.2 ⟨(jump, index), List.mk_mem_zipIdx_iff_getElem?.2 there, rfl⟩

/-- A run of widening over the jumps of a layout.  Neither how they are numbered
nor which of those out of range is taken next matters to it. -/
def Widens (range : Range) (blocks : Array (Block φ ι)) (order : List Nat)
    (widened : List Jump) : Prop :=
  ∃ jumps spans stack, jumps.Perm (jumpsOf range blocks order) ∧ Spans jumps spans ∧
    stack.Perm (farFrom jumps) ∧ Settling range spans jumps.toArray stack widened

/-- Every run widens the least set of blocks that is enough, each block once. -/
theorem Widens.least {widened : List Jump} (plain : Plain blocks order)
    (around : range.Around) (widens : Widens range blocks order widened) :
    IsLeast {far : Finset Nat | Enough range blocks order far}
        (widened.map Jump.block).toFinset ∧
      (widened.map Jump.block).Nodup := by
  obtain ⟨jumps, spans, stack, perm, spansOf, onStack, settling⟩ := widens
  have unique : (jumps.map Jump.block).Nodup :=
    (perm.map Jump.block).nodup_iff.2 (jumpsOf_distinct plain.distinct)
  have flagged : ∀ jump ∈ jumps, jump.isFar = !range.contains jump.distance :=
    fun jump member => jumpsOf_flagged plain jump (perm.mem_iff.1 member)
  have same : {far : Finset Nat | Enough range blocks order far} =
      {far : Finset Nat | Sufficient range jumps far} :=
    Set.ext fun far => (enough_iff plain).trans (sufficient_perm perm).symm
  rw [same]
  exact settling.isLeast spansOf around unique flagged onStack

/-- The jumps of a layout by the places they span. -/
def sortedJumps (range : Range) (blocks : Array (Block φ ι)) (order : List Nat) : List Jump :=
  withoutRepeats Jump.isFar ∅ ((jumpsOf range blocks order).mergeSort Jump.precedes)

/-- Taking the jumps from a stack is one way to take them. -/
theorem farJumps_settling (range : Range) (blocks : Array (Block φ ι)) (order : List Nat) :
    ∃ spans stack, Spans (sortedJumps range blocks order) spans ∧
      stack.Perm (farFrom (sortedJumps range blocks order)) ∧
      Settling range spans (sortedJumps range blocks order).toArray stack
        (farJumps range blocks order).toList := by
  rw [farJumps]
  dsimp only
  rw [← sortedJumps]
  generalize sortedJumps range blocks order = jumps
  split
  · next spans made =>
    have spansOf := spans_of_ofList? made
    have onStack : (farFrom jumps).reverse.Perm (farFrom jumps) := List.reverse_perm _
    obtain ⟨more, answer, settling⟩ := settle_settling spansOf (.start onStack) #[]
    rw [List.nil_append] at answer
    exact ⟨spans, _, spansOf, onStack, answer ▸ settling⟩
  · next missing =>
    have empty : jumps = [] := by
      have nothing := IntervalTree.ofList?_eq_none missing
      rwa [List.map_eq_nil_iff, List.zipIdx_eq_nil_iff] at nothing
    subst empty
    have nowhere : ∀ place, across (.leaf (.point 0) []) place = [] := by
      intro place
      rw [across, IntervalTree.query]
      split <;> exact List.mergeSort_nil
    refine ⟨.leaf (.point 0) [], [], ⟨fun place => ?_, fun place index => ?_⟩,
      List.Perm.refl _, .done _⟩
    · rw [nowhere]
      exact List.nodup_nil
    · rw [nowhere]
      simp

theorem sortedJumps_perm (distinct : order.Nodup) :
    (sortedJumps range blocks order).Perm (jumpsOf range blocks order) := by
  have perm := List.mergeSort_perm (jumpsOf range blocks order) Jump.precedes
  have unique := (perm.map Jump.block).nodup_iff.2 (jumpsOf_distinct distinct)
  rw [sortedJumps, withoutRepeats_eq_self Jump.isFar unique fun _ _ => Std.HashSet.not_mem_empty]
  exact perm

/-- Taking the jumps from a stack is such a run. -/
theorem farJumps_widens (plain : Plain blocks order) :
    Widens range blocks order (farJumps range blocks order).toList := by
  obtain ⟨spans, stack, spansOf, onStack, settling⟩ := farJumps_settling range blocks order
  exact ⟨_, spans, stack, sortedJumps_perm plain.distinct, spansOf, onStack, settling⟩

/-! ## Layouts of any kind -/

theorem withoutRepeats_sublist (repeatable : Jump → Bool) (seen : Std.HashSet Nat)
    (jumps : List Jump) : (withoutRepeats repeatable seen jumps).Sublist jumps := by
  fun_induction withoutRepeats repeatable seen jumps with
  | case1 => exact List.Sublist.refl _
  | case2 seen jump rest repeated ih => exact ih.cons jump
  | case3 seen jump rest new ih => exact ih.cons_cons jump

/-- Where no jump may be repeated, each that is left is of another block. -/
theorem withoutRepeats_nodup (seen : Std.HashSet Nat) (jumps : List Jump) :
    ((withoutRepeats (fun _ => false) seen jumps).map Jump.block).Nodup ∧
      ∀ jump ∈ withoutRepeats (fun _ => false) seen jumps, jump.block ∉ seen := by
  fun_induction withoutRepeats (fun _ => false) seen jumps with
  | case1 => exact ⟨List.nodup_nil, fun _ member => absurd member List.not_mem_nil⟩
  | case2 seen jump rest repeated ih => exact ih
  | case3 seen jump rest new ih =>
    obtain ⟨distinct, unseen⟩ := ih
    have first : jump.block ∉ seen := fun known => new ⟨known, rfl⟩
    constructor
    · rw [List.map_cons, List.nodup_cons, List.mem_map]
      refine ⟨?_, distinct⟩
      rintro ⟨other, member, same⟩
      exact unseen other member (same ▸ Std.HashSet.mem_insert_self)
    · intro other member known
      rcases List.mem_cons.1 member with rfl | later
      · exact first known
      · exact unseen other later (Std.HashSet.mem_insert.2 (.inr known))

/-- Of a block that may not be repeated one jump is left, or none if it was seen. -/
theorem count_withoutRepeats_le {repeatable : Jump → Bool} {block : Nat} (seen : Std.HashSet Nat)
    (jumps : List Jump) (once : ∀ jump ∈ jumps, jump.block = block → repeatable jump = false) :
    ((withoutRepeats repeatable seen jumps).map Jump.block).count block ≤ 1 ∧
      (block ∈ seen → block ∉ (withoutRepeats repeatable seen jumps).map Jump.block) := by
  fun_induction withoutRepeats repeatable seen jumps with
  | case1 => exact ⟨Nat.zero_le 1, fun _ => List.not_mem_nil⟩
  | case2 seen jump rest repeated ih =>
    exact ih fun other member => once other (List.mem_cons_of_mem _ member)
  | case3 seen jump rest new ih =>
    obtain ⟨few, unseen⟩ := ih fun other member => once other (List.mem_cons_of_mem _ member)
    rw [List.map_cons]
    by_cases same : jump.block = block
    · have none := List.count_eq_zero_of_not_mem (unseen (same ▸ Std.HashSet.mem_insert_self))
      refine ⟨?_, fun known => absurd ⟨same ▸ known, once jump List.mem_cons_self same⟩ new⟩
      rw [← same] at none ⊢
      rw [List.count_cons_self, none]
    · refine ⟨by rwa [List.count_cons_of_ne same], fun known => ?_⟩
      rw [List.mem_cons, not_or]
      exact ⟨Ne.symm same, unseen (Std.HashSet.mem_insert.2 (.inr known))⟩

/-- Jumps that may be repeated all stay. -/
theorem filter_withoutRepeats (repeatable : Jump → Bool) (seen : Std.HashSet Nat)
    (jumps : List Jump) :
    (withoutRepeats repeatable seen jumps).filter repeatable = jumps.filter repeatable := by
  fun_induction withoutRepeats repeatable seen jumps with
  | case1 => rfl
  | case2 seen jump rest repeated ih =>
    rw [ih, List.filter_cons_of_neg (by rw [repeated.2]; exact Bool.false_ne_true)]
  | case3 seen jump rest new ih => rw [List.filter_cons, ih, ← List.filter_cons]

theorem count_map_block_filter {keep : Jump → Bool} {block : Nat} {jumps : List Jump}
    (kept : ∀ jump ∈ jumps, jump.block = block → keep jump = true) :
    ((jumps.filter keep).map Jump.block).count block = (jumps.map Jump.block).count block := by
  rw [List.count_eq_countP, List.count_eq_countP, List.countP_map, List.countP_map,
    List.countP_filter]
  refine List.countP_congr fun jump member => ?_
  rw [Bool.and_eq_true_iff]
  exact ⟨And.left, fun same => ⟨same, kept jump member (eq_of_beq same)⟩⟩

theorem lastOfEach_sublist (jumps : List Jump) : (lastOfEach jumps).Sublist jumps := by
  have kept := (withoutRepeats_sublist (fun _ => false) ∅ jumps.reverse).reverse
  rwa [List.reverse_reverse] at kept

theorem lastOfEach_nodup (jumps : List Jump) : ((lastOfEach jumps).map Jump.block).Nodup := by
  rw [lastOfEach, List.map_reverse, List.nodup_reverse]
  exact (withoutRepeats_nodup ∅ jumps.reverse).1

theorem lastOfEach_eq_self {jumps : List Jump} (distinct : (jumps.map Jump.block).Nodup) :
    lastOfEach jumps = jumps := by
  have backwards : (jumps.reverse.map Jump.block).Nodup := by
    rwa [List.map_reverse, List.nodup_reverse]
  rw [lastOfEach, withoutRepeats_eq_self _ backwards fun _ _ => Std.HashSet.not_mem_empty,
    List.reverse_reverse]

theorem length_lastOfEach_lt {jumps : List Jump} (twice : ¬ (jumps.map Jump.block).Nodup) :
    (lastOfEach jumps).length < jumps.length := by
  refine Nat.lt_of_le_of_ne (lastOfEach_sublist jumps).length_le fun same => twice ?_
  have all := (lastOfEach_sublist jumps).eq_of_length same
  exact all ▸ lastOfEach_nodup jumps

/-- What is widened are jumps of the layout, whatever the layout is. -/
theorem farJumps_origins (range : Range) (blocks : Array (Block φ ι)) (order : List Nat) :
    Origins (jumpsOf range blocks order) (farJumps range blocks order) := by
  rw [farJumps]
  dsimp only
  split
  · next tree made =>
    refine Origins.settle (fun jump member => ?_) tree fun _ member =>
      absurd member (Array.not_mem_empty _)
    have kept := (withoutRepeats_sublist Jump.isFar ∅ _).subset (List.mem_toArray.1 member)
    exact ⟨jump, (List.mergeSort_perm _ _).mem_iff.1 kept, rfl, rfl, rfl, rfl⟩
  · exact fun _ member => absurd member (Array.not_mem_empty _)

theorem farJumps_subperm_sortedJumps (range : Range) (blocks : Array (Block φ ι))
    (order : List Nat) : ((farJumps range blocks order).toList.map Jump.block).Subperm
      ((sortedJumps range blocks order).map Jump.block) := by
  obtain ⟨spans, stack, spansOf, onStack, settling⟩ := farJumps_settling range blocks order
  exact settling.subperm spansOf (.start onStack)

/-- The jump of a block is taken no more often than the block is laid out. -/
theorem farJumps_subperm (range : Range) (blocks : Array (Block φ ι)) (order : List Nat) :
    ((farJumps range blocks order).toList.map Jump.block).Subperm order := by
  have kept := (withoutRepeats_sublist Jump.isFar ∅
    ((jumpsOf range blocks order).mergeSort Jump.precedes)).map Jump.block
  have sorted := (List.mergeSort_perm (jumpsOf range blocks order) Jump.precedes).map Jump.block
  have placed := jumpsOf_map_block range blocks order
  exact (farJumps_subperm_sortedJumps range blocks order).trans
    (kept.subperm.trans (sorted.subperm.trans placed.subperm))

theorem mem_farJumps (member : jump ∈ (farJumps range blocks order).toList) :
    jump.block ∈ order ∧ ∃ code target, blocks[jump.block]? = some code ∧
      shortTarget? code.branch = some (target, jump.unconditional) := by
  obtain ⟨old, known, same⟩ := farJumps_origins range blocks order jump (Array.mem_toList_iff.1 member)
  rw [same.1, same.2.2.2]
  exact mem_jumpsOf known

omit [Wide ι] in
/-- A block has one branch, so all its jumps are of one kind. -/
theorem kind_eq {other : Jump}
    (short : ∃ code target, blocks[jump.block]? = some code ∧
      shortTarget? code.branch = some (target, jump.unconditional))
    (otherShort : ∃ code target, blocks[other.block]? = some code ∧
      shortTarget? code.branch = some (target, other.unconditional))
    (same : jump.block = other.block) : jump.unconditional = other.unconditional := by
  obtain ⟨code, target, there, short⟩ := short
  obtain ⟨code', target', there', short'⟩ := otherShort
  rw [same, there'] at there
  obtain rfl := Option.some.inj there
  exact (Prod.mk.inj (Option.some.inj (short.symm.trans short'))).2

/-- A jump that is out of range from the start is taken each time that its block is
laid out. -/
theorem count_farJumps_of_far (known : jump ∈ jumpsOf range blocks order)
    (far : jump.isFar = true) :
    ((farJumps range blocks order).toList.map Jump.block).count jump.block =
      order.count jump.block := by
  refine Nat.le_antisymm ((farJumps_subperm range blocks order).count_le _) ?_
  obtain ⟨spans, stack, spansOf, onStack, settling⟩ := farJumps_settling range blocks order
  have sorted := List.mergeSort_perm (jumpsOf range blocks order) Jump.precedes
  have allFar : ∀ other ∈ jumpsOf range blocks order, other.block = jump.block →
      other.isFar = true := fun other member same =>
    jumpsOf_eq_of_block member known same ▸ far
  calc order.count jump.block
      = ((jumpsOf range blocks order).map Jump.block).count jump.block := (count_jumpsOf known).symm
    _ = (((jumpsOf range blocks order).filter (·.isFar)).map Jump.block).count jump.block :=
        (count_map_block_filter allFar).symm
    _ = (((sortedJumps range blocks order).filter (·.isFar)).map Jump.block).count jump.block := by
        rw [sortedJumps, filter_withoutRepeats]
        exact (((sorted.filter _).map _).count_eq _).symm
    _ ≤ _ := (settling.far_subperm spansOf onStack).count_le _

/-- A block with a conditional branch that is out of range from the start has one place. -/
def SplitOnce (range : Range) (blocks : Array (Block φ ι)) (order : List Nat) : Prop :=
  ∀ jump ∈ jumpsOf range blocks order, jump.unconditional = false → jump.isFar = true →
    order.count jump.block = 1

theorem splitOnce_of_nodup (range : Range) (blocks : Array (Block φ ι)) (distinct : order.Nodup) :
    SplitOnce range blocks order :=
  fun _ member _ _ => List.count_eq_one_of_mem distinct (mem_jumpsOf member).1

/-- A conditional branch that has one place, or is within range at first, is taken once. -/
theorem SplitOnce.count_farJumps_le (once : SplitOnce range blocks order)
    (member : jump ∈ (farJumps range blocks order).toList) (conditional : jump.unconditional = false) :
    ((farJumps range blocks order).toList.map Jump.block).count jump.block ≤ 1 := by
  obtain ⟨old, known, same⟩ := farJumps_origins range blocks order jump (Array.mem_toList_iff.1 member)
  cases far : old.isFar with
  | true =>
    rw [same.1, ← once old known (same.2.2.2 ▸ conditional) far]
    exact (farJumps_subperm range blocks order).count_le _
  | false =>
    refine ((farJumps_subperm_sortedJumps range blocks order).count_le _).trans ?_
    refine (count_withoutRepeats_le _ _ fun other otherMember sameBlock => ?_).1
    have otherKnown := (List.mergeSort_perm _ _).mem_iff.1 otherMember
    rw [jumpsOf_eq_of_block otherKnown known (sameBlock.trans same.1), far]

end

end Widening
end ClassFile
