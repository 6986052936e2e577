import Mathlib.Algebra.Order.BigOperators.Group.List
import Mathlib.Algebra.Ring.Int.Defs
import Mathlib.Data.Finset.Dedup
import Mathlib.Order.Bounds.Defs
import ClassFile.Code.Widening
import ClassFile.Proofs.IntervalQuery

namespace ClassFile
namespace Widening

/-!
# Settling on the jumps to widen

What a jump covers once others are widened depends only on which ones are, so
`among` states it for a list of widened jumps in any order.  A set of blocks is
sufficient when every jump outside of it stays within range although all jumps
in it grow.  Jumps only ever get longer, so whatever is found to be out of range
on the way belongs to every sufficient set, and when nothing is left to widen the
widened jumps are such a set themselves.  No step of this looks at the order in
which jumps are taken, which is why `Settling` allows any.
-/

namespace Range

/-- A short jump can at least stay where it is. -/
def Around (range : Range) : Prop :=
  range.low ≤ 0 ∧ 0 ≤ range.high

theorem contains_iff {range : Range} {distance : Int} :
    range.contains distance = true ↔ range.low ≤ distance ∧ distance ≤ range.high := by
  rw [contains, Bool.and_eq_true_iff, decide_eq_true_iff, decide_eq_true_iff]

end Range

namespace Jump

/-- Growth at the place of one jump lengthens another. -/
def Crosses (jump other : Jump) : Prop :=
  other.low ≤ jump.origin ∧ jump.origin ≤ other.high

instance (jump other : Jump) : Decidable (jump.Crosses other) :=
  inferInstanceAs (Decidable (_ ∧ _))

/-- The jumps are the same but for how far they go. -/
def SamePlace (jump other : Jump) : Prop :=
  jump.block = other.block ∧ jump.origin = other.origin ∧ jump.target = other.target ∧
    jump.unconditional = other.unconditional

theorem growth_nonneg (jump : Jump) : 0 ≤ jump.growth := by
  rw [growth]
  split <;> decide

/-- Bytes that some widened jumps add to another jump. -/
def added (widened : List Jump) (jump : Jump) : Int :=
  ((widened.filter (·.Crosses jump)).map growth).sum

theorem added_nil (jump : Jump) : added [] jump = 0 :=
  rfl

theorem added_cons (first : Jump) (widened : List Jump) (jump : Jump) :
    added (first :: widened) jump =
      (if first.Crosses jump then first.growth else 0) + added widened jump := by
  rw [added, List.filter_cons]
  by_cases crosses : first.Crosses jump
  · rw [if_pos (decide_eq_true crosses), if_pos crosses, List.map_cons, List.sum_cons, added]
  · rw [if_neg (by simpa using crosses), if_neg crosses, zero_add, added]

theorem added_nonneg (widened : List Jump) (jump : Jump) : 0 ≤ added widened jump := by
  refine List.sum_nonneg fun bytes member => ?_
  obtain ⟨other, -, rfl⟩ := List.mem_map.1 member
  exact other.growth_nonneg

theorem added_perm {widened others : List Jump} (perm : widened.Perm others) (jump : Jump) :
    added widened jump = added others jump :=
  ((perm.filter _).map _).sum_eq

/-- More widened jumps add no fewer bytes. -/
theorem added_le_of_subperm {widened others : List Jump} (subperm : widened.Subperm others)
    (jump : Jump) : added widened jump ≤ added others jump := by
  obtain ⟨whole, same, sublist⟩ := List.subperm_iff.1 subperm
  obtain ⟨rest, perm⟩ := sublist.exists_perm_append
  rw [added_perm (same.symm.trans perm) jump, added, added, List.filter_append, List.map_append, List.sum_append]
  exact le_add_of_nonneg_right (added_nonneg rest jump)

/-- What a jump covers once some jumps are widened, where it is not one of
them. -/
def among (widened : List Jump) (jump : Jump) : Int :=
  if jump.distance < 0 then jump.distance - added widened jump
  else jump.distance + added widened jump

/-- A jump in range is in range with fewer jumps widened. -/
theorem contains_among_of_le {range : Range} (around : range.Around) {widened others : List Jump}
    {jump : Jump} (fewer : added widened jump ≤ added others jump)
    (fits : range.contains (jump.among others) = true) :
    range.contains (jump.among widened) = true := by
  have nonneg := added_nonneg widened jump
  rw [Range.contains_iff] at fits ⊢
  obtain ⟨low, high⟩ := around
  unfold among at *
  split at fits <;> rename_i backward
  · rw [if_pos backward]
    omega
  · rw [if_neg backward]
    omega

end Jump

/-- Every jump outside of a set of blocks is in range once those of the set are
widened. -/
def Sufficient (range : Range) (jumps : List Jump) (far : Finset Nat) : Prop :=
  ∀ jump ∈ jumps, jump.block ∉ far →
    range.contains (jump.among (jumps.filter (·.block ∈ far))) = true

/-! ## Lengthening jumps -/

/-- A jump after growth under it, out of range if it has become so. -/
def Jump.stretched (range : Range) (bytes : Int) (jump : Jump) : Jump :=
  if jump.isFar then jump
  else { jump.lengthen bytes with isFar := !range.contains (jump.lengthen bytes).distance }

theorem stretch_cons {range : Range} {bytes : Int} {jumps : Array Jump} {stack : List Nat}
    {index : Nat} {rest : List Nat} {jump : Jump} (found : jumps[index]? = some jump) :
    stretch range bytes jumps stack (index :: rest) =
      stretch range bytes (jumps.setIfInBounds index (jump.stretched range bytes))
        (if jump.isFar = false ∧ (jump.stretched range bytes).isFar then index :: stack else stack)
        rest := by
  obtain ⟨inside, same⟩ := Array.getElem?_eq_some_iff.1 found
  rw [stretch, found]
  dsimp only
  cases far : jump.isFar with
  | true =>
    have unchanged : jumps.setIfInBounds index jump = jumps := by
      rw [Array.setIfInBounds, dif_pos inside, ← same, Array.set_getElem_self]
    simp [Jump.stretched, far, unchanged]
  | false =>
    have near : (jump.lengthen bytes).isFar = false := far
    cases fits : range.contains (jump.lengthen bytes).distance with
    | true =>
      have stays : jump.stretched range bytes = jump.lengthen bytes := by
        rw [Jump.stretched, far, if_neg Bool.false_ne_true, fits, Bool.not_true, ← near]
      simp [stays, near]
    | false => simp [Jump.stretched, far, fits]

/-- Every jump at one of the positions is lengthened once. -/
theorem stretch_jumps {range : Range} {bytes : Int} {jumps : Array Jump} {stack indices : List Nat}
    (distinct : indices.Nodup) (index : Nat) :
    (stretch range bytes jumps stack indices).1[index]? =
      if index ∈ indices then jumps[index]?.map (Jump.stretched range bytes)
      else jumps[index]? := by
  induction indices generalizing jumps stack with
  | nil => rw [stretch, if_neg List.not_mem_nil]
  | cons first rest ih =>
    obtain ⟨fresh, distinct⟩ := List.nodup_cons.1 distinct
    cases found : jumps[first]? with
    | none =>
      rw [stretch, found]
      dsimp only
      rw [ih distinct]
      by_cases same : index = first
      · subst same
        rw [if_neg fresh, if_pos List.mem_cons_self, found, Option.map_none]
      · simp only [List.mem_cons, same, false_or]
    | some jump =>
      rw [stretch_cons found, ih distinct]
      by_cases same : index = first
      · subst same
        rw [if_neg fresh, if_pos List.mem_cons_self, found]
        obtain ⟨inside, -⟩ := Array.getElem?_eq_some_iff.1 found
        simp [inside]
      · simp only [List.mem_cons, same, false_or]
        rw [Array.getElem?_setIfInBounds_ne (Ne.symm same)]

theorem size_stretch (range : Range) (bytes : Int) (jumps : Array Jump)
    (stack indices : List Nat) :
    (stretch range bytes jumps stack indices).1.size = jumps.size := by
  fun_induction stretch range bytes jumps stack indices with
  | case1 => rfl
  | case2 jumps stack index rest found ih => exact ih
  | case3 jumps stack index rest jump found far ih => exact ih
  | case4 jumps stack index rest jump found near longer fits ih =>
    rw [ih, Array.size_setIfInBounds]
  | case5 jumps stack index rest jump found near longer fits ih =>
    rw [ih, Array.size_setIfInBounds]

/-- The jump at a position is in range and leaves it when it grows. -/
def leaves (range : Range) (bytes : Int) (jumps : Array Jump) (index : Nat) : Bool :=
  jumps[index]?.any fun jump => !jump.isFar && (jump.stretched range bytes).isFar

/-- The positions of the jumps that leave the range join the stack. -/
theorem stretch_stack {range : Range} {bytes : Int} {jumps : Array Jump} {stack indices : List Nat}
    (distinct : indices.Nodup) :
    (stretch range bytes jumps stack indices).2 =
      (indices.filter (leaves range bytes jumps)).reverse ++ stack := by
  induction indices generalizing jumps stack with
  | nil => rfl
  | cons first rest ih =>
    obtain ⟨fresh, distinct⟩ := List.nodup_cons.1 distinct
    cases found : jumps[first]? with
    | none =>
      have stays : leaves range bytes jumps first = false := by rw [leaves, found]; rfl
      rw [stretch, found, List.filter_cons_of_neg (by rw [stays]; exact Bool.false_ne_true)]
      exact ih distinct
    | some jump =>
      have others : rest.filter (leaves range bytes
          (jumps.setIfInBounds first (jump.stretched range bytes))) =
          rest.filter (leaves range bytes jumps) := by
        refine List.filter_congr fun index inside => ?_
        have different : first ≠ index := fun same => fresh (same ▸ inside)
        rw [leaves, leaves, Array.getElem?_setIfInBounds_ne different]
      rw [stretch_cons found, ih distinct, others]
      by_cases out : jump.isFar = false ∧ (jump.stretched range bytes).isFar = true
      · have goes : leaves range bytes jumps first = true := by simp [leaves, found, out]
        rw [if_pos out, List.filter_cons_of_pos goes, List.reverse_cons, List.append_assoc]
        rfl
      · have stays : ¬ leaves range bytes jumps first = true := by simpa [leaves, found] using out
        rw [if_neg out, List.filter_cons_of_neg stays]

/-! ## What holds while jumps are widened -/

/-- The jumps at some positions. -/
def pick (jumps : List Jump) (indices : List Nat) : List Jump :=
  indices.filterMap (jumps[·]?)

theorem pick_nodup {jumps : List Jump} {indices : List Nat} (distinct : jumps.Nodup)
    (once : indices.Nodup) : (pick jumps indices).Nodup := by
  refine once.filterMap fun i j jump atI atJ => ?_
  have inside := (List.getElem?_eq_some_iff.1 (Option.mem_def.1 atI)).1
  exact (List.getElem?_inj inside distinct).1
    ((Option.mem_def.1 atI).trans (Option.mem_def.1 atJ).symm)

/-- The tree answers which jumps growth at a place lengthens. -/
structure Spans (jumps : List Jump) (spans : IntervalTree Nat Nat) : Prop where
  nodup : ∀ place, (across spans place).Nodup
  mem_iff : ∀ place index, index ∈ across spans place ↔
    ∃ jump, jumps[index]? = some jump ∧ jump.low ≤ place ∧ place ≤ jump.high

/-- The state of widening some jumps, of which those at the positions `done` are
widened and those on the stack are to be.  No position is in it twice, and all that
were out of range from the start are in it. -/
structure Taking (jumps : List Jump) (current : Array Jump) (stack done : List Nat) : Prop where
  size : current.size = jumps.length
  distinct : (stack ++ done).Nodup
  inside : ∀ index ∈ stack ++ done, index < jumps.length
  same : ∀ (index : Nat) (jump now : Jump), jumps[index]? = some jump → current[index]? = some now →
    now.SamePlace jump
  far : ∀ (index : Nat) (now : Jump), current[index]? = some now → (now.isFar = true ↔ index ∈ stack ++ done)
  known : ∀ (index : Nat) (jump : Jump), jumps[index]? = some jump → jump.isFar = true →
    index ∈ stack ++ done

/-- What holds besides: all other jumps are in range of where they are now, and those
on the stack or widened had to be. -/
structure Underway (range : Range) (jumps : List Jump) (current : Array Jump)
    (stack done : List Nat) : Prop extends Taking jumps current stack done where
  near : ∀ (index : Nat) (jump now : Jump), jumps[index]? = some jump → current[index]? = some now →
    now.isFar = false →
      now.distance = jump.among (pick jumps done) ∧ range.contains now.distance = true
  needed : ∀ blocks, Sufficient range jumps blocks → ∀ jump ∈ pick jumps (stack ++ done),
    jump.block ∈ blocks

namespace Jump

theorem among_cons_of_crosses {first jump : Jump} (widened : List Jump)
    (crosses : first.Crosses jump) (now : Jump) (distance : now.distance = jump.among widened) :
    (now.lengthen first.growth).distance = jump.among (first :: widened) := by
  have nonneg := added_nonneg widened jump
  have growth := first.growth_nonneg
  rw [lengthen, among, added_cons, if_pos crosses]
  dsimp only
  rw [distance, among]
  by_cases backward : jump.distance < 0
  · rw [if_pos backward, if_pos backward, if_pos (by omega)]
    omega
  · rw [if_neg backward, if_neg backward, if_neg (by omega)]
    omega

theorem among_cons_of_not_crosses {first jump : Jump} (widened : List Jump)
    (apart : ¬ first.Crosses jump) : jump.among (first :: widened) = jump.among widened := by
  rw [among, among, added_cons, if_neg apart, zero_add]

theorem SamePlace.growth_eq {jump other : Jump} (same : jump.SamePlace other) :
    jump.growth = other.growth := by
  rw [growth, growth, same.2.2.2]

theorem SamePlace.trans {jump other third : Jump} (first : jump.SamePlace other)
    (second : other.SamePlace third) : jump.SamePlace third :=
  ⟨first.1.trans second.1, first.2.1.trans second.2.1, first.2.2.1.trans second.2.2.1,
    first.2.2.2.trans second.2.2.2⟩

theorem stretched_samePlace (range : Range) (bytes : Int) (jump : Jump) :
    (jump.stretched range bytes).SamePlace jump := by
  rw [stretched]
  split <;> exact ⟨rfl, rfl, rfl, rfl⟩

end Jump

theorem pick_cons {jumps : List Jump} {index : Nat} {jump : Jump}
    (found : jumps[index]? = some jump) (indices : List Nat) :
    pick jumps (index :: indices) = jump :: pick jumps indices := by
  rw [pick, List.filterMap_cons_some found, pick]

theorem mem_pick {jumps : List Jump} {indices : List Nat} {jump : Jump} :
    jump ∈ pick jumps indices ↔ ∃ index ∈ indices, jumps[index]? = some jump :=
  List.mem_filterMap

/-- Widened jumps that a sufficient set contains add no more than the set
does. -/
theorem added_pick_le {jumps : List Jump} {indices : List Nat} {blocks : Finset Nat}
    (distinct : jumps.Nodup) (once : indices.Nodup)
    (contained : ∀ jump ∈ pick jumps indices, jump.block ∈ blocks) (jump : Jump) :
    Jump.added (pick jumps indices) jump ≤
      Jump.added (jumps.filter (·.block ∈ blocks)) jump := by
  refine Jump.added_le_of_subperm ((pick_nodup distinct once).subperm fun other member => ?_) jump
  obtain ⟨index, -, found⟩ := mem_pick.1 member
  exact List.mem_filter.2 ⟨List.mem_of_getElem? found, decide_eq_true (contained other member)⟩

section

variable {range : Range} {jumps : List Jump} {spans : IntervalTree Nat Nat}
  {current : Array Jump} {stack rest done : List Nat} {index : Nat} {jump : Jump}

namespace Taking

theorem perm {stack' : List Nat} (taking : Taking jumps current stack done)
    (order : stack.Perm stack') : Taking jumps current stack' done where
  size := taking.size
  distinct := (order.append_right done).nodup_iff.1 taking.distinct
  inside i member := taking.inside i ((order.append_right done).mem_iff.2 member)
  same := taking.same
  far i now found := (taking.far i now found).trans (order.append_right done).mem_iff
  known i jump there far := (order.append_right done).mem_iff.1 (taking.known i jump there far)

theorem exists_jump (taking : Taking jumps current stack done)
    (found : current[index]? = some jump) : ∃ old, jumps[index]? = some old := by
  have inside := (Array.getElem?_eq_some_iff.1 found).1
  rw [taking.size] at inside
  exact ⟨jumps[index], List.getElem?_eq_getElem inside⟩

end Taking

theorem mem_leaving_iff {bytes : Int} {crossed : List Nat} {i : Nat} {now : Jump}
    (found : current[i]? = some now) :
    i ∈ crossed.filter (leaves range bytes current) ↔
      i ∈ crossed ∧ now.isFar = false ∧ (now.stretched range bytes).isFar = true := by
  rw [List.mem_filter, leaves, found, Option.any_some, Bool.and_eq_true_iff, Bool.not_eq_true']

theorem exists_of_mem_leaving {bytes : Int} {crossed : List Nat} {i : Nat}
    (leaving : i ∈ crossed.filter (leaves range bytes current)) :
    ∃ now, current[i]? = some now ∧ now.isFar = false ∧ (now.stretched range bytes).isFar = true := by
  obtain ⟨now, found, -⟩ := (Option.any_eq_true ..).1 (List.mem_filter.1 leaving).2
  exact ⟨now, found, ((mem_leaving_iff found).1 leaving).2⟩

/-- The positions known to be out of range are the old ones and those that leave the
range now. -/
theorem mem_taken_iff (leaving : List Nat) (i : Nat) :
    i ∈ leaving.reverse ++ rest ++ index :: done ↔ i ∈ leaving ∨ i ∈ index :: rest ++ done := by
  simp only [List.mem_append, List.mem_reverse, List.mem_cons]
  tauto

/-- Taking the jump on top of the stack keeps the positions apart. -/
theorem Taking.step (spansOf : Spans jumps spans)
    (taking : Taking jumps current (index :: rest) done) (bytes : Int) (place : Nat) :
    Taking jumps (stretch range bytes current rest (across spans place)).1
      (stretch range bytes current rest (across spans place)).2 (index :: done) := by
  have nodup := spansOf.nodup place
  have wasNear : ∀ i ∈ (across spans place).filter (leaves range bytes current),
      i ∉ index :: rest ++ done := by
    intro i leaving known
    obtain ⟨now, there, near, -⟩ := exists_of_mem_leaving leaving
    rw [(taking.far i now there).2 known] at near
    cases near
  rw [stretch_stack nodup]
  constructor
  case size => rw [size_stretch, taking.size]
  case distinct =>
    have moved : (((across spans place).filter (leaves range bytes current)).reverse ++ rest ++
        index :: done).Perm
        ((across spans place).filter (leaves range bytes current) ++ (index :: rest ++ done)) := by
      rw [List.append_assoc, List.cons_append]
      exact (List.reverse_perm _).append List.perm_middle
    refine moved.nodup_iff.2 (List.nodup_append.2 ⟨nodup.filter _, taking.distinct, ?_⟩)
    rintro i leaving _ known rfl
    exact wasNear i leaving known
  case inside =>
    intro i member
    rcases (mem_taken_iff _ i).1 member with leaving | known
    · obtain ⟨other, there, -⟩ := (spansOf.mem_iff _ i).1 (List.mem_filter.1 leaving).1
      exact (List.getElem?_eq_some_iff.1 there).1
    · exact taking.inside i known
  case same =>
    intro i other now there after
    rw [stretch_jumps nodup] at after
    split at after
    · obtain ⟨before, atBefore, rfl⟩ := Option.map_eq_some_iff.1 after
      have moved := before.stretched_samePlace range bytes
      exact moved.trans (taking.same i other before there atBefore)
    · exact taking.same i other now there after
  case far =>
    intro i now after
    rw [mem_taken_iff]
    rw [stretch_jumps nodup] at after
    split at after
    · next crossed =>
      obtain ⟨before, atBefore, rfl⟩ := Option.map_eq_some_iff.1 after
      rw [mem_leaving_iff atBefore, ← taking.far i before atBefore]
      cases wasFar : before.isFar with
      | true => simp [Jump.stretched, wasFar]
      | false => simp [crossed]
    · next apart =>
      rw [taking.far i now after, List.mem_filter]
      simp [apart]
  case known =>
    intro i jump there far
    exact (mem_taken_iff _ i).2 (.inr (taking.known i jump there far))

namespace Underway

theorem perm {stack' : List Nat} (underway : Underway range jumps current stack done)
    (order : stack.Perm stack') : Underway range jumps current stack' done where
  toTaking := underway.toTaking.perm order
  near := underway.near
  needed blocks sufficient other member := by
    refine underway.needed blocks sufficient other ?_
    exact ((order.append_right done).filterMap _).mem_iff.2 member

/-- A jump that stays in range has grown exactly if it was crossed. -/
theorem near_stretched {old jump now : Jump} {widened : List Jump} (crosses : old.Crosses jump)
    (distance : now.distance = jump.among widened) (wasNear : now.isFar = false)
    (isNear : (now.stretched range old.growth).isFar = false) :
    (now.stretched range old.growth).distance = jump.among (old :: widened) ∧
      range.contains (now.stretched range old.growth).distance = true := by
  rw [Jump.stretched, wasNear, if_neg Bool.false_ne_true] at isNear ⊢
  exact ⟨Jump.among_cons_of_crosses widened crosses now distance, by simpa using isNear⟩

/-- A jump that leaves the range would be out of it with just the jumps widened
so far, so no sufficient set can do without it. -/
theorem mem_of_leaves {old jump now : Jump} {blocks : Finset Nat} (around : range.Around)
    (unique : jumps.Nodup) (once : (index :: done).Nodup) (found : jumps[index]? = some old)
    (sufficient : Sufficient range jumps blocks)
    (contained : ∀ other ∈ pick jumps (index :: done), other.block ∈ blocks)
    (member : jump ∈ jumps) (crosses : old.Crosses jump)
    (distance : now.distance = jump.among (pick jumps done)) (wasNear : now.isFar = false)
    (leaves : (now.stretched range old.growth).isFar = true) : jump.block ∈ blocks := by
  by_contra outside
  have fits := Jump.contains_among_of_le around (added_pick_le unique once contained jump)
    (sufficient jump member outside)
  rw [pick_cons found, ← Jump.among_cons_of_crosses _ crosses now distance] at fits
  rw [Jump.stretched, wasNear, if_neg Bool.false_ne_true] at leaves
  simp [fits] at leaves

/-- Widening the jump on top of the stack keeps the invariant. -/
theorem step (spansOf : Spans jumps spans) (around : range.Around) (unique : jumps.Nodup)
    (underway : Underway range jumps current (index :: rest) done)
    (found : current[index]? = some jump) :
    Underway range jumps
      (stretch range jump.growth current rest (across spans jump.origin)).1
      (stretch range jump.growth current rest (across spans jump.origin)).2 (index :: done) := by
  obtain ⟨old, start⟩ := underway.exists_jump found
  have place := underway.same index old jump start found
  have nodup := spansOf.nodup jump.origin
  have crossing : ∀ {i other}, jumps[i]? = some other →
      (i ∈ across spans jump.origin ↔ old.Crosses other) := by
    intro i other there
    rw [spansOf.mem_iff, there, place.2.1]
    exact ⟨fun ⟨_, same, low, high⟩ => Option.some.inj same ▸ ⟨low, high⟩,
      fun crosses => ⟨other, rfl, crosses⟩⟩
  refine ⟨underway.toTaking.step spansOf jump.growth jump.origin, ?near, ?needed⟩
  case near =>
    intro i other now there after isNear
    rw [pick_cons start]
    rw [stretch_jumps nodup] at after
    split at after
    · next crossed =>
      obtain ⟨before, atBefore, rfl⟩ := Option.map_eq_some_iff.1 after
      have beforeNear : before.isFar = false := by
        cases wasFar : before.isFar with
        | true => simp [Jump.stretched, wasFar] at isNear
        | false => rfl
      obtain ⟨distance, -⟩ := underway.near i other before there atBefore beforeNear
      rw [place.growth_eq] at isNear ⊢
      exact near_stretched ((crossing there).1 crossed) distance beforeNear isNear
    · next apart =>
      rw [Jump.among_cons_of_not_crosses _ (mt (crossing there).2 apart)]
      exact underway.near i other now there after isNear
  case needed =>
    intro blocks sufficient other member
    rw [stretch_stack nodup] at member
    obtain ⟨i, known, there⟩ := mem_pick.1 member
    have contained : ∀ other ∈ pick jumps (index :: rest ++ done), other.block ∈ blocks :=
      underway.needed blocks sufficient
    rcases (mem_taken_iff _ i).1 known with leaving | known
    · obtain ⟨crossed, -⟩ := List.mem_filter.1 leaving
      obtain ⟨now, atNow, isNear, leavesNow⟩ := exists_of_mem_leaving leaving
      obtain ⟨distance, -⟩ := underway.near i other now there atNow isNear
      rw [place.growth_eq] at leavesNow
      have once : (index :: done).Nodup :=
        underway.distinct.sublist ((List.sublist_append_right rest done).cons_cons index)
      refine mem_of_leaves around unique once start sufficient (fun widened picked => ?_)
        (List.mem_of_getElem? there) ((crossing there).1 crossed) distance isNear leavesNow
      obtain ⟨k, inside, found⟩ := mem_pick.1 picked
      refine contained widened (mem_pick.2 ⟨k, ?_, found⟩)
      simp only [List.mem_append, List.mem_cons] at inside ⊢
      tauto
    · exact contained other (mem_pick.2 ⟨i, known, there⟩)

end Underway

end

/-! ## Where jumps come from -/

/-- Every jump started out as one of some jumps, and has only become longer. -/
def Origins (jumps : List Jump) (current : Array Jump) : Prop :=
  ∀ jump ∈ current, ∃ old ∈ jumps, jump.SamePlace old

section

variable {range : Range} {bytes : Int} {jumps : List Jump} {current : Array Jump}
  {stack indices : List Nat}

theorem Origins.set (origins : Origins jumps current) {index : Nat} {jump now : Jump}
    (found : current[index]? = some jump) (same : now.SamePlace jump) :
    Origins jumps (current.setIfInBounds index now) := by
  intro other member
  obtain ⟨place, there⟩ := Array.mem_iff_getElem?.1 member
  by_cases here : index = place
  · subst here
    rw [Array.getElem?_setIfInBounds_self_of_lt (Array.getElem?_eq_some_iff.1 found).1] at there
    obtain rfl := Option.some.inj there
    obtain ⟨old, known, kept⟩ := origins jump (Array.mem_of_getElem? found)
    exact ⟨old, known, same.trans kept⟩
  · rw [Array.getElem?_setIfInBounds_ne here] at there
    exact origins other (Array.mem_of_getElem? there)

theorem Origins.stretch (origins : Origins jumps current) :
    Origins jumps (stretch range bytes current stack indices).1 := by
  fun_induction Widening.stretch range bytes current stack indices with
  | case1 => exact origins
  | case2 current stack index rest missing ih => exact ih origins
  | case3 current stack index rest jump found far ih => exact ih origins
  | case4 current stack index rest jump found near longer fits ih =>
    exact ih (origins.set found ⟨rfl, rfl, rfl, rfl⟩)
  | case5 current stack index rest jump found near longer leaves ih =>
    exact ih (origins.set found ⟨rfl, rfl, rfl, rfl⟩)

theorem Origins.settle (origins : Origins jumps current) (spans : IntervalTree Nat Nat)
    {widened : Array Jump} (known : Origins jumps widened) :
    Origins jumps (settle range spans current widened stack) := by
  fun_induction Widening.settle range spans current widened stack with
  | case1 current widened => exact known
  | case2 current widened index stack missing ih => exact ih origins known
  | case3 current widened index stack jump found following ih =>
    refine ih origins.stretch fun other member => ?_
    rcases Array.mem_push.1 member with before | rfl
    · exact known other before
    · exact origins _ (Array.mem_of_getElem? found)

end

/-! ## Widening in any order -/

/-- The jumps on a stack are widened, and all that follow from them, one after
the other and whichever is taken next. -/
inductive Settling (range : Range) (spans : IntervalTree Nat Nat) :
    Array Jump → List Nat → List Jump → Prop
  | done (current : Array Jump) : Settling range spans current [] []
  | take {current : Array Jump} {stack rest : List Nat} {index : Nat} {jump : Jump}
      {widened : List Jump} (order : stack.Perm (index :: rest))
      (found : current[index]? = some jump)
      (after : Settling range spans
        (stretch range jump.growth current rest (across spans jump.origin)).1
        (stretch range jump.growth current rest (across spans jump.origin)).2 widened) :
      Settling range spans current stack (jump :: widened)

section

variable {range : Range} {jumps : List Jump} {spans : IntervalTree Nat Nat}
  {current : Array Jump} {stack done : List Nat}

/-- Taking the jumps from the top of the stack is one of the orders. -/
theorem settle_settling (spansOf : Spans jumps spans) (taking : Taking jumps current stack done)
    (widened : Array Jump) :
    ∃ more, (settle range spans current widened stack).toList = widened.toList ++ more ∧
      Settling range spans current stack more := by
  fun_induction settle range spans current widened stack generalizing done with
  | case1 current widened => exact ⟨[], (List.append_nil _).symm, .done current⟩
  | case2 current widened index stack missing ih =>
    have inside := taking.inside index (List.mem_append_left _ List.mem_cons_self)
    rw [← taking.size] at inside
    rw [Array.getElem?_eq_getElem inside] at missing
    cases missing
  | case3 current widened index stack jump found following =>
    rename_i ih
    obtain ⟨more, same, settling⟩ := ih (taking.step spansOf jump.growth jump.origin)
    refine ⟨jump :: more, ?_, .take (List.Perm.refl _) found settling⟩
    rw [same, Array.toList_push, List.append_assoc]
    rfl

/-- What every jump that is taken keeps holds at the end, when the widened jumps are those
at the positions that were done. -/
theorem Settling.run {keeps : Array Jump → List Nat → List Nat → Prop} {widened : List Jump}
    (taking : ∀ {current stack done}, keeps current stack done → Taking jumps current stack done)
    (reorder : ∀ {current stack stack' done}, keeps current stack done → stack.Perm stack' →
      keeps current stack' done)
    (step : ∀ {current index rest done jump}, keeps current (index :: rest) done →
      current[index]? = some jump →
        keeps (stretch range jump.growth current rest (across spans jump.origin)).1
          (stretch range jump.growth current rest (across spans jump.origin)).2 (index :: done))
    (settling : Settling range spans current stack widened) (start : keeps current stack done) :
    ∃ last final, keeps last [] final ∧
      ((pick jumps final).map Jump.block).Perm
        (widened.map Jump.block ++ (pick jumps done).map Jump.block) := by
  induction settling generalizing done with
  | done current => exact ⟨current, done, start, List.Perm.refl _⟩
  | take order found after ih =>
    have reordered := reorder start order
    obtain ⟨old, there⟩ := (taking reordered).exists_jump found
    have same := ((taking reordered).same _ old _ there found).1
    obtain ⟨last, final, kept, perm⟩ := ih (step reordered found)
    refine ⟨last, final, kept, perm.trans ?_⟩
    rw [pick_cons there, List.map_cons, List.map_cons, same]
    exact List.perm_middle

theorem Settling.underway {widened : List Jump} (spansOf : Spans jumps spans)
    (around : range.Around) (unique : jumps.Nodup)
    (settling : Settling range spans current stack widened)
    (start : Underway range jumps current stack done) :
    ∃ last final, Underway range jumps last [] final ∧
      ((pick jumps final).map Jump.block).Perm
        (widened.map Jump.block ++ (pick jumps done).map Jump.block) :=
  settling.run (·.toTaking) (·.perm) (fun kept found => kept.step spansOf around unique found) start

theorem pick_range (jumps : List Jump) : pick jumps (List.range jumps.length) = jumps := by
  induction jumps with
  | nil => rfl
  | cons jump jumps ih =>
    have first : (jump :: jumps)[0]? = some jump := rfl
    rw [List.length_cons, List.range_succ_eq_map, pick_cons first, pick, List.filterMap_map]
    exact congrArg _ ih

theorem pick_subperm (jumps : List Jump) {indices others : List Nat} (contained : indices.Subperm others) :
    ((pick jumps indices).map Jump.block).Subperm ((pick jumps others).map Jump.block) := by
  obtain ⟨same, perm, sublist⟩ := contained
  exact ⟨_, (perm.filterMap _).map Jump.block, (sublist.filterMap _).map Jump.block⟩

/-- Different positions are not of more jumps than there are. -/
theorem pick_map_subperm {indices : List Nat} (once : indices.Nodup)
    (inside : ∀ index ∈ indices, index < jumps.length) :
    ((pick jumps indices).map Jump.block).Subperm (jumps.map Jump.block) := by
  have contained : indices.Subperm (List.range jumps.length) :=
    once.subperm fun index member => List.mem_range.2 (inside index member)
  have spread := pick_subperm jumps contained
  rwa [pick_range] at spread

/-- No jump is widened more often than it is there. -/
theorem Settling.subperm {widened : List Jump} (spansOf : Spans jumps spans)
    (settling : Settling range spans current stack widened)
    (start : Taking jumps current stack []) :
    (widened.map Jump.block).Subperm (jumps.map Jump.block) := by
  obtain ⟨last, final, taking, perm⟩ := settling.run id (·.perm)
    (fun kept _ => kept.step spansOf _ _) start
  rw [show pick jumps [] = [] from rfl, List.map_nil, List.append_nil] at perm
  exact perm.symm.subperm.trans (pick_map_subperm taking.distinct taking.inside)

theorem eq_of_block_eq (unique : (jumps.map Jump.block).Nodup) {jump other : Jump}
    (member : jump ∈ jumps) (otherMember : other ∈ jumps) (same : jump.block = other.block) :
    jump = other :=
  List.inj_on_of_nodup_map unique member otherMember same

/-- Once nothing is left to widen, the blocks of the widened jumps are the least
sufficient set. -/
theorem Underway.isLeast (unique : (jumps.map Jump.block).Nodup)
    (underway : Underway range jumps current [] done) :
    IsLeast {far : Finset Nat | Sufficient range jumps far}
      ((pick jumps done).map Jump.block).toFinset := by
  have distinct : jumps.Nodup := unique.of_map _
  constructor
  · intro jump member outside
    rw [List.mem_toFinset, List.mem_map] at outside
    obtain ⟨index, there⟩ := List.mem_iff_getElem?.1 member
    have inside : index < current.size := by
      rw [underway.size]
      exact (List.getElem?_eq_some_iff.1 there).1
    have atNow : current[index]? = some current[index] := Array.getElem?_eq_getElem inside
    have near : current[index].isFar = false := by
      cases isFar : current[index].isFar with
      | false => rfl
      | true =>
        have known := (underway.far index _ atNow).1 isFar
        exact absurd ⟨jump, mem_pick.2 ⟨index, known, there⟩, rfl⟩ outside
    obtain ⟨distance, fits⟩ := underway.near index jump _ there atNow near
    have same : (jumps.filter (·.block ∈ ((pick jumps done).map Jump.block).toFinset)).Perm
        (pick jumps done) := by
      refine (List.perm_ext_iff_of_nodup (distinct.filter _)
        (pick_nodup distinct underway.distinct)).2 fun other => ?_
      rw [List.mem_filter, decide_eq_true_iff, List.mem_toFinset, List.mem_map]
      constructor
      · rintro ⟨otherMember, picked, isPicked, sameBlock⟩
        obtain ⟨_, -, atPicked⟩ := mem_pick.1 isPicked
        rwa [← eq_of_block_eq unique (List.mem_of_getElem? atPicked) otherMember sameBlock]
      · intro isPicked
        obtain ⟨_, -, atPicked⟩ := mem_pick.1 isPicked
        exact ⟨List.mem_of_getElem? atPicked, other, isPicked, rfl⟩
    rw [Jump.among, Jump.added_perm same, ← Jump.among, ← distance]
    exact fits
  · intro blocks sufficient block member
    obtain ⟨jump, picked, rfl⟩ := List.mem_map.1 (List.mem_toFinset.1 member)
    exact underway.needed blocks sufficient jump picked

/-- The positions of the jumps that are out of range before any is widened. -/
def farFrom (jumps : List Jump) : List Nat :=
  jumps.zipIdx.filterMap fun (jump, index) => if jump.isFar then some index else none

theorem farFrom_eq (jumps : List Jump) :
    farFrom jumps = (jumps.zipIdx.filter (·.1.isFar)).map Prod.snd := by
  rw [farFrom]
  induction jumps.zipIdx with
  | nil => rfl
  | cons pair rest ih =>
    obtain ⟨jump, index⟩ := pair
    cases far : jump.isFar with
    | true => simp [far, ih]
    | false => simp [far, ih]

theorem mem_farFrom {index : Nat} :
    index ∈ farFrom jumps ↔ ∃ jump, jumps[index]? = some jump ∧ jump.isFar = true := by
  rw [farFrom_eq, List.mem_map]
  constructor
  · rintro ⟨⟨jump, position⟩, member, rfl⟩
    obtain ⟨inside, far⟩ := List.mem_filter.1 member
    exact ⟨jump, List.mk_mem_zipIdx_iff_getElem?.1 inside, far⟩
  · rintro ⟨jump, there, far⟩
    exact ⟨(jump, index), List.mem_filter.2 ⟨List.mk_mem_zipIdx_iff_getElem?.2 there, far⟩, rfl⟩

theorem farFrom_nodup (jumps : List Jump) : (farFrom jumps).Nodup := by
  rw [farFrom_eq]
  have indices : (jumps.zipIdx.map Prod.snd).Nodup := by
    rw [List.zipIdx_map_snd]
    exact List.nodup_range'
  exact indices.sublist (List.filter_sublist.map Prod.snd)

/-- Before anything is widened, the jumps on the stack are those out of range. -/
theorem Taking.start (order : stack.Perm (farFrom jumps)) : Taking jumps jumps.toArray stack [] where
  size := List.size_toArray
  distinct := by
    rw [List.append_nil]
    exact order.nodup_iff.2 (farFrom_nodup jumps)
  inside index member := by
    rw [List.append_nil, order.mem_iff, mem_farFrom] at member
    obtain ⟨jump, there, -⟩ := member
    exact (List.getElem?_eq_some_iff.1 there).1
  same index jump now there atNow := by
    rw [List.getElem?_toArray, there] at atNow
    obtain rfl := Option.some.inj atNow
    exact ⟨rfl, rfl, rfl, rfl⟩
  far index now atNow := by
    rw [List.getElem?_toArray] at atNow
    rw [List.append_nil, order.mem_iff, mem_farFrom, atNow]
    exact ⟨fun far => ⟨now, rfl, far⟩, fun ⟨_, same, far⟩ => Option.some.inj same ▸ far⟩
  known index jump there far := by
    rw [List.append_nil, order.mem_iff, mem_farFrom]
    exact ⟨jump, there, far⟩

theorem pick_farFrom (jumps : List Jump) :
    pick jumps (farFrom jumps) = jumps.filter (·.isFar) := by
  have found : ∀ pair ∈ jumps.zipIdx.filter (·.1.isFar),
      ((jumps[·]?) ∘ Prod.snd) pair = some pair.1 := fun pair member =>
    List.mk_mem_zipIdx_iff_getElem?.1 (List.mem_filter.1 member).1
  rw [pick, farFrom_eq, List.filterMap_map, List.filterMap_congr found,
    ← Function.comp_def some Prod.fst, List.filterMap_eq_map]
  refine (List.filter_map (f := Prod.fst) (p := Jump.isFar) (l := jumps.zipIdx)).symm.trans ?_
  rw [List.zipIdx_map_fst]

/-- Every jump that is out of range from the start is widened. -/
theorem Settling.far_subperm {widened : List Jump} (spansOf : Spans jumps spans)
    (order : stack.Perm (farFrom jumps))
    (settling : Settling range spans jumps.toArray stack widened) :
    ((jumps.filter (·.isFar)).map Jump.block).Subperm (widened.map Jump.block) := by
  obtain ⟨last, final, taking, perm⟩ := settling.run id (·.perm)
    (fun kept _ => kept.step spansOf _ _) (.start order)
  rw [show pick jumps [] = [] from rfl, List.map_nil, List.append_nil] at perm
  have all : (farFrom jumps).Subperm final := (farFrom_nodup jumps).subperm fun index far => by
    obtain ⟨jump, there, isFar⟩ := mem_farFrom.1 far
    exact taking.known index jump there isFar
  rw [← pick_farFrom]
  exact (pick_subperm jumps all).trans perm.subperm

theorem Underway.start (around : range.Around)
    (flagged : ∀ jump ∈ jumps, jump.isFar = !range.contains jump.distance)
    (order : stack.Perm (farFrom jumps)) :
    Underway range jumps jumps.toArray stack [] where
  toTaking := .start order
  near index jump now there atNow isNear := by
    rw [List.getElem?_toArray, there] at atNow
    obtain rfl := Option.some.inj atNow
    have fits := flagged jump (List.mem_of_getElem? there)
    rw [isNear] at fits
    have distance : jump.distance = jump.among [] := by
      rw [Jump.among, Jump.added_nil, sub_zero, add_zero, ite_self]
    exact ⟨distance, by simpa using fits⟩
  needed blocks sufficient jump member := by
    rw [List.append_nil] at member
    obtain ⟨index, known, there⟩ := mem_pick.1 member
    rw [order.mem_iff, mem_farFrom, there] at known
    obtain ⟨_, same, far⟩ := known
    obtain rfl := Option.some.inj same
    by_contra outside
    have inJumps := List.mem_of_getElem? there
    have fewer : ∀ others, Jump.added [] jump ≤ Jump.added others jump := by
      intro others
      rw [Jump.added_nil]
      exact Jump.added_nonneg others jump
    have fits := Jump.contains_among_of_le around (fewer _) (sufficient jump inJumps outside)
    rw [Jump.among, Jump.added_nil, sub_zero, add_zero, ite_self] at fits
    rw [flagged jump inJumps, fits] at far
    cases far

/-- In whatever order jumps are widened, the blocks of the widened ones are the
least sufficient set, and each is widened once. -/
theorem Settling.isLeast {widened : List Jump} (spansOf : Spans jumps spans)
    (around : range.Around) (unique : (jumps.map Jump.block).Nodup)
    (flagged : ∀ jump ∈ jumps, jump.isFar = !range.contains jump.distance)
    (order : stack.Perm (farFrom jumps))
    (settling : Settling range spans jumps.toArray stack widened) :
    IsLeast {far : Finset Nat | Sufficient range jumps far}
        (widened.map Jump.block).toFinset ∧
      (widened.map Jump.block).Nodup := by
  have distinct : jumps.Nodup := unique.of_map _
  have start := Underway.start around flagged order
  obtain ⟨last, final, underway, perm⟩ := settling.underway spansOf around distinct start
  have least := underway.isLeast unique
  have nothing : pick jumps [] = [] := rfl
  rw [nothing, List.map_nil, List.append_nil] at perm
  rw [List.toFinset_eq_of_perm _ _ perm] at least
  refine ⟨least, perm.nodup_iff.1 ?_⟩
  refine (pick_nodup distinct underway.distinct).map_on fun jump picked other otherPicked same => ?_
  obtain ⟨_, -, atJump⟩ := mem_pick.1 picked
  obtain ⟨_, -, atOther⟩ := mem_pick.1 otherPicked
  exact eq_of_block_eq unique (List.mem_of_getElem? atJump) (List.mem_of_getElem? atOther) same

end

end Widening
end ClassFile
