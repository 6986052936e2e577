import ClassFile.Proofs.Code.ExactLimits
import ClassFile.Proofs.Code.FrameBlind
import ClassFile.Proofs.Graph.Halving

namespace ClassFile
namespace Limits

/-!
# The limits of a cut block

A walk that comes to the first half of a block goes on to the second half at once, at the
height that the first half left.  The handlers of the block are found twice then, but they
wait behind each other, and a block that comes up again is passed over.  So the walk of a
graph goes through the same heights when one of its blocks is cut in two.
-/

section

variable {graph : FlowGraph} {pool : Pool} {heights : Array (Option Nat)} {peak block height : Nat}
  {waiting : List Entry} {code : CodeBlock}

/-! ## Blocks that come up again -/

/-- A block that is passed over: it was taken up before, or it is not there. -/
def Passed (graph : FlowGraph) (heights : Array (Option Nat)) (block : Nat) : Prop :=
  heights[block]? = some none → graph.blocks[block]? = none

theorem walk_passed (passed : Passed graph heights block) :
    walk graph pool heights peak ((block, height) :: waiting) =
      walk graph pool heights peak waiting := by
  rw [walk]
  split
  · next fresh there => cases there.symm.trans (passed fresh)
  · rfl

/-- A block that was not taken up before is left, and what it leads to waits. -/
theorem walk_taken (fresh : heights[block]? = some none) (there : graph.blocks[block]? = some code) :
    walk graph pool heights peak ((block, height) :: waiting) =
      leave graph pool block height code >>= fun left =>
        walk graph pool (heights.setIfInBounds block (some height)) (max peak left.1)
          (left.2.reverse ++ waiting) := by
  rw [walk]
  split
  · next fresh' there' =>
    obtain rfl := Option.some.inj (there.symm.trans there')
    rfl
  · next other => exact (other code fresh there).elim

theorem passed_set (inside : block < heights.size) (height : Nat) :
    Passed graph (heights.setIfInBounds block (some height)) block := by
  intro fresh
  rw [Array.getElem?_setIfInBounds_self_of_lt inside] at fresh
  cases fresh

theorem Passed.set {other : Nat} (passed : Passed graph heights other) (block height : Nat) :
    Passed graph (heights.setIfInBounds block (some height)) other := by
  intro fresh
  rw [Array.getElem?_setIfInBounds] at fresh
  split at fresh
  · split at fresh <;> cases fresh
  · exact passed fresh

/-- What waits behind an entry of the same block makes no difference. -/
theorem walk_behind {front back : List Entry} {entry : Entry}
    (later : Passed graph heights entry.1 ∨ entry.1 ∈ front.map Prod.fst) :
    walk graph pool heights peak (front ++ entry :: back) =
      walk graph pool heights peak (front ++ back) := by
  generalize whole : front ++ back = waiting
  fun_induction walk graph pool heights peak waiting generalizing front with
  | case1 heights peak =>
    obtain ⟨rfl, rfl⟩ := List.append_eq_nil_iff.1 whole
    rw [List.nil_append, walk_passed (later.resolve_right List.not_mem_nil), walk]
  | case2 heights peak block height waiting code fresh there ih =>
    have inside := (Array.getElem?_eq_some_iff.1 fresh).1
    cases front with
    | nil =>
      rw [List.nil_append] at whole ⊢
      rw [walk_passed (later.resolve_right List.not_mem_nil), whole, walk_taken fresh there]
    | cons first front =>
      obtain ⟨rfl, rfl⟩ := List.cons_eq_cons.1 whole
      rw [List.cons_append, walk_taken fresh there]
      refine bind_congr fun left => ?_
      rw [← List.append_assoc, ih left.1 left.2 ?_ (List.append_assoc ..)]
      rcases later with passed | member
      · exact .inl (passed.set block height)
      · rcases List.mem_cons.1 member with same | behind
        · rw [same]
          exact .inl (passed_set inside height)
        · rw [List.map_append, List.mem_append]
          exact .inr (.inr behind)
  | case3 heights peak block height waiting other ih =>
    have passed : Passed graph heights block := by
      intro fresh
      cases there : graph.blocks[block]? with
      | none => rfl
      | some code => exact (other code fresh there).elim
    cases front with
    | nil =>
      rw [List.nil_append] at whole ⊢
      rw [walk_passed (later.resolve_right List.not_mem_nil), whole, walk_passed passed]
    | cons first front =>
      obtain ⟨rfl, rfl⟩ := List.cons_eq_cons.1 whole
      rw [List.cons_append, walk_passed passed]
      refine ih ?_ rfl
      rcases later with known | member
      · exact .inl known
      · rcases List.mem_cons.1 member with same | behind
        · exact .inl (same ▸ passed)
        · exact .inr behind

/-- Neither do more entries of blocks that are found before. -/
theorem walk_twice {front more back : List Entry}
    (found : ∀ entry ∈ more, entry.1 ∈ front.map Prod.fst) :
    walk graph pool heights peak (front ++ (more ++ back)) =
      walk graph pool heights peak (front ++ back) := by
  induction more with
  | nil => rfl
  | cons entry more ih =>
    rw [List.forall_mem_cons] at found
    rw [List.cons_append, walk_behind (.inr found.1), ih found.2]

/-! ## Levels -/

theorem foldl_max_eq (heights : List Nat) (peak : Nat) :
    heights.foldl max peak = max peak (heights.foldl max 0) := by
  have split := @List.foldl_assoc _ max _ heights peak 0
  rwa [Nat.max_zero] at split

/-- A level that was higher before stays as high. -/
theorem foldlM_step_max (instructions : List Instruction) (low height peak : Nat) :
    instructions.foldlM (Level.step pool) ⟨height, max low peak⟩ =
      (fun level : Level => ⟨level.height, max low level.peak⟩) <$>
        instructions.foldlM (Level.step pool) ⟨height, peak⟩ := by
  induction instructions generalizing height peak with
  | nil => rfl
  | cons instruction instructions ih =>
    have step : Level.step pool ⟨height, max low peak⟩ instruction =
        (fun level : Level => ⟨level.height, max low level.peak⟩) <$>
          Level.step pool ⟨height, peak⟩ instruction := by
      unfold Level.step
      cases instruction.stackEffect pool with
      | error fault => rfl
      | ok effect =>
        change (if _ then _ else _) = _ <$> (if _ then _ else _)
        dsimp only
        split
        · rw [Nat.max_assoc]
          rfl
        · rfl
    rw [List.foldlM_cons, List.foldlM_cons, step]
    cases Level.step pool ⟨height, peak⟩ instruction with
    | error fault => rfl
    | ok level => exact ih level.height level.peak

theorem height_le_peak {instructions : List Instruction} {level last : Level}
    (start : level.height ≤ level.peak)
    (run : instructions.foldlM (Level.step pool) level = .ok last) : last.height ≤ last.peak := by
  refine @foldlM_preserves _ _ _ (fun level : Level => level.height ≤ level.peak) _ _ ?_ _ _ start run
  rintro instruction - before after - stepped
  obtain ⟨effect, -, -, rfl⟩ := Level.step_eq_ok stepped
  exact Nat.le_max_right _ _

/-- Instructions do not depend on how high the stack was before. -/
theorem foldlM_step_from {level : Level} (below : level.height ≤ level.peak)
    (instructions : List Instruction) :
    instructions.foldlM (Level.step pool) level =
      (fun last : Level => ⟨last.height, max level.peak last.peak⟩) <$>
        instructions.foldlM (Level.step pool) (.ofHeight level.height) := by
  rw [Level.ofHeight, ← foldlM_step_max, Nat.max_eq_left below]

/-- Some instructions and then some more, which start at a level of their own. -/
theorem foldlM_step_append {head tail : List Instruction} {last : Level} :
    (head ++ tail).foldlM (Level.step pool) (.ofHeight height) = .ok last ↔
      ∃ middle onward, head.foldlM (Level.step pool) (.ofHeight height) = .ok middle ∧
        tail.foldlM (Level.step pool) (.ofHeight middle.height) = .ok onward ∧
          middle.height ≤ middle.peak ∧ last = ⟨onward.height, max middle.peak onward.peak⟩ := by
  rw [foldlM_append_eq_ok]
  refine exists_congr fun middle => ?_
  constructor
  · rintro ⟨front, back⟩
    have below := height_le_peak (Nat.le_refl _) front
    rw [foldlM_step_from below, map_eq_ok] at back
    obtain ⟨onward, back, rfl⟩ := back
    exact ⟨onward, front, back, below, rfl⟩
  · rintro ⟨onward, front, back, below, rfl⟩
    refine ⟨front, ?_⟩
    rw [foldlM_step_from below, map_eq_ok]
    exact ⟨onward, back, rfl⟩

theorem leave_eq_ok_iff {reached : Nat} {next : List Entry} :
    leave graph pool block height code = .ok (reached, next) ↔
      ∃ level, code.instructions.toList.foldlM (Level.step pool) (.ofHeight height) = .ok level ∧
        code.branch.pops ≤ level.height ∧ reached = (next.map Prod.snd).foldl max level.peak ∧
        next = ((graph.handlersOf block).map fun handler => (handler.entry, 1)) ++
          exits (level.height - code.branch.pops) code.branch := by
  refine ⟨leave_eq_ok, ?_⟩
  rintro ⟨level, walked, enough, rfl, rfl⟩
  exact bind_eq_ok.2 ⟨level, walked, bind_eq_ok.2 ⟨_, if_pos enough, rfl⟩⟩

end

/-! ## Two halves -/

open FlowGraph (past CutInTwo firstHalf secondHalf past_le_past past_lt_past past_inj past_ne
  past_of_le)

/-- An entry of a block that got another number. -/
def Entry.renumber (cut : Nat) (entry : Entry) : Entry :=
  (past cut entry.1, entry.2)

section

variable {cut : Nat} {cutCode : CodeBlock} {head tail : List Instruction} {graph other : FlowGraph}
  {pool : Pool} (isCut : CutInTwo cut cutCode head tail graph other)

theorem pops_renumber (number : Nat → Nat) (branch : Branch Nat Nat Nat) :
    (branch.renumber number).pops = branch.pops := by
  cases branch with
  | conditional condition => cases condition <;> rfl
  | _ => rfl

theorem exits_renumber (height : Nat) (branch : Branch Nat Nat Nat) :
    exits height (branch.renumber (past cut)) = (exits height branch).map (Entry.renumber cut) := by
  cases branch with
  | tableSwitch | lookupSwitch =>
    simp [exits, Branch.renumber, Branch.map, Branch.targets, Branch.next?, Entry.renumber]
  | _ => rfl

theorem heights_renumber (entries : List Entry) :
    (entries.map (Entry.renumber cut)).map Prod.snd = entries.map Prod.snd := by
  rw [List.map_map]
  rfl

/-- The first half leads to the second one at a height that it reached itself. -/
theorem peaks {middle late : Level} (below : middle.height ≤ middle.peak)
    (caught after : List Entry) :
    max (((caught.map (Entry.renumber cut) ++ [(cut + 1, middle.height)]).map Prod.snd).foldl max
        middle.peak) ((((caught ++ after).map (Entry.renumber cut)).map Prod.snd).foldl max late.peak) =
      ((caught ++ after).map Prod.snd).foldl max (max middle.peak late.peak) := by
  rw [heights_renumber, List.map_append, heights_renumber, List.map_append, List.foldl_append,
    List.foldl_append, List.foldl_append, foldl_max_eq (after.map _),
    foldl_max_eq (after.map _) (List.foldl _ (max _ _) _), foldl_max_eq (caught.map _),
    foldl_max_eq (caught.map _) late.peak, foldl_max_eq (caught.map _) (max _ _)]
  change max (max _ middle.height) _ = _
  omega

include isCut

/-- Handlers cover a block as before, and both halves of one that is cut. -/
theorem handlersOf_renumber {block block' : Nat}
    (here : block' = past cut block ∨ block = cut ∧ block' = cut + 1) :
    other.handlersOf block' = (graph.handlersOf block).map (Handler.renumber (past cut)) := by
  rw [FlowGraph.handlersOf, FlowGraph.handlersOf, isCut.handlers, List.filter_map]
  refine congrArg (List.map _) (List.filter_congr fun handler _ => ?_)
  rw [Function.comp_apply, Bool.eq_iff_iff, Bool.and_eq_true, Bool.and_eq_true, decide_eq_true_iff,
    decide_eq_true_iff, decide_eq_true_iff, decide_eq_true_iff]
  change past cut handler.start ≤ block' ∧ block' < past cut handler.stop ↔ _
  rcases here with rfl | ⟨rfl, rfl⟩
  · rw [past_le_past, past_lt_past]
  · unfold past
    split_ifs <;> omega

theorem caught_renumber {block block' : Nat}
    (here : block' = past cut block ∨ block = cut ∧ block' = cut + 1) :
    (other.handlersOf block').map (fun handler => (handler.entry, 1)) =
      ((graph.handlersOf block).map fun handler => (handler.entry, 1)).map (Entry.renumber cut) := by
  rw [handlersOf_renumber isCut here, List.map_map, List.map_map]
  rfl

/-- A block that is not cut is left as before. -/
theorem leave_renumber {block height reached : Nat} {code : CodeBlock} {next' : List Entry} :
    leave other pool (past cut block) height (code.renumber (past cut)) = .ok (reached, next') ↔
      ∃ next, leave graph pool block height code = .ok (reached, next) ∧
        next' = next.map (Entry.renumber cut) := by
  simp only [leave_eq_ok_iff, caught_renumber isCut (.inl rfl), Block.renumber, pops_renumber,
    exits_renumber, ← List.map_append]
  constructor
  · rintro ⟨level, walked, enough, rfl, rfl⟩
    exact ⟨_, ⟨level, walked, enough, by rw [heights_renumber], rfl⟩, rfl⟩
  · rintro ⟨_, ⟨level, walked, enough, rfl, rfl⟩, rfl⟩
    exact ⟨level, walked, enough, by rw [heights_renumber], rfl⟩

/-- The first half is left for the handlers of the block and for the second half. -/
theorem leave_first {height reached : Nat} {next' : List Entry} :
    leave other pool cut height (firstHalf cut cutCode head) = .ok (reached, next') ↔
      ∃ level, head.foldlM (Level.step pool) (.ofHeight height) = .ok level ∧
        reached = (next'.map Prod.snd).foldl max level.peak ∧
          next' = ((graph.handlersOf cut).map fun handler => (handler.entry, 1)).map
            (Entry.renumber cut) ++ [(cut + 1, level.height)] := by
  rw [leave_eq_ok_iff, caught_renumber isCut (.inl (past_of_le (Nat.le_refl cut)).symm)]
  refine exists_congr fun level => and_congr_right fun _ => ?_
  exact and_iff_right (Nat.zero_le _)

/-- The two halves of a block are left for what the block is left for. -/
theorem leave_halved {height reached : Nat} {next' : List Entry} :
    (∃ early middle late, leave other pool cut height (firstHalf cut cutCode head) = .ok
        (early, ((graph.handlersOf cut).map fun handler => (handler.entry, 1)).map
          (Entry.renumber cut) ++ [(cut + 1, middle)]) ∧
      leave other pool (cut + 1) middle (secondHalf cut cutCode tail) = .ok (late, next') ∧
        reached = max early late) ↔
      ∃ next, leave graph pool cut height cutCode = .ok (reached, next) ∧
        next' = next.map (Entry.renumber cut) := by
  simp only [leave_first isCut, leave_eq_ok_iff, caught_renumber isCut (.inr ⟨rfl, rfl⟩), secondHalf,
    pops_renumber, exits_renumber, isCut.whole, foldlM_step_append, ← List.map_append]
  constructor
  · rintro ⟨early, _, late, ⟨level, front, rfl, same⟩, ⟨onward, back, enough, rfl, rfl⟩, rfl⟩
    obtain ⟨-, rfl⟩ := Prod.mk.inj (List.singleton_inj.1 (List.append_cancel_left same))
    have below := height_le_peak (Nat.le_refl _) front
    exact ⟨_, ⟨_, ⟨level, onward, front, back, below, rfl⟩, enough,
      peaks below .., rfl⟩, rfl⟩
  · rintro ⟨_, ⟨_, ⟨level, onward, front, back, below, rfl⟩, enough, rfl, rfl⟩, rfl⟩
    exact ⟨_, _, _, ⟨level, front, rfl, rfl⟩, ⟨onward, back, enough, rfl, rfl⟩, (peaks below ..).symm⟩

/-! ## The same walk -/

omit isCut

/-- The heights of blocks, and those of a graph of which one block is cut in two. -/
structure Alike (cut : Nat) (heights heights' : Array (Option Nat)) : Prop where
  same : ∀ block : Nat, heights'[past cut block]? = heights[block]?
  fresh : heights[cut]? = some none → heights'[cut + 1]? = some none

theorem alike_start (isCut : CutInTwo cut cutCode head tail graph other) :
    Alike cut (Array.replicate graph.blocks.size none) (Array.replicate other.blocks.size none) := by
  have inside := (Array.getElem?_eq_some_iff.1 isCut.there).1
  refine ⟨fun block => ?_, fun _ => ?_⟩
  · rw [Array.getElem?_replicate, Array.getElem?_replicate, isCut.size_eq]
    congr 1
    unfold past
    split_ifs <;> simp only [eq_iff_iff] <;> omega
  · rw [Array.getElem?_replicate, isCut.size_eq, if_pos (Nat.succ_lt_succ inside)]

/-- Taking up the first half leaves the second one. -/
theorem fresh_second {heights' : Array (Option Nat)} (fresh : heights'[cut + 1]? = some none)
    (height : Nat) : (heights'.setIfInBounds cut (some height))[cut + 1]? = some none := by
  rw [Array.getElem?_setIfInBounds_ne (Nat.ne_of_lt (Nat.lt_succ_self cut)), fresh]

section

variable {heights heights' : Array (Option Nat)} {block : Nat} (alike : Alike cut heights heights')
  (fresh : heights[block]? = some none)
include alike fresh

theorem Alike.set_past (height block' : Nat) :
    (heights'.setIfInBounds (past cut block) (some height))[past cut block']? =
      (heights.setIfInBounds block (some height))[block']? := by
  have fresh' := (alike.same block).trans fresh
  have inside := (Array.getElem?_eq_some_iff.1 fresh).1
  have inside' := (Array.getElem?_eq_some_iff.1 fresh').1
  rw [Array.getElem?_setIfInBounds, Array.getElem?_setIfInBounds, if_pos inside, if_pos inside',
    alike.same]
  simp only [past_inj]

/-- A block that is not cut is taken up in both. -/
theorem Alike.set (apart : block ≠ cut) (height : Nat) :
    Alike cut (heights.setIfInBounds block (some height))
      (heights'.setIfInBounds (past cut block) (some height)) := by
  refine ⟨alike.set_past fresh height, fun freshCut => ?_⟩
  rw [Array.getElem?_setIfInBounds_ne apart] at freshCut
  rw [Array.getElem?_setIfInBounds_ne (past_ne cut block), alike.fresh freshCut]

/-- A block that is cut is taken up in its two halves. -/
theorem Alike.set_cut (isCut : block = cut) (height middle : Nat) :
    Alike cut (heights.setIfInBounds block (some height))
      ((heights'.setIfInBounds cut (some height)).setIfInBounds (cut + 1) (some middle)) := by
  have inside := (Array.getElem?_eq_some_iff.1 fresh).1
  subst isCut
  refine ⟨fun block' => ?_, fun freshCut => ?_⟩
  · have moved := alike.set_past fresh height block'
    rw [past_of_le (Nat.le_refl block)] at moved
    rw [Array.getElem?_setIfInBounds_ne (past_ne block block').symm, moved]
  · rw [Array.getElem?_setIfInBounds_self_of_lt inside] at freshCut
    cases freshCut

end

include isCut

/-- The halves are walked one behind the other. -/
theorem walk_cut {heights' : Array (Option Nat)} {height middle early late peak : Nat}
    {next' waiting' : List Entry} (fresh : heights'[cut]? = some none)
    (fresh' : heights'[cut + 1]? = some none)
    (first : leave other pool cut height (firstHalf cut cutCode head) = .ok
      (early, ((graph.handlersOf cut).map fun handler => (handler.entry, 1)).map
        (Entry.renumber cut) ++ [(cut + 1, middle)]))
    (second : leave other pool (cut + 1) middle (secondHalf cut cutCode tail) = .ok (late, next')) :
    walk other pool heights' peak ((cut, height) :: waiting') =
      walk other pool ((heights'.setIfInBounds cut (some height)).setIfInBounds (cut + 1)
        (some middle)) (max peak (max early late)) (next'.reverse ++ waiting') := by
  obtain ⟨level, -, -, -, again⟩ := leave_eq_ok_iff.1 second
  rw [caught_renumber isCut (.inr ⟨rfl, rfl⟩)] at again
  rw [walk_taken fresh isCut.first, first]
  change walk other pool _ _ _ = _
  rw [List.reverse_append, List.reverse_singleton, List.append_assoc, List.singleton_append,
    walk_taken (fresh_second fresh' height) isCut.second, second]
  change walk other pool _ _ _ = _
  rw [Nat.max_assoc, walk_twice]
  intro entry member
  rw [again]
  exact List.mem_map_of_mem (List.mem_reverse.2 (List.mem_append_left _ (List.mem_reverse.1 member)))

theorem walk_halved {heights heights' : Array (Option Nat)} {peak top : Nat} {waiting : List Entry}
    (alike : Alike cut heights heights') :
    walk other pool heights' peak (waiting.map (Entry.renumber cut)) = .ok top ↔
      walk graph pool heights peak waiting = .ok top := by
  fun_induction walk graph pool heights peak waiting generalizing heights' with
  | case1 heights peak => rw [List.map_nil, walk]
  | case2 heights peak block height waiting code fresh there ih =>
    have fresh' := (alike.same block).trans fresh
    rw [List.map_cons, Entry.renumber]
    dsimp only
    by_cases same : block = cut
    · subst same
      obtain rfl := Option.some.inj (isCut.there.symm.trans there)
      rw [past_of_le (Nat.le_refl block)] at fresh' ⊢
      rw [bind_eq_ok]
      constructor
      · intro run
        rw [walk_taken fresh' isCut.first] at run
        rcases bind_eq_ok.1 run with ⟨⟨early, _⟩, first, onward⟩
        obtain ⟨level, -, -, rfl⟩ := (leave_first isCut).1 first
        rw [List.reverse_append, List.reverse_singleton, List.append_assoc, List.singleton_append,
          walk_taken (fresh_second (alike.fresh fresh) height) isCut.second] at onward
        rcases bind_eq_ok.1 onward with ⟨⟨late, next'⟩, second, -⟩
        rw [← walk_taken fresh' isCut.first, walk_cut isCut fresh' (alike.fresh fresh) first second] at run
        obtain ⟨next, left, rfl⟩ := (leave_halved isCut).1 ⟨_, _, _, first, second, rfl⟩
        refine ⟨_, left, ?_⟩
        rw [← List.map_reverse, ← List.map_append] at run
        exact (ih _ next (alike.set_cut fresh rfl height _)).1 run
      · rintro ⟨⟨_, next⟩, left, onward⟩
        obtain ⟨early, middle, late, first, second, rfl⟩ := (leave_halved isCut).2 ⟨next, left, rfl⟩
        rw [walk_cut isCut fresh' (alike.fresh fresh) first second, ← List.map_reverse,
          ← List.map_append]
        exact (ih _ next (alike.set_cut fresh rfl height middle)).2 onward
    · have there' := isCut.apart same
      rw [there, Option.map_some] at there'
      rw [walk_taken fresh' there', bind_eq_ok, bind_eq_ok]
      constructor
      · rintro ⟨⟨reached, next'⟩, left', onward⟩
        obtain ⟨next, left, rfl⟩ := (leave_renumber isCut).1 left'
        refine ⟨(reached, next), left, ?_⟩
        rw [← List.map_reverse, ← List.map_append] at onward
        exact (ih reached next (alike.set fresh same height)).1 onward
      · rintro ⟨⟨reached, next⟩, left, onward⟩
        have left' := (leave_renumber isCut).2 ⟨next, left, rfl⟩
        refine ⟨_, left', ?_⟩
        rw [← List.map_reverse, ← List.map_append]
        exact (ih reached next (alike.set fresh same height)).2 onward
  | case3 heights peak block height waiting untaken ih =>
    rw [List.map_cons, Entry.renumber, walk_passed, ih alike]
    intro fresh
    dsimp only at fresh
    rw [alike.same] at fresh
    by_cases same : block = cut
    · exact (untaken cutCode fresh (same ▸ isCut.there)).elim
    · rw [isCut.apart same, Option.map_eq_none_iff]
      cases there : graph.blocks[block]? with
      | none => rfl
      | some code => exact (untaken code fresh there).elim

/-! ## The same limits -/

omit isCut

theorem ret_renumber {number : Nat → Nat} {branch : Branch Nat Nat Nat} {slot : UInt16} :
    branch.renumber number = .ret slot ↔ branch = .ret slot := by
  cases branch <;> simp [Branch.renumber, Branch.map]

theorem blockLocals_renumber (number : Nat → Nat) (code : CodeBlock) :
    blockLocals (code.renumber number) = blockLocals code := by
  refine eq_of_forall_ge_iff fun bound => ?_
  rw [blockLocals_le_iff, blockLocals_le_iff]
  simp only [Block.renumber, ret_renumber]

/-- The halves of a block need as many slots as the block. -/
theorem blockLocals_halved (whole : cutCode.instructions.toList = head ++ tail) (bound : Nat) :
    (blockLocals (firstHalf cut cutCode head) ≤ bound ∧
      blockLocals (secondHalf cut cutCode tail) ≤ bound) ↔ blockLocals cutCode ≤ bound := by
  simp only [blockLocals_le_iff, firstHalf, secondHalf, ret_renumber, ← Array.mem_toList_iff, whole,
    List.mem_append, or_imp, forall_and]
  simp only [reduceCtorEq, false_imp_iff, implies_true, and_true, and_assoc]

include isCut

theorem localsOf_halved (parameters : Nat) :
    localsOf other.blocks parameters = localsOf graph.blocks parameters := by
  obtain ⟨before, after, -, split, split'⟩ := isCut.split
  refine eq_of_forall_ge_iff fun bound => ?_
  rw [localsOf_le_iff, localsOf_le_iff, split, split']
  simp only [List.forall_mem_append, List.forall_mem_cons, List.forall_mem_map, blockLocals_renumber]
  rw [← blockLocals_halved isCut.whole, and_assoc]

/-- Limits are computed for the same graphs and are the same. -/
theorem compute_halved {parameters : Nat} {limits : Limits} :
    compute other pool parameters = .ok limits ↔ compute graph pool parameters = .ok limits := by
  have tops : ∀ top : Nat,
      walk other pool (Array.replicate other.blocks.size none) 0 [(0, 0)] = .ok top ↔
        walk graph pool (Array.replicate graph.blocks.size none) 0 [(0, 0)] = .ok top := by
    intro top
    have same := @walk_halved _ _ _ _ _ _ pool isCut _ _ 0 top [(0, 0)] (alike_start isCut)
    rwa [List.map_singleton, Entry.renumber, past_of_le (Nat.zero_le cut)] at same
  have locals := localsOf_halved isCut parameters
  rw [localsOf, localsOf] at locals
  rw [compute, compute, bind_eq_ok, bind_eq_ok, locals]
  exact exists_congr fun top => and_congr_left fun _ => tops top

end

end Limits
end ClassFile
