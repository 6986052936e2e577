import ClassFile.Code.Limits
import ClassFile.Proofs.Graph.Closed

namespace ClassFile
namespace Limits

/-!
# Walking blocks

The walk that finds the greatest height takes up every block once, at the height at
which it comes there first.  `visits` also remembers these heights.  A `Tour` says what
is known of a walk on its way, for any property of the blocks it has taken up and any
property of the entries that still wait.  A walk that does not fail takes up all blocks
that control reaches.
-/

/-- Walk blocks as `walk` does.  The answer also has the heights at which blocks
were reached. -/
def visits (graph : FlowGraph) (pool : Pool) (heights : Array (Option Nat)) (peak : Nat) :
    List Entry → Except Fault (Array (Option Nat) × Nat)
  | [] => .ok (heights, peak)
  | (block, height) :: waiting =>
    match _fresh : heights[block]?, graph.blocks[block]? with
    | some none, some code => do
      let (reached, next) ← leave graph pool block height code
      visits graph pool (heights.setIfInBounds block (some height)) (max peak reached)
        (next.reverse ++ waiting)
    | _, _ => visits graph pool heights peak waiting
termination_by waiting => (heights.countP Option.isNone, waiting.length)
decreasing_by
  · exact Prod.Lex.left _ _ (countP_set_lt _fresh)
  · exact Prod.Lex.right _ (Nat.lt_succ_self _)

theorem walk_eq_visits (graph : FlowGraph) (pool : Pool) (heights : Array (Option Nat)) (peak : Nat)
    (waiting : List Entry) :
    walk graph pool heights peak waiting = Prod.snd <$> visits graph pool heights peak waiting := by
  fun_induction visits graph pool heights peak waiting with
  | case1 heights peak =>
    rw [walk]
    rfl
  | case2 heights peak block height waiting code fresh there ih =>
    rw [walk]
    split
    · next fresh' there' =>
      obtain rfl := Option.some.inj (there.symm.trans there')
      cases leave graph pool block height code with
      | error fault => rfl
      | ok left => exact ih left.1 left.2
    · next other => exact (other code fresh there).elim
  | case3 heights peak block height waiting other ih =>
    rw [walk]
    split
    · next fresh there => exact (other _ fresh there).elim
    · exact ih

theorem walk_fresh {graph : FlowGraph} {pool : Pool} {heights : Array (Option Nat)}
    {peak block height : Nat} {code : CodeBlock} {waiting : List Entry} (reached : Nat)
    (next : List Entry) (fresh : heights[block]? = some none) (there : graph.blocks[block]? = some code)
    (left : leave graph pool block height code = .ok (reached, next)) :
    walk graph pool heights peak ((block, height) :: waiting) =
      walk graph pool (heights.setIfInBounds block (some height)) (max peak reached)
        (next.reverse ++ waiting) := by
  rw [walk]
  split
  · next fresh' there' =>
    obtain rfl := Option.some.inj (there.symm.trans there')
    rw [left]
    rfl
  · next other => exact (other code fresh there).elim

theorem walk_known {graph : FlowGraph} {pool : Pool} {heights : Array (Option Nat)}
    {peak block height known : Nat} {waiting : List Entry}
    (there : heights[block]? = some (some known)) :
    walk graph pool heights peak ((block, height) :: waiting) = walk graph pool heights peak waiting := by
  rw [walk]
  split
  · next fresh' there' =>
    rw [there] at fresh'
    cases fresh'
  · rfl

/-! ## Leaving a block -/

theorem le_foldl_max (heights : List Nat) (peak : Nat) : peak ≤ heights.foldl max peak := by
  induction heights generalizing peak with
  | nil => exact Nat.le_refl peak
  | cons height heights ih => exact Nat.le_trans (Nat.le_max_left peak height) (ih _)

/-- The greatest of some heights is one of them. -/
theorem foldl_max_mem (heights : List Nat) (peak : Nat) :
    heights.foldl max peak = peak ∨ heights.foldl max peak ∈ heights := by
  induction heights generalizing peak with
  | nil => exact .inl rfl
  | cons height heights ih =>
    rw [List.foldl_cons, List.mem_cons]
    rcases ih (max peak height) with same | later
    · rw [same]
      rcases Nat.le_total height peak with lower | higher
      · exact .inl (Nat.max_eq_left lower)
      · exact .inr (.inl (Nat.max_eq_right higher))
    · exact .inr (.inr later)

theorem exits_map_fst (height : Nat) (branch : Branch Nat Nat Nat) :
    (exits height branch).map Prod.fst = branch.targets ++ branch.next?.toList := by
  cases branch with
  | jsr | jsrWide => rfl
  | _ =>
    rw [exits, List.map_map]
    · exact List.map_id _
    all_goals exact fun _ _ same => by cases same

theorem leave_eq_ok {graph : FlowGraph} {pool : Pool} {block height reached : Nat} {code : CodeBlock}
    {next : List Entry} (run : leave graph pool block height code = .ok (reached, next)) :
    ∃ level, code.instructions.toList.foldlM (Level.step pool) (.ofHeight height) = .ok level ∧
      code.branch.pops ≤ level.height ∧ reached = (next.map Prod.snd).foldl max level.peak ∧
      next = ((graph.handlersOf block).map fun handler => (handler.entry, 1)) ++
        exits (level.height - code.branch.pops) code.branch := by
  obtain ⟨level, walked, run⟩ := bind_eq_ok.1 run
  obtain ⟨after, finished, run⟩ := bind_eq_ok.1 run
  obtain ⟨rfl, rfl⟩ := Prod.mk.inj (pure_eq_ok.1 run)
  rw [Level.finish] at finished
  split at finished
  · next enough =>
    obtain rfl := Except.ok.inj finished
    exact ⟨level, walked, enough, rfl, rfl⟩
  · cases finished

/-- All blocks that control goes to from a block are among those that it leads to. -/
theorem leave_edges {graph : FlowGraph} {pool : Pool} {block height reached : Nat} {code : CodeBlock}
    {next : List Entry} (there : graph.blocks[block]? = some code)
    (run : leave graph pool block height code = .ok (reached, next)) {target : Nat}
    (edge : graph.Edge block target) : target ∈ next.map Prod.fst := by
  obtain ⟨level, -, -, -, rfl⟩ := leave_eq_ok run
  rw [List.map_append, List.mem_append, exits_map_fst, List.map_map]
  rcases edge with successor | ⟨handler, covers, rfl⟩
  · rw [FlowGraph.successors, there] at successor
    exact .inr successor
  · exact .inl (List.mem_map_of_mem covers)

/-! ## Tours -/

/-- A walk on its way.  It has taken up the blocks that have a height. -/
structure Tour (graph : FlowGraph) (good : Nat → Nat → Nat → Prop) (expected : Entry → Prop)
    (heights : Array (Option Nat)) (peak : Nat) (waiting : List Entry) : Prop where
  size : heights.size = graph.blocks.size
  bounded : ∀ block height, heights[block]? = some (some height) → good block height peak
  arriving : ∀ entry ∈ waiting, expected entry
  edges : ∀ block height, heights[block]? = some (some height) → ∀ target,
    graph.Edge block target →
      (∃ height, heights[target]? = some (some height)) ∨ target ∈ waiting.map Prod.fst

/-- A height that leaving an expected block may have raised. -/
def Raised (graph : FlowGraph) (pool : Pool) (expected : Entry → Prop) (peak top : Nat) : Prop :=
  top = peak ∨ ∃ block height code next, expected (block, height) ∧
    graph.blocks[block]? = some code ∧ leave graph pool block height code = .ok (top, next)

/-- A block has been taken up, or it waits. -/
def Listed (heights : Array (Option Nat)) (waiting : List Entry) (block : Nat) : Prop :=
  (∃ height, heights[block]? = some (some height)) ∨ block ∈ waiting.map Prod.fst

/-- How a walk ends that has come to some heights: it has taken up what it had taken up
before and what waited, or a block made it fail. -/
inductive Ending (graph : FlowGraph) (pool : Pool) (good : Nat → Nat → Nat → Prop)
    (expected : Entry → Prop) (heights : Array (Option Nat)) (peak : Nat) (waiting : List Entry) :
    Except Fault (Array (Option Nat) × Nat) → Prop
  | done {last : Array (Option Nat)} {top : Nat} (tour : Tour graph good expected last top [])
      (kept : ∀ block, Listed heights waiting block → ∃ height, last[block]? = some (some height))
      (raised : Raised graph pool expected peak top) :
      Ending graph pool good expected heights peak waiting (.ok (last, top))
  | failed {fault : Fault} {block height : Nat} {code : CodeBlock} (expects : expected (block, height))
      (there : graph.blocks[block]? = some code)
      (left : leave graph pool block height code = .error fault) :
      Ending graph pool good expected heights peak waiting (.error fault)

section

variable {graph : FlowGraph} {pool : Pool} {good : Nat → Nat → Nat → Prop} {expected : Entry → Prop}
  {heights : Array (Option Nat)} {peak block height : Nat} {waiting : List Entry}

/-- A block that comes up again is passed over. -/
theorem Tour.skip (tour : Tour graph good expected heights peak ((block, height) :: waiting))
    (known : ∃ height, heights[block]? = some (some height)) :
    Tour graph good expected heights peak waiting where
  size := tour.size
  bounded := tour.bounded
  arriving entry member := tour.arriving entry (List.mem_cons_of_mem _ member)
  edges other height found target edge := by
    rcases tour.edges other height found target edge with there | member
    · exact .inl there
    · rcases List.mem_cons.1 member with rfl | later
      · exact .inl known
      · exact .inr later

theorem heights_set {known other : Nat} (inside : block < heights.size) :
    (heights.setIfInBounds block (some height))[other]? = some (some known) ↔
      other = block ∧ known = height ∨ other ≠ block ∧ heights[other]? = some (some known) := by
  by_cases here : block = other
  · subst here
    rw [Array.getElem?_setIfInBounds_self_of_lt inside, Option.some.injEq, Option.some.injEq]
    exact ⟨fun same => .inl ⟨rfl, same.symm⟩,
      fun either => either.elim (fun same => same.2.symm) fun apart => absurd rfl apart.1⟩
  · rw [Array.getElem?_setIfInBounds_ne here]
    exact ⟨fun found => .inr ⟨Ne.symm here, found⟩,
      fun either => either.elim (fun same => absurd same.1.symm here) And.right⟩

theorem exists_heights_set {other : Nat} (inside : block < heights.size) :
    (∃ known, (heights.setIfInBounds block (some height))[other]? = some (some known)) ↔
      other = block ∨ ∃ known, heights[other]? = some (some known) := by
  simp only [heights_set inside]
  by_cases here : other = block
  · exact iff_of_true ⟨height, .inl ⟨here, rfl⟩⟩ (.inl here)
  · simp only [here, false_and, false_or, ne_eq, not_false_eq_true, true_and]

variable (mono : ∀ block height peak more, good block height peak → peak ≤ more →
    good block height more)
  (inside : ∀ entry, expected entry → entry.1 < graph.blocks.size)
  (leaves : ∀ block height code reached next, expected (block, height) →
    graph.blocks[block]? = some code → leave graph pool block height code = .ok (reached, next) →
      good block height reached ∧ ∀ entry ∈ next, expected entry)
include mono

/-- A block that is taken up leaves the blocks that it leads to. -/
theorem Tour.step {code : CodeBlock} {reached : Nat} {next : List Entry}
    (tour : Tour graph good expected heights peak ((block, height) :: waiting))
    (fresh : heights[block]? = some none) (there : graph.blocks[block]? = some code)
    (left : leave graph pool block height code = .ok (reached, next))
    (here : good block height reached) (onward : ∀ entry ∈ next, expected entry) :
    Tour graph good expected (heights.setIfInBounds block (some height)) (max peak reached)
      (next.reverse ++ waiting) := by
  have inside : block < heights.size := (Array.getElem?_eq_some_iff.1 fresh).1
  constructor
  case size => rw [Array.size_setIfInBounds, tour.size]
  case bounded =>
    intro other known isKnown
    rcases (heights_set inside).1 isKnown with ⟨rfl, rfl⟩ | ⟨-, before⟩
    · exact mono _ _ _ _ here (Nat.le_max_right _ _)
    · exact mono _ _ _ _ (tour.bounded other known before) (Nat.le_max_left _ _)
  case arriving =>
    intro entry member
    rcases List.mem_append.1 member with new | before
    · exact onward entry (List.mem_reverse.1 new)
    · exact tour.arriving entry (List.mem_cons_of_mem _ before)
  case edges =>
    intro other known isKnown target edge
    rw [exists_heights_set inside, List.map_append, List.mem_append, List.map_reverse,
      List.mem_reverse]
    rcases (heights_set inside).1 isKnown with ⟨rfl, rfl⟩ | ⟨-, before⟩
    · exact .inr (.inl (leave_edges there left edge))
    · rcases tour.edges other known before target edge with reached | member
      · exact .inl (.inr reached)
      · rcases List.mem_cons.1 member with rfl | later
        · exact .inl (.inl rfl)
        · exact .inr (.inr later)

omit mono in
/-- A walk ends as it does from a later point. -/
theorem Ending.later {heights' : Array (Option Nat)} {peak' : Nat} {waiting' : List Entry}
    {result : Except Fault (Array (Option Nat) × Nat)}
    (ending : Ending graph pool good expected heights' peak' waiting' result)
    (listed : ∀ block, Listed heights waiting block → Listed heights' waiting' block)
    (raised : Raised graph pool expected peak peak') :
    Ending graph pool good expected heights peak waiting result := by
  cases ending with
  | failed expects there left => exact .failed expects there left
  | done tour kept raised' =>
    refine .done tour (fun block known => kept block (listed block known)) ?_
    rcases raised' with rfl | more
    · exact raised
    · exact .inr more

include inside leaves

theorem visits_ending (tour : Tour graph good expected heights peak waiting) :
    Ending graph pool good expected heights peak waiting
      (visits graph pool heights peak waiting) := by
  fun_induction visits graph pool heights peak waiting with
  | case1 heights peak =>
    exact .done tour (fun block known => known.resolve_right List.not_mem_nil) (.inl rfl)
  | case2 heights peak block height waiting code fresh there ih =>
    have expects := tour.arriving _ List.mem_cons_self
    have room : block < heights.size := (Array.getElem?_eq_some_iff.1 fresh).1
    cases left : leave graph pool block height code with
    | error fault => exact .failed expects there left
    | ok result =>
      obtain ⟨reached, next⟩ := result
      obtain ⟨here, onward⟩ := leaves block height code reached next expects there left
      refine (ih reached next (tour.step mono fresh there left here onward)).later ?_ ?_
      · intro other listed
        rw [Listed, exists_heights_set room, List.map_append, List.mem_append]
        rcases listed with before | member
        · exact .inl (.inr before)
        · rcases List.mem_cons.1 member with rfl | later
          · exact .inl (.inl rfl)
          · exact .inr (.inr later)
      · rcases Nat.le_total reached peak with lower | higher
        · exact .inl (Nat.max_eq_left lower)
        · exact .inr ⟨block, height, code, next, expects, there, by rw [Nat.max_eq_right higher, left]⟩
  | case3 heights peak block height waiting other ih =>
    have within := inside _ (tour.arriving _ List.mem_cons_self)
    have known : ∃ height, heights[block]? = some (some height) := by
      have room : block < heights.size := by rwa [tour.size]
      rw [Array.getElem?_eq_getElem room] at other ⊢
      cases isHeight : heights[block] with
      | none =>
        exact (other _ (congrArg some isHeight) (Array.getElem?_eq_getElem within)).elim
      | some height => exact ⟨height, rfl⟩
    refine (ih (tour.skip known)).later (fun other listed => ?_) (.inl rfl)
    rcases listed with before | member
    · exact .inl before
    · rcases List.mem_cons.1 member with rfl | later
      · exact .inl known
      · exact .inr later

end

/-- Before the walk nothing has a height. -/
theorem tour_start {graph : FlowGraph} {good : Nat → Nat → Nat → Prop} {expected : Entry → Prop}
    (peak : Nat) (expects : expected (0, 0)) :
    Tour graph good expected (Array.replicate graph.blocks.size none) peak [(0, 0)] := by
  have nothing : ∀ block height : Nat,
      (Array.replicate graph.blocks.size (none : Option Nat))[block]? ≠ some (some height) := by
    intro block height
    rw [Array.getElem?_replicate]
    split <;> simp
  refine ⟨Array.size_replicate, fun block height found => absurd found (nothing block height),
    fun entry member => ?_, fun block height found => absurd found (nothing block height)⟩
  obtain rfl := List.mem_singleton.1 member
  exact expects

/-- A walk that does not fail takes up the blocks that control reaches. -/
theorem Tour.reachable {graph : FlowGraph} {good : Nat → Nat → Nat → Prop} {expected : Entry → Prop}
    {heights : Array (Option Nat)} {peak : Nat} (tour : Tour graph good expected heights peak [])
    (start : ∃ height, heights[0]? = some (some height)) {block : Nat}
    (reachable : graph.Reachable block) : ∃ height, heights[block]? = some (some height) := by
  induction reachable with
  | refl => exact start
  | tail _ edge ih =>
    obtain ⟨height, found⟩ := ih
    exact (tour.edges _ height found _ edge).resolve_right List.not_mem_nil

end Limits
end ClassFile
