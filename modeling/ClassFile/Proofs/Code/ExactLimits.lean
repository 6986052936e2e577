import Mathlib.Order.Lattice.Nat
import ClassFile.Proofs.Code.Locals
import ClassFile.Proofs.Code.Visits

namespace ClassFile
namespace Limits

/-!
# The limits are exact

Suppose that the blocks can be given heights so that control enters every block at its
height, whatever path it takes there.  Then it does not matter by which path the walk comes
to a block first.  The walk fails just when some instruction or branch pops more than there
is, and otherwise finds the greatest height of all points that control reaches.
-/

/-! ## Heights in a block -/

/-- The height before an instruction of a block, or at its end, if the block is entered at
a height and no instruction before lacks operands. -/
inductive HeightAt (pool : Pool) (code : CodeBlock) (start : Nat) : Nat → Nat → Prop
  | entry : HeightAt pool code start 0 start
  | after {place height : Nat} {instruction : Instruction} {effect : StackEffect}
      (before : HeightAt pool code start place height)
      (there : code.instructions[place]? = some instruction)
      (counted : instruction.stackEffect pool = .ok effect) (enough : effect.pops ≤ height) :
      HeightAt pool code start (place + 1) (height - effect.pops + effect.pushes)

/-- An instruction of a block, or its branch, pops more than there is. -/
inductive LacksIn (pool : Pool) (code : CodeBlock) (start : Nat) : UnderflowSite → Prop
  | instruction {place height : Nat} {instruction : Instruction} {effect : StackEffect}
      (before : HeightAt pool code start place height)
      (there : code.instructions[place]? = some instruction)
      (counted : instruction.stackEffect pool = .ok effect) (short : height < effect.pops) :
      LacksIn pool code start (.instruction instruction)
  | branch {height : Nat} (before : HeightAt pool code start code.instructions.size height)
      (short : height < code.branch.pops) : LacksIn pool code start (.branch code.branch)

/-- The height at which a branch that leaves a height behind it enters a block.  A subroutine
is entered with its return address. -/
inductive Carries (height : Nat) : Branch Nat Nat Nat → Nat → Nat → Prop
  | called (target next : Nat) : Carries height (.jsr target next) target (height + 1)
  | calledWide (target next : Nat) : Carries height (.jsrWide target next) target (height + 1)
  | returned (target next : Nat) : Carries height (.jsr target next) next height
  | returnedWide (target next : Nat) : Carries height (.jsrWide target next) next height
  | plain {branch : Branch Nat Nat Nat} {target : Nat}
      (successor : target ∈ branch.targets ++ branch.next?.toList)
      (noCall : ∀ target next, branch ≠ .jsr target next ∧ branch ≠ .jsrWide target next) :
      Carries height branch target height

section

variable {pool : Pool} {code : CodeBlock} {start place height : Nat}

theorem HeightAt.unique {other : Nat} (one : HeightAt pool code start place height)
    (two : HeightAt pool code start place other) : height = other := by
  induction one generalizing other with
  | entry =>
    cases two
    rfl
  | after before there counted enough ih =>
    cases two with
    | after before' there' counted' enough' =>
      obtain rfl := ih before'
      obtain rfl := Option.some.inj (there.symm.trans there')
      obtain rfl := Except.ok.inj (counted.symm.trans counted')
      rfl

theorem HeightAt.place_le (here : HeightAt pool code start place height) :
    place ≤ code.instructions.size := by
  cases here with
  | entry => exact Nat.zero_le _
  | after _ there => exact (Array.getElem?_eq_some_iff.1 there).1

/-- An instruction before which there is a height either leads on or lacks operands. -/
theorem HeightAt.next {later top : Nat} (here : HeightAt pool code start place height)
    (beyond : HeightAt pool code start later top) (before : place < later) :
    ∃ instruction effect, code.instructions[place]? = some instruction ∧
      instruction.stackEffect pool = .ok effect ∧ effect.pops ≤ height ∧
      HeightAt pool code start (place + 1) (height - effect.pops + effect.pushes) := by
  induction beyond with
  | entry => exact absurd before (Nat.not_lt_zero _)
  | @after middle below instruction effect at_ there counted enough ih =>
    rcases Nat.lt_or_eq_of_le (Nat.le_of_lt_succ before) with earlier | rfl
    · exact ih earlier
    · obtain rfl := here.unique at_
      exact ⟨instruction, effect, there, counted, enough, .after here there counted enough⟩

theorem mem_exits {branch : Branch Nat Nat Nat} {target entered : Nat} :
    (target, entered) ∈ exits height branch ↔ Carries height branch target entered := by
  have called : ∀ subroutine next, (target, entered) ∈ [(subroutine, height + 1), (next, height)] ↔
      target = subroutine ∧ entered = height + 1 ∨ target = next ∧ entered = height := by
    intro subroutine next
    rw [List.mem_cons, List.mem_singleton, Prod.mk.injEq, Prod.mk.injEq]
  constructor
  · intro member
    cases branch with
    | jsr subroutine next =>
      rcases (called subroutine next).1 member with ⟨rfl, rfl⟩ | ⟨rfl, rfl⟩
      · exact .called _ _
      · exact .returned _ _
    | jsrWide subroutine next =>
      rcases (called subroutine next).1 member with ⟨rfl, rfl⟩ | ⟨rfl, rfl⟩
      · exact .calledWide _ _
      · exact .returnedWide _ _
    | _ =>
      obtain ⟨target, successor, same⟩ := List.mem_map.1 member
      obtain ⟨rfl, rfl⟩ := Prod.mk.inj same
      exact .plain successor fun _ _ => ⟨nofun, nofun⟩
  · intro carries
    cases carries with
    | called target next => exact (called target next).2 (.inl ⟨rfl, rfl⟩)
    | calledWide target next => exact (called target next).2 (.inl ⟨rfl, rfl⟩)
    | returned subroutine => exact (called subroutine target).2 (.inr ⟨rfl, rfl⟩)
    | returnedWide subroutine => exact (called subroutine target).2 (.inr ⟨rfl, rfl⟩)
    | plain successor noCall =>
      rw [exits]
      · exact List.mem_map.2 ⟨target, successor, rfl⟩
      · exact fun subroutine next => (noCall subroutine next).1
      · exact fun subroutine next => (noCall subroutine next).2

/-! ## Through a block -/

/-- What is counted at the end of a block that lacks no operands. -/
structure Counted (pool : Pool) (code : CodeBlock) (start : Nat) (level : Level) : Prop where
  final : HeightAt pool code start code.instructions.size level.height
  bounded : ∀ place height, HeightAt pool code start place height → height ≤ level.peak
  attained : ∃ place, HeightAt pool code start place level.peak

theorem Counted.no_lack {level : Level} (counted : Counted pool code start level)
    (enough : code.branch.pops ≤ level.height) (site : UnderflowSite) :
    ¬LacksIn pool code start site := by
  intro lacks
  cases lacks with
  | @instruction place height instruction effect before there isEffect short =>
    have inside : place < code.instructions.size := (Array.getElem?_eq_some_iff.1 there).1
    obtain ⟨other, otherEffect, there', isEffect', enough, -⟩ := before.next counted.final inside
    obtain rfl := Option.some.inj (there.symm.trans there')
    obtain rfl := Except.ok.inj (isEffect.symm.trans isEffect')
    omega
  | branch before short =>
    obtain rfl := before.unique counted.final
    omega

/-- From any place in a block, the levels are counted up to its end or to an instruction
that lacks operands. -/
theorem steps_counted
    (effects : ∀ instruction ∈ code.instructions, ∃ effect, instruction.stackEffect pool = .ok effect)
    {rest : List Instruction} {level : Level} (left : code.instructions.toList.drop place = rest)
    (here : HeightAt pool code start place level.height)
    (bounded : ∀ before ≤ place, ∀ height, HeightAt pool code start before height →
      height ≤ level.peak)
    (attained : ∃ before, HeightAt pool code start before level.peak) :
    (∃ final, rest.foldlM (Level.step pool) level = .ok final ∧ Counted pool code start final) ∨
      ∃ site, rest.foldlM (Level.step pool) level = .error (.stackUnderflow site) ∧
        LacksIn pool code start site := by
  induction rest generalizing place level with
  | nil =>
    have beyond := List.drop_eq_nil_iff.1 left
    rw [Array.length_toList] at beyond
    obtain rfl := Nat.le_antisymm here.place_le beyond
    exact .inl ⟨level, rfl, here, fun before height at_ => bounded before at_.place_le height at_,
      attained⟩
  | cons instruction rest ih =>
    have there : code.instructions[place]? = some instruction := by
      rw [← Array.getElem?_toList, ← List.head?_drop, left]
      rfl
    have left' : code.instructions.toList.drop (place + 1) = rest := by
      rw [← List.tail_drop, left, List.tail_cons]
    obtain ⟨effect, isEffect⟩ := effects instruction (Array.mem_of_getElem? there)
    rw [List.foldlM_cons]
    by_cases enough : effect.pops ≤ level.height
    · have after := HeightAt.after here there isEffect enough
      have stepped : level.step pool instruction = .ok ⟨level.height - effect.pops + effect.pushes,
          max level.peak (level.height - effect.pops + effect.pushes)⟩ := by
        rw [Level.step, isEffect]
        exact if_pos enough
      rw [stepped]
      refine ih left' after (fun before inside height at_ => ?_) ?_
      · rcases Nat.lt_or_eq_of_le inside with earlier | rfl
        · exact Nat.le_trans (bounded before (Nat.le_of_lt_succ earlier) height at_)
            (Nat.le_max_left _ _)
        · rw [at_.unique after]
          exact Nat.le_max_right _ _
      · rcases Nat.le_total (level.height - effect.pops + effect.pushes) level.peak with low | high
        · dsimp only
          rw [Nat.max_eq_left low]
          exact attained
        · dsimp only
          rw [Nat.max_eq_right high]
          exact ⟨place + 1, after⟩
    · have short := Nat.lt_of_not_le enough
      refine .inr ⟨.instruction instruction, ?_, .instruction here there isEffect short⟩
      have stepped : level.step pool instruction =
          .error (.stackUnderflow (.instruction instruction)) := by
        rw [Level.step, isEffect]
        exact if_neg enough
      rw [stepped]
      rfl

/-- A block is left unless it lacks operands. -/
theorem leave_counted (graph : FlowGraph) (block start : Nat)
    (effects : ∀ instruction ∈ code.instructions, ∃ effect, instruction.stackEffect pool = .ok effect) :
    (∃ level reached next, leave graph pool block start code = .ok (reached, next) ∧
      Counted pool code start level ∧ code.branch.pops ≤ level.height ∧
        reached = (next.map Prod.snd).foldl max level.peak ∧
          next = ((graph.handlersOf block).map fun handler => (handler.entry, 1)) ++
            exits (level.height - code.branch.pops) code.branch) ∨
      ∃ site, leave graph pool block start code = .error (.stackUnderflow site) ∧
        LacksIn pool code start site := by
  have outcome := @steps_counted pool code start 0 effects _ (.ofHeight start) List.drop_zero .entry
    (fun before inside height at_ => ?_) ⟨0, .entry⟩
  · rcases outcome with ⟨level, walked, counted⟩ | ⟨site, walked, lacks⟩
    · rw [leave, walked]
      by_cases enough : code.branch.pops ≤ level.height
      · refine .inl ⟨level, _, _, ?_, counted, enough, rfl, rfl⟩
        have finished : level.finish code.branch = .ok (level.height - code.branch.pops) :=
          if_pos enough
        exact bind_eq_ok.2 ⟨_, rfl, bind_eq_ok.2 ⟨_, finished, rfl⟩⟩
      · refine .inr ⟨.branch code.branch, ?_, .branch counted.final (Nat.lt_of_not_le enough)⟩
        have finished : level.finish code.branch = .error (.stackUnderflow (.branch code.branch)) :=
          if_neg enough
        change (level.finish code.branch >>= _) = _
        rw [finished]
        rfl
    · exact .inr ⟨site, by rw [leave, walked]; rfl, lacks⟩
  · obtain rfl := Nat.le_zero.1 inside
    exact Nat.le_of_eq (at_.unique .entry)

end

/-! ## Heights of blocks -/

section

variable {graph : FlowGraph} {pool : Pool} {height : Nat → Nat}

/-- Control arrives at a block from the start of the method, and nothing on the way lacks
operands if the blocks are entered at the given heights. -/
inductive Arrives (graph : FlowGraph) (pool : Pool) (height : Nat → Nat) : Nat → Prop
  | start : Arrives graph pool height 0
  | thrown {block : Nat} {handler : Handler} (before : Arrives graph pool height block)
      (covers : handler ∈ graph.handlersOf block) : Arrives graph pool height handler.entry
  | along {block last target entered : Nat} {code : CodeBlock}
      (before : Arrives graph pool height block) (there : graph.blocks[block]? = some code)
      (through : HeightAt pool code (height block) code.instructions.size last)
      (enough : code.branch.pops ≤ last)
      (carries : Carries (last - code.branch.pops) code.branch target entered) :
      Arrives graph pool height target

/-- Heights at which control enters blocks by whatever path. -/
structure Agreeing (graph : FlowGraph) (pool : Pool) (height : Nat → Nat) : Prop where
  start : height 0 = 0
  handlers : ∀ block handler, Arrives graph pool height block →
    handler ∈ graph.handlersOf block → height handler.entry = 1
  edges : ∀ block code last target entered, Arrives graph pool height block →
    graph.blocks[block]? = some code →
    HeightAt pool code (height block) code.instructions.size last → code.branch.pops ≤ last →
    Carries (last - code.branch.pops) code.branch target entered → height target = entered

/-- The heights at all points of the blocks that control reaches. -/
def Heights (graph : FlowGraph) (pool : Pool) (height : Nat → Nat) : Set Nat :=
  {top | ∃ block code place, graph.Reachable block ∧ graph.blocks[block]? = some code ∧
    HeightAt pool code (height block) place top}

/-- An instruction or a branch that control reaches pops more than there is. -/
def Lacks (graph : FlowGraph) (pool : Pool) (height : Nat → Nat) (site : UnderflowSite) : Prop :=
  ∃ block code, graph.Reachable block ∧ graph.blocks[block]? = some code ∧
    LacksIn pool code (height block) site

/-- Numbers of local variable slots that the parameters take or that some instruction, in
whatever block, needs. -/
inductive Slots (graph : FlowGraph) (parameters : Nat) : Nat → Prop
  | parameters : Slots graph parameters parameters
  | access {code : CodeBlock} {instruction : Instruction} {slot : UInt16} {width : Nat}
      (there : code ∈ graph.blocks) (member : instruction ∈ code.instructions)
      (accesses : instruction.localAccess? = some (slot, width)) :
      Slots graph parameters (slot.toNat + width)
  | ret {code : CodeBlock} {slot : UInt16} (there : code ∈ graph.blocks)
      (returns : code.branch = .ret slot) : Slots graph parameters (slot.toNat + 1)

theorem Carries.successor {last target entered : Nat} {branch : Branch Nat Nat Nat}
    (carries : Carries last branch target entered) :
    target ∈ branch.targets ++ branch.next?.toList := by
  cases carries with
  | called | calledWide => exact List.mem_append_left _ List.mem_cons_self
  | returned | returnedWide => exact List.mem_append_right _ List.mem_cons_self
  | plain successor => exact successor

theorem Arrives.reachable {block : Nat} (arrives : Arrives graph pool height block) :
    graph.Reachable block := by
  induction arrives with
  | start => exact .refl
  | thrown before covers ih => exact ih.tail (.inr ⟨_, covers, rfl⟩)
  | along before there through enough carries ih =>
    refine ih.tail (.inl ?_)
    rw [FlowGraph.successors, there]
    exact carries.successor

/-! ## The whole walk -/

/-- What the walk knows of a block that it has taken up. -/
structure Exhausted (graph : FlowGraph) (pool : Pool) (height : Nat → Nat) (block known peak : Nat) :
    Prop where
  arrives : Arrives graph pool height block
  agrees : known = height block
  counted : ∃ code, graph.blocks[block]? = some code ∧
    (∀ site, ¬LacksIn pool code (height block) site) ∧
      ∀ place top, HeightAt pool code (height block) place top → top ≤ peak

/-- A block that control arrives at, with its height. -/
inductive Expected (graph : FlowGraph) (pool : Pool) (height : Nat → Nat) : Entry → Prop
  | entered {block : Nat} (arrives : Arrives graph pool height block) :
      Expected graph pool height (block, height block)

theorem Expected.inside (closed : graph.Closed) {entry : Entry}
    (expected : Expected graph pool height entry) : entry.1 < graph.blocks.size := by
  cases expected with
  | entered arrives => exact closed.reachable arrives.reachable

/-- The height at which a block is expected is one of those that control reaches. -/
theorem Expected.mem_heights (closed : graph.Closed) {entry : Entry}
    (expected : Expected graph pool height entry) : entry.2 ∈ Heights graph pool height := by
  have inside := expected.inside closed
  cases expected with
  | @entered block arrives =>
    exact ⟨block, _, 0, arrives.reachable, Array.getElem?_eq_getElem inside, .entry⟩

variable (closed : graph.Closed) (agreeing : Agreeing graph pool height)
  (effects : ∀ code ∈ graph.blocks, ∀ instruction ∈ code.instructions,
    ∃ effect, instruction.stackEffect pool = .ok effect)

section

include agreeing

theorem Agreeing.expected_start : Expected graph pool height (0, 0) := by
  have first : Expected graph pool height (0, height 0) := .entered .start
  rwa [agreeing.start] at first

/-- A block at its height leads to blocks at their heights. -/
theorem Agreeing.expected {block : Nat} {code : CodeBlock} {level : Level}
    (arrives : Arrives graph pool height block) (there : graph.blocks[block]? = some code)
    (counted : Counted pool code (height block) level) (enough : code.branch.pops ≤ level.height)
    {entry : Entry}
    (member : entry ∈ ((graph.handlersOf block).map fun handler => (handler.entry, 1)) ++
      exits (level.height - code.branch.pops) code.branch) : Expected graph pool height entry := by
  rcases List.mem_append.1 member with caught | onward
  · obtain ⟨handler, covers, rfl⟩ := List.mem_map.1 caught
    rw [← agreeing.handlers block handler arrives covers]
    exact .entered (.thrown arrives covers)
  · obtain ⟨target, entered⟩ := entry
    have carries := mem_exits.1 onward
    rw [← agreeing.edges block code _ _ _ arrives there counted.final enough carries]
    exact .entered (.along arrives there counted.final enough carries)

end

include effects

/-- A block fails only because it lacks operands. -/
theorem lacks_of_leave {block known : Nat} {code : CodeBlock} {fault : Fault}
    (expected : Expected graph pool height (block, known))
    (there : graph.blocks[block]? = some code)
    (left : leave graph pool block known code = .error fault) :
    ∃ site, fault = .stackUnderflow site ∧ Lacks graph pool height site := by
  cases expected with
  | entered arrives =>
    have outcome := leave_counted graph block (height block)
      (effects code (Array.mem_of_getElem? there))
    rcases outcome with ⟨_, _, _, left', -⟩ | ⟨site, left', lacks⟩
    · cases left.symm.trans left'
    · obtain rfl := Except.error.inj (left.symm.trans left')
      exact ⟨site, rfl, block, code, arrives.reachable, there, lacks⟩

include agreeing closed

/-- What leaving a block establishes of it and of what it leads to. -/
theorem leave_exhausted {block known reached : Nat} {code : CodeBlock} {next : List Entry}
    (expected : Expected graph pool height (block, known))
    (there : graph.blocks[block]? = some code)
    (left : leave graph pool block known code = .ok (reached, next)) :
    Exhausted graph pool height block known reached ∧
      (∀ entry ∈ next, Expected graph pool height entry) ∧ reached ∈ Heights graph pool height := by
  cases expected with
  | entered arrives =>
    have outcome := leave_counted graph block (height block)
      (effects code (Array.mem_of_getElem? there))
    rcases outcome with ⟨level, _, _, left', counted, enough, isReached, isNext⟩ | ⟨site, left', -⟩
    · obtain ⟨rfl, rfl⟩ := Prod.mk.inj (Except.ok.inj (left.symm.trans left'))
      have onward : ∀ entry ∈ next, Expected graph pool height entry := fun entry member =>
        agreeing.expected arrives there counted enough (isNext ▸ member)
      refine ⟨⟨arrives, rfl, code, there, counted.no_lack enough, fun place top here => ?_⟩,
        onward, ?_⟩
      · rw [isReached]
        exact Nat.le_trans (counted.bounded place top here) (le_foldl_max _ _)
      · rcases foldl_max_mem (next.map Prod.snd) level.peak with same | member
        · obtain ⟨place, here⟩ := counted.attained
          exact ⟨block, code, place, arrives.reachable, there, by rwa [isReached, same]⟩
        · rw [← isReached] at member
          obtain ⟨entry, isNext', rfl⟩ := List.mem_map.1 member
          exact (onward entry isNext').mem_heights closed
    · cases left.symm.trans left'

/-- The walk fails if an instruction or a branch lacks operands, and otherwise finds the
greatest height. -/
theorem walk_exact :
    (∃ site, walk graph pool (Array.replicate graph.blocks.size none) 0 [(0, 0)] =
        .error (.stackUnderflow site) ∧ Lacks graph pool height site) ∨
      ∃ top, walk graph pool (Array.replicate graph.blocks.size none) 0 [(0, 0)] = .ok top ∧
        (∀ site, ¬Lacks graph pool height site) ∧ IsGreatest (Heights graph pool height) top := by
  have mono : ∀ block known peak more, Exhausted graph pool height block known peak →
      peak ≤ more → Exhausted graph pool height block known more := by
    rintro block known peak more ⟨arrives, agrees, code, there, noLack, bounded⟩ le
    exact ⟨arrives, agrees, code, there, noLack,
      fun place top here => Nat.le_trans (bounded place top here) le⟩
  have ending := visits_ending mono (fun _ => Expected.inside closed)
    (fun block known code reached next expects there left =>
      ⟨(leave_exhausted closed agreeing effects expects there left).1,
        (leave_exhausted closed agreeing effects expects there left).2.1⟩)
    (tour_start 0 agreeing.expected_start)
  rw [walk_eq_visits]
  generalize visits graph pool _ _ _ = result at ending
  cases ending with
  | failed expects there left =>
    obtain ⟨site, rfl, lacks⟩ := lacks_of_leave effects expects there left
    exact .inl ⟨site, rfl, lacks⟩
  | @done last top tour kept raised =>
    have taken : ∀ block, graph.Reachable block → ∃ code, graph.blocks[block]? = some code ∧
        (∀ site, ¬LacksIn pool code (height block) site) ∧
          ∀ place other, HeightAt pool code (height block) place other → other ≤ top := by
      intro block reachable
      obtain ⟨known, isKnown⟩ := tour.reachable (kept 0 (.inr List.mem_cons_self)) reachable
      exact (tour.bounded block known isKnown).counted
    refine .inr ⟨top, rfl, ?_, ?_, ?_⟩
    · rintro site ⟨block, code, reachable, there, lacks⟩
      obtain ⟨code', there', noLack, -⟩ := taken block reachable
      obtain rfl := Option.some.inj (there.symm.trans there')
      exact noLack site lacks
    · rcases raised with rfl | ⟨block, known, code, next, expects, there, left⟩
      · exact agreeing.expected_start.mem_heights closed
      · exact (leave_exhausted closed agreeing effects expects there left).2.2
    · rintro other ⟨block, code, place, reachable, there, here⟩
      obtain ⟨code', there', -, bounded⟩ := taken block reachable
      obtain rfl := Option.some.inj (there.symm.trans there')
      exact bounded place other here

end

/-! ## Local variables -/

theorem blockLocals_le_iff {code : CodeBlock} {bound : Nat} :
    blockLocals code ≤ bound ↔
      (∀ instruction ∈ code.instructions, ∀ slot width,
        instruction.localAccess? = some (slot, width) → slot.toNat + width ≤ bound) ∧
      ∀ slot, code.branch = .ret slot → slot.toNat + 1 ≤ bound := by
  rw [blockLocals, ← Array.foldl_toList]
  generalize isUsed : List.foldl _ 0 code.instructions.toList = used
  have bounds : used ≤ bound ↔ ∀ instruction ∈ code.instructions, ∀ slot width,
      instruction.localAccess? = some (slot, width) → slot.toNat + width ≤ bound := by
    rw [← isUsed, @foldl_le_iff _ _ (fun instruction => ∀ slot width,
      instruction.localAccess? = some (slot, width) → slot.toNat + width ≤ bound)]
    · simp only [Array.mem_toList_iff, Nat.zero_le, true_and]
    · intro most instruction
      cases accesses : instruction.localAccess? with
      | none => simp
      | some access =>
        obtain ⟨slot, width⟩ := access
        simp
  rw [← bounds]
  split
  · next slot returns =>
    rw [Nat.max_le, returns]
    exact and_congr_right fun _ => ⟨fun le _ same => Branch.ret.inj same ▸ le, fun all => all slot rfl⟩
  · next other => exact (and_iff_left fun slot returns => absurd returns (other slot)).symm

/-- What has the same upper bounds as some numbers is the greatest of them. -/
theorem isGreatest_of_le_iff {numbers : Set Nat} {top : Nat} (some_ : numbers.Nonempty)
    (bounds : ∀ bound, top ≤ bound ↔ bound ∈ upperBounds numbers) : IsGreatest numbers top := by
  have least : IsLUB numbers top := isLUB_iff_le_iff.2 bounds
  rw [← least.csSup_eq some_]
  exact ⟨Nat.sSup_mem some_ ⟨top, least.1⟩, fun number member => le_csSup ⟨top, least.1⟩ member⟩

theorem localsOf_isGreatest (graph : FlowGraph) (parameters : Nat) :
    IsGreatest {slots | Slots graph parameters slots} (localsOf graph.blocks parameters) := by
  refine isGreatest_of_le_iff ⟨parameters, .parameters⟩ fun bound => ?_
  rw [localsOf_le_iff]
  constructor
  · rintro ⟨onParameters, onBlocks⟩ slots needed
    cases needed with
    | parameters => exact onParameters
    | access there member accesses =>
      exact (blockLocals_le_iff.1 (onBlocks _ (Array.mem_toList_iff.2 there))).1 _ member _ _ accesses
    | ret there returns =>
      exact (blockLocals_le_iff.1 (onBlocks _ (Array.mem_toList_iff.2 there))).2 _ returns
  · intro above
    refine ⟨above .parameters, fun code member => blockLocals_le_iff.2 ⟨?_, ?_⟩⟩
    · exact fun instruction inside slot width accesses =>
        above (.access (Array.mem_toList_iff.1 member) inside accesses)
    · exact fun slot returns => above (.ret (Array.mem_toList_iff.1 member) returns)

/-! ## The limits -/

/-- If there are heights at which control enters every block by whatever path, then the limits
cannot be computed just where control reaches an instruction or a branch that lacks operands.
Otherwise they are the greatest height that control reaches and the greatest number of slots
that are needed, if these are small enough to be written. -/
theorem compute_exact {graph : FlowGraph} {pool : Pool} {height : Nat → Nat} (closed : graph.Closed)
    (effects : ∀ code ∈ graph.blocks, ∀ instruction ∈ code.instructions,
      ∃ effect, instruction.stackEffect pool = .ok effect)
    (agreeing : Agreeing graph pool height) (parameters : Nat) :
    ((∃ site, compute graph pool parameters = .error (.stackUnderflow site)) ↔
        ∃ site, Lacks graph pool height site) ∧
      (∀ site, compute graph pool parameters = .error (.stackUnderflow site) →
        Lacks graph pool height site) ∧
      ((∀ site, ¬Lacks graph pool height site) → ∃ stack locals,
        IsGreatest (Heights graph pool height) stack ∧
          IsGreatest {slots | Slots graph parameters slots} locals ∧
            compute graph pool parameters =
              if 65536 ≤ stack then .error (.maxStackOverflow stack)
              else if 65536 ≤ locals then .error (.maxLocalsOverflow locals)
              else .ok ⟨stack, locals⟩) := by
  rcases walk_exact closed agreeing effects with ⟨site, walked, lacks⟩ | ⟨top, walked, noLack, greatest⟩
  · have failed : compute graph pool parameters = .error (.stackUnderflow site) := by
      rw [compute, walked]
      rfl
    refine ⟨iff_of_true ⟨site, failed⟩ ⟨site, lacks⟩, fun other run => ?_,
      fun noLack => absurd lacks (noLack site)⟩
    obtain rfl := Fault.stackUnderflow.inj (Except.error.inj (failed.symm.trans run))
    exact lacks
  · have computed : compute graph pool parameters =
        if 65536 ≤ top then .error (.maxStackOverflow top)
        else if 65536 ≤ localsOf graph.blocks parameters then
          .error (.maxLocalsOverflow (localsOf graph.blocks parameters))
        else .ok ⟨top, localsOf graph.blocks parameters⟩ := by
      rw [compute, walked]
      rfl
    have noUnderflow : ∀ site, compute graph pool parameters ≠ .error (.stackUnderflow site) := by
      intro site run
      rw [computed] at run
      split at run
      · cases run
      · split at run
        · cases run
        · cases run
    exact ⟨iff_of_false (not_exists.2 noUnderflow) (not_exists.2 noLack),
      fun site run => absurd run (noUnderflow site),
      fun _ => ⟨top, _, greatest, localsOf_isGreatest graph parameters, computed⟩⟩

/-! ## A method that calls a subroutine -/

/-- A method that drops a long into its local variables and calls a subroutine, with a handler
for the code before the call. -/
def calling : FlowGraph where
  blocks := #[
    ⟨none, #[.pushLong 0, .store .long 1], .jsr 2 1⟩,
    ⟨none, #[], .returns none⟩,
    ⟨none, #[.store .reference 0], .ret 0⟩,
    ⟨none, #[], .throws⟩]
  handlers := [⟨0, 1, 3, none⟩]
  labels := ∅

/-- The subroutine is entered with its return address, and the handler with the exception. -/
def callingHeight (block : Nat) : Nat :=
  if block < 2 then 0 else 1

theorem calling_closed : calling.Closed where
  some_ := by decide
  successors := by
    have all : ∀ block < calling.blocks.size,
        ∀ target ∈ calling.successors block, target < calling.blocks.size := by decide
    intro block target successor
    by_cases inside : block < calling.blocks.size
    · exact all block inside target successor
    · rw [FlowGraph.successors, Array.getElem?_eq_none (Nat.le_of_not_lt inside)] at successor
      cases successor
  handlers := by decide

theorem calling_agreeing : Agreeing calling .empty callingHeight where
  start := rfl
  handlers block handler _ covers := by
    have member := List.mem_of_mem_filter covers
    obtain rfl := List.mem_singleton.1 member
    rfl
  edges block code last target entered _ there through _ carries := by
    match block with
    | 0 =>
      obtain rfl := Option.some.inj there
      have pushed : HeightAt .empty calling.blocks[0] 0 1 2 :=
        @HeightAt.after .empty _ 0 0 0 (.pushLong 0) ⟨0, 2⟩ .entry rfl rfl (Nat.zero_le _)
      have stored : HeightAt .empty calling.blocks[0] 0 2 0 :=
        @HeightAt.after .empty _ 0 1 2 (.store .long 1) ⟨2, 0⟩ pushed rfl rfl (Nat.le_refl 2)
      obtain rfl := through.unique stored
      cases carries with
      | called | returned => rfl
      | plain _ noCall => exact absurd rfl (noCall 2 1).1
    | 1 | 2 | 3 =>
      obtain rfl := Option.some.inj there
      cases carries.successor

theorem calling_walk : walk calling .empty (Array.replicate calling.blocks.size none) 0 [(0, 0)] =
    .ok 2 :=
  calc
    _ = walk calling .empty #[none, none, none, none] 0 [(0, 0)] := rfl
    _ = walk calling .empty #[some 0, none, none, none] 2 [(1, 0), (2, 1), (3, 1)] :=
        walk_fresh 2 [(3, 1), (2, 1), (1, 0)] rfl rfl rfl
    _ = walk calling .empty #[some 0, some 0, none, none] 2 [(2, 1), (3, 1)] :=
        walk_fresh 0 [] rfl rfl rfl
    _ = walk calling .empty #[some 0, some 0, some 1, none] 2 [(3, 1)] :=
        walk_fresh 1 [] rfl rfl rfl
    _ = walk calling .empty #[some 0, some 0, some 1, some 1] 2 [] :=
        walk_fresh 1 [] rfl rfl rfl
    _ = .ok 2 := by rw [walk]

theorem calling_compute : compute calling .empty 0 = .ok ⟨2, 3⟩ := by
  rw [compute, calling_walk]
  rfl

/-- Without a parameter the method needs two operand slots and three of local variables. -/
theorem compute_exact_calling :
    Agreeing calling .empty callingHeight ∧ (∀ site, ¬Lacks calling .empty callingHeight site) ∧
      IsGreatest (Heights calling .empty callingHeight) 2 ∧
        IsGreatest {slots | Slots calling 0 slots} 3 ∧ compute calling .empty 0 = .ok ⟨2, 3⟩ := by
  have effects : ∀ code ∈ calling.blocks, ∀ instruction ∈ code.instructions,
      ∃ effect, instruction.stackEffect .empty = .ok effect := by
    have all : ∀ code ∈ calling.blocks, ∀ instruction ∈ code.instructions,
        (instruction.stackEffect .empty).toOption.isSome := by decide
    intro code there instruction member
    have counted := all code there instruction member
    cases result : instruction.stackEffect .empty with
    | ok effect => exact ⟨effect, rfl⟩
    | error fault =>
      rw [result] at counted
      cases counted
  obtain ⟨fails, -, succeeds⟩ := compute_exact calling_closed effects calling_agreeing 0
  have noLack : ∀ site, ¬Lacks calling .empty callingHeight site := by
    intro site lacks
    obtain ⟨other, failed⟩ := fails.2 ⟨site, lacks⟩
    cases calling_compute.symm.trans failed
  obtain ⟨stack, locals, highest, most, computed⟩ := succeeds noLack
  have limits := calling_compute.symm.trans computed
  split at limits
  · cases limits
  · split at limits
    · cases limits
    · obtain ⟨rfl, rfl⟩ := Limits.mk.inj (Except.ok.inj limits)
      exact ⟨calling_agreeing, noLack, highest, most, calling_compute⟩

end Limits
end ClassFile
