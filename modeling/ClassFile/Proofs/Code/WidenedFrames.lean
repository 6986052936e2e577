import ClassFile.Proofs.Code.Replaying

namespace ClassFile
namespace Assembly

/-!
# Frames after widened branches

What a widened branch used to fall into follows a jump in the end, so it is given the
frame that replaying finds.  The frames that are supplied stay, and no other block is
given one.
-/

/-- The frame of a block, if it has one. -/
def frameOf? (blocks : Array CodeBlock) (block : Nat) : Option BlockFrame :=
  blocks[block]?.bind Block.frame

/-- Give a frame to the block that a widened branch used to fall into. -/
def giveWidenedFrame (context : CodeContext) (locals count : Nat) (blocks : Array CodeBlock)
    (block : Nat) : Except Fault (Array CodeBlock) :=
  match widenedNext? count blocks block with
  | none => return blocks
  | some next =>
    match blocks[next]? with
    | some ⟨none, instructions, branch⟩ => do
      let frame ← context.replay locals block
      return blocks.setIfInBounds next ⟨some frame, instructions, branch⟩
    | _ => return blocks

theorem addWidenedFrames_eq (context : CodeContext) (locals : Nat) (blocks : Array CodeBlock) :
    addWidenedFrames context locals blocks =
      (List.range context.graph.blocks.size).foldlM
        (giveWidenedFrame context locals context.graph.blocks.size) blocks := by
  rfl

/-- Blocks after some branches were asked for what they used to fall into. -/
structure Given (context : CodeContext) (locals count : Nat) (names : List Nat)
    (blocks others : Array CodeBlock) : Prop where
  sameCode : SameCode blocks others
  kept : ∀ block frame, frameOf? blocks block = some frame → frameOf? others block = some frame
  given : ∀ block ∈ names, ∀ next, widenedNext? count blocks block = some next →
    next < blocks.size → ∃ frame, frameOf? others next = some frame
  only : ∀ block frame, frameOf? others block = some frame → frameOf? blocks block = some frame ∨
    ∃ before ∈ names, widenedNext? count blocks before = some block ∧
      context.replay locals before = .ok frame

variable {context : CodeContext} {locals count : Nat} {blocks others : Array CodeBlock}
  {names : List Nat} {block : Nat}

/-- The two blocks that widening puts after a branch are found by where it leads. -/
theorem widenedNext?_eq_some {next : Nat} :
    widenedNext? count blocks block = some next ↔
      ∃ code added around, blocks[block]? = some code ∧ code.branch.next? = some added ∧
        count ≤ added ∧ blocks[added]? = some around ∧ around.branch = .goto next := by
  unfold widenedNext?
  constructor
  · intro found
    obtain ⟨code, there, found⟩ := Option.bind_eq_some_iff.1 found
    obtain ⟨added, falls, found⟩ := Option.bind_eq_some_iff.1 found
    split at found
    · cases found
    · next beyond =>
      obtain ⟨around, there', found⟩ := Option.bind_eq_some_iff.1 found
      split at found
      · next branch =>
        obtain rfl := Option.some.inj found
        exact ⟨code, added, around, there, falls, Nat.le_of_not_lt beyond, there', branch⟩
      · cases found
  · rintro ⟨code, added, around, there, falls, beyond, there', branch⟩
    refine Option.bind_eq_some_iff.2 ⟨code, there, Option.bind_eq_some_iff.2 ⟨added, falls, ?_⟩⟩
    rw [if_neg (Nat.not_lt_of_le beyond)]
    refine Option.bind_eq_some_iff.2 ⟨around, there', ?_⟩
    rw [branch]

theorem SameCode.symm (same : SameCode blocks others) : SameCode others blocks :=
  fun block => (same block).symm

theorem SameCode.trans {more : Array CodeBlock} (same : SameCode blocks others)
    (onward : SameCode others more) : SameCode blocks more :=
  fun block => (same block).trans (onward block)

theorem SameCode.widenedNext? (same : SameCode blocks others) {next : Nat}
    (found : widenedNext? count blocks block = some next) :
    Assembly.widenedNext? count others block = some next := by
  obtain ⟨code, added, around, there, falls, beyond, there', branch⟩ :=
    widenedNext?_eq_some.1 found
  obtain ⟨frame, found⟩ := same.exists_code there
  obtain ⟨frame', found'⟩ := same.exists_code there'
  exact widenedNext?_eq_some.2 ⟨_, added, _, found, falls, beyond, found', branch⟩

theorem Given.refl
    (given : ∀ next, widenedNext? count blocks block = some next → next < blocks.size →
      ∃ frame, frameOf? blocks next = some frame) :
    Given context locals count [block] blocks blocks := by
  refine ⟨.refl blocks, fun _ _ found => found, fun other member => ?_, fun _ _ found => .inl found⟩
  obtain rfl := List.mem_singleton.1 member
  exact given

/-- A frame that is set is found, and others stay. -/
theorem frameOf?_setFrame {next : Nat} {code : CodeBlock} (there : blocks[next]? = some code)
    (frame : BlockFrame) (other : Nat) :
    frameOf? (blocks.setIfInBounds next ⟨some frame, code.instructions, code.branch⟩) other =
      if other = next then some frame else frameOf? blocks other := by
  split
  · next here =>
    rw [here, frameOf?, Array.getElem?_setIfInBounds_self_of_lt (Array.getElem?_eq_some_iff.1 there).1]
    rfl
  · next apart => rw [frameOf?, Array.getElem?_setIfInBounds_ne (Ne.symm apart), frameOf?]

/-- A block is given the frame that replaying finds, unless it has one already. -/
theorem giveWidenedFrame_cases (context : CodeContext) (locals count : Nat)
    (blocks : Array CodeBlock) (block : Nat) :
    (giveWidenedFrame context locals count blocks block = .ok blocks ∧
      ∀ next, widenedNext? count blocks block = some next → next < blocks.size →
        ∃ frame, frameOf? blocks next = some frame) ∨
    ∃ next code, widenedNext? count blocks block = some next ∧ blocks[next]? = some code ∧
      code.frame = none ∧ giveWidenedFrame context locals count blocks block =
        (fun frame => blocks.setIfInBounds next ⟨some frame, code.instructions, code.branch⟩) <$>
          context.replay locals block := by
  unfold giveWidenedFrame
  split
  · next nothing => exact .inl ⟨rfl, fun next found => by cases nothing.symm.trans found⟩
  · next next found =>
    split
    · next instructions branch there =>
      refine .inr ⟨next, _, found, there, rfl, ?_⟩
      rw [map_eq_pure_bind]
    · next other =>
      refine .inl ⟨rfl, fun after isAfter inside => ?_⟩
      obtain rfl := Option.some.inj (found.symm.trans isAfter)
      have there := Array.getElem?_eq_getElem inside
      rcases isCode : blocks[next] with ⟨_ | frame, instructions, branch⟩
      · exact (other instructions branch (there.trans (congrArg some isCode))).elim
      · exact ⟨frame, by rw [frameOf?, there, isCode]; rfl⟩

theorem giveWidenedFrame_given
    (replays : ∀ next, widenedNext? count blocks block = some next →
      ∃ frame, context.replay locals block = .ok frame) :
    ∃ others, giveWidenedFrame context locals count blocks block = .ok others ∧
      Given context locals count [block] blocks others := by
  rcases giveWidenedFrame_cases context locals count blocks block with
    ⟨run, given⟩ | ⟨next, code, found, there, missing, run⟩
  · exact ⟨blocks, run, .refl given⟩
  · obtain ⟨frame, replayed⟩ := replays next found
    have frames := frameOf?_setFrame there frame
    refine ⟨_, run.trans (map_eq_ok.2 ⟨frame, replayed, rfl⟩), ?_, ?_, ?_, ?_⟩
    · exact SameCode.setFrame (.refl blocks) there (some frame)
    · intro other known isKnown
      rw [frames, if_neg, isKnown]
      rintro rfl
      rw [frameOf?, there, Option.bind_some, missing] at isKnown
      cases isKnown
    · intro other member after isAfter _
      obtain rfl := List.mem_singleton.1 member
      obtain rfl := Option.some.inj (found.symm.trans isAfter)
      exact ⟨frame, (frames next).trans (if_pos rfl)⟩
    · intro other known isKnown
      rw [frames] at isKnown
      split at isKnown
      · next here =>
        subst here
        obtain rfl := Option.some.inj isKnown
        exact .inr ⟨block, List.mem_singleton_self block, found, replayed⟩
      · exact .inl isKnown

theorem foldlM_given
    (replays : ∀ block ∈ names, ∀ next, widenedNext? count blocks block = some next →
      ∃ frame, context.replay locals block = .ok frame) :
    ∃ others, names.foldlM (giveWidenedFrame context locals count) blocks = .ok others ∧
      Given context locals count names blocks others := by
  induction names generalizing blocks with
  | nil =>
    exact ⟨blocks, rfl, .refl blocks, fun _ _ found => found, fun _ member => (by cases member),
      fun _ _ found => .inl found⟩
  | cons name names ih =>
    obtain ⟨middle, first, given⟩ := giveWidenedFrame_given (replays name List.mem_cons_self)
    obtain ⟨others, rest, given'⟩ := ih fun block member next found =>
      replays block (List.mem_cons_of_mem _ member) next (given.sameCode.symm.widenedNext? found)
    refine ⟨others, foldlM_cons_eq_ok.2 ⟨middle, first, rest⟩, ?_, ?_, ?_, ?_⟩
    · exact given.sameCode.trans given'.sameCode
    · exact fun block frame found => given'.kept block frame (given.kept block frame found)
    · intro block member next found inside
      rcases List.mem_cons.1 member with rfl | later
      · obtain ⟨frame, isFrame⟩ := given.given block (List.mem_singleton_self block) next found inside
        exact ⟨frame, given'.kept next frame isFrame⟩
      · exact given'.given block later next (given.sameCode.widenedNext? found)
          (given.sameCode.size_eq ▸ inside)
    · intro block frame found
      rcases given'.only block frame found with before | ⟨source, member, leads, replayed⟩
      · rcases given.only block frame before with known | ⟨source, member, leads, replayed⟩
        · exact .inl known
        · exact .inr ⟨source, List.mem_singleton.1 member ▸ List.mem_cons_self, leads, replayed⟩
      · exact .inr ⟨source, List.mem_cons_of_mem _ member,
          given.sameCode.symm.widenedNext? leads, replayed⟩

/-- Frames are added if replaying never fails where one is. -/
theorem addWidenedFrames_given
    (replays : ∀ block < context.graph.blocks.size, ∀ next,
      widenedNext? context.graph.blocks.size blocks block = some next →
        ∃ frame, context.replay locals block = .ok frame) :
    ∃ others, addWidenedFrames context locals blocks = .ok others ∧
      Given context locals context.graph.blocks.size (List.range context.graph.blocks.size)
        blocks others :=
  foldlM_given fun block member => replays block (List.mem_range.1 member)

end Assembly
end ClassFile
