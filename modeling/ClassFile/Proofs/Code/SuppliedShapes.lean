import ClassFile.Proofs.Code.SuppliedFrames

namespace ClassFile
namespace Assembly

/-!
# The shape of supplied frames

A frame that is supplied or found by replaying has as many locals and operands as the
one that is computed for the same place, and mentions only blocks that are there.  A
block without bytes passes its frame on to the next, where that holds too.
-/

open Inference (Stable Reached Traces)

variable {graph supplied : FlowGraph} {frames : Array (Option BlockFrame)} {laid other : LaidCode}
  {far : Finset Nat} {parts : Nat → List Nat} {block part next : Nat} {frame : BlockFrame}
  {code : CodeBlock} {method : MethodContext} {pool : Pool} {locals : Nat}

/-- A frame is like the one computed for a part. -/
structure LikeComputed (graph : FlowGraph) (frames : Array (Option BlockFrame)) (laid : LaidCode)
    (locals part : Nat) (frame : BlockFrame) : Prop where
  locals : frame.locals.length = locals
  made : ∀ site, frame.Mentions site → site < graph.blocks.size
  height : ∀ known, frames[part]? = some (some known) → frame.stack.length = known.stack.length
  added : graph.blocks.size ≤ part → frameOf? laid.blocks part = some frame

/-! ## Blocks without bytes -/

theorem Instruction.width_pos (instruction : Instruction) : 0 < instruction.width := by
  rw [Instruction.width]
  omega

theorem eq_nil_of_bodyWidth (empty : code.bodyWidth = 0) : code.instructions.toList = [] := by
  rw [Block.bodyWidth] at empty
  cases isCode : code.instructions.toList with
  | nil => rfl
  | cons instruction instructions =>
    rw [isCode, Wide.total_cons] at empty
    have : 0 < Wide.width instruction := Instruction.width_pos instruction
    omega

/-- What a block without bytes passes on is the frame it is given. -/
theorem stepBlock_of_empty {context : CodeContext} {out : BlockFrame}
    (there : context.graph.blocks[block]? = some code)
    (empty : code.bodyWidth = 0 ∧ code.branch.width = 0) (falls : code.branch.next? = some next)
    (passes : context.stepBlock frame block = .ok out) : out = frame := by
  rw [CodeContext.stepBlock, there] at passes
  obtain ⟨last, through, left⟩ := bind_eq_ok.1 passes
  rw [eq_nil_of_bodyWidth empty.1] at through
  obtain rfl := pure_eq_ok.1 through
  have silent := empty.2
  cases isBranch : code.branch with
  | fallThrough =>
    rw [isBranch] at left
    exact (Except.ok.inj left).symm
  | conditional | jsr | jsrWide =>
    rw [isBranch] at silent
    cases silent
  | _ =>
    rw [isBranch] at falls
    cases falls

theorem height_of_empty
    (stable : Stable FrameNear ⟨graph, method, pool⟩ (fun _ frame => frame.locals.length = locals)
      ⟨frames, []⟩)
    (there : graph.blocks[block]? = some code) (empty : code.bodyWidth = 0 ∧ code.branch.width = 0)
    (falls : code.branch.next? = some next) (found : frames[block]? = some (some frame))
    {known : BlockFrame} (isKnown : frames[next]? = some (some known)) :
    frame.stack.length = known.stack.length := by
  have settled := stable.done found there
  obtain ⟨last, out, through, left⟩ := settled.passes.along
  obtain ⟨known', isKnown', near⟩ := settled.covered next out (.along there through left
    (List.mem_append_right _ (Option.mem_toList.2 falls)))
  obtain rfl := Option.some.inj (Option.some.inj
    (isKnown.symm.trans (Inference.frame?_eq_some.1 isKnown')))
  have passes : CodeContext.stepBlock ⟨graph, method, pool⟩ frame block = .ok out := by
    rw [CodeContext.stepBlock, there]
    exact bind_eq_ok.2 ⟨last, through, left⟩
  rw [← stepBlock_of_empty there empty falls passes]
  exact near.stack.length_eq

section

variable (laidOut : Laid graph frames laid far parts)

include laidOut

/-- A part without bytes is a block that was recorded. -/
theorem Laid.block_of_empty (inside : block < graph.blocks.size) (member : part ∈ parts block)
    (empty : Layout.blockWidth laid.blocks part = 0) :
    part = block ∧ parts block = [block] ∧
      ∃ code, (live graph.blocks frames)[block]? = some code ∧ code.width = 0 := by
  obtain ⟨code, there⟩ : ∃ code, laid.blocks[part]? = some code :=
    ⟨_, Array.getElem?_eq_getElem (laidOut.inside (laidOut.mem_order inside member))⟩
  have here := laidOut.partOf inside member there
  rw [Layout.blockWidth, there] at empty
  generalize parts block = list at here ⊢
  cases here with
  | kept before => exact ⟨rfl, rfl, _, before, empty⟩
  | goto | jsr | conditional | around | onward =>
    -- A widened branch has bytes.
    exact absurd (Nat.add_eq_zero_iff.1 empty).2 (Nat.succ_ne_zero _)

/-- What comes after a part without bytes is the next block. -/
theorem Laid.next_of_empty {front back : List Nat} (order : laid.order = front ++ part :: next :: back)
    (empty : Layout.blockWidth laid.blocks part = 0) :
    next = part + 1 ∧ next < graph.blocks.size ∧
      ∃ code, (live graph.blocks frames)[part]? = some code ∧ code.width = 0 := by
  have distinct := laidOut.distinct
  have isPlaced : part ∈ laid.order := order ▸ List.mem_append_right _ List.mem_cons_self
  obtain ⟨block, inside, member⟩ := laidOut.exists_block isPlaced
  obtain ⟨rfl, alone, code, before, none⟩ := laidOut.block_of_empty inside member empty
  rw [order] at distinct
  obtain ⟨-, tail, apart⟩ := List.nodup_append.1 distinct
  have isNotBefore : part ∉ front := fun earlier => apart part earlier part List.mem_cons_self rfl
  have isNotAfter : part ∉ next :: back := (List.nodup_cons.1 tail).1
  have whole := laidOut.order_eq
  rw [order] at whole
  rcases Nat.lt_or_eq_of_le (Nat.succ_le_of_lt inside) with below | last
  · obtain ⟨earlier, later, range⟩ := exists_range_eq below
    obtain ⟨rest, head⟩ := laidOut.head below
    rw [range, List.flatMap_append, List.flatMap_cons, List.flatMap_cons, alone, head,
      List.singleton_append, List.cons_append] at whole
    obtain ⟨-, -, same⟩ := (List.append_cons_inj_of_notMem isNotBefore isNotAfter).1 whole
    obtain ⟨rfl, -⟩ := List.cons.inj same
    exact ⟨rfl, below, code, before, none⟩
  · rw [← last, List.range_succ, List.flatMap_append, List.flatMap_singleton, alone] at whole
    obtain ⟨-, -, same⟩ := (List.append_cons_inj_of_notMem isNotBefore isNotAfter).1 whole
    cases same

end

/-! ## Every frame is like the computed one -/

section

variable (inferred : Inferred graph frames)
  (stable : Stable FrameNear ⟨graph, method, pool⟩ (fun _ frame => frame.locals.length = locals)
    ⟨frames, []⟩)
  (traces : Traces ⟨graph, method, pool⟩ frames)

include inferred stable

include traces in
theorem Supplies.likeComputed (supplies : Supplies graph frames laid part frame) :
    LikeComputed graph frames laid locals part frame := by
  obtain ⟨block, found⟩ := supplies.inferred
  obtain ⟨code, there⟩ := stable.sound.code found
  constructor
  case locals => exact stable.sound.good block frame (Inference.frame?_eq_some.2 found)
  case made =>
    intro site mentions
    obtain ⟨⟨first, isFirst⟩, -⟩ := traces.origin block 0 frame site
      ⟨frame, code, found, there, Nat.zero_le _, rfl⟩ mentions
    rw [← inferred.size]
    exact (Array.getElem?_eq_some_iff.1 isFirst).1
  case height =>
    intro known isKnown
    have inside := (Array.getElem?_eq_some_iff.1 isKnown).1
    rw [inferred.size] at inside
    rw [Option.some.inj (Option.some.inj ((supplies.own inside).symm.trans isKnown))]
  case added => exact fun _ => supplies.computed

/-- What replaying finds behind a split branch is like what is computed there. -/
theorem Replayed.likeComputed (replayed : Replayed graph frames block frame)
    (there : graph.blocks[block]? = some code) (falls : code.branch.next? = some (block + 1))
    (reached : ∃ frame, frames[block]? = some (some frame)) :
    LikeComputed graph frames laid locals (block + 1) frame := by
  obtain ⟨known, isKnown⟩ := inferred.edge there reached
    (List.mem_append_right _ (Option.mem_toList.2 falls))
  have near := replayed.near code _ known there falls isKnown
  constructor
  case locals =>
    rw [near.locals.length_eq]
    exact stable.sound.good _ known (Inference.frame?_eq_some.2 isKnown)
  case made => exact replayed.made
  case height =>
    intro known' isKnown'
    rw [← Option.some.inj (Option.some.inj (isKnown.symm.trans isKnown'))]
    exact near.stack.length_eq
  case added =>
    have inside := (Array.getElem?_eq_some_iff.1 isKnown).1
    rw [inferred.size] at inside
    exact fun beyond => absurd inside (Nat.not_lt_of_le beyond)

variable {blocks : Array CodeBlock} (laidOut : Laid graph frames laid far parts)
  (alive : AllLive graph frames) (isSupplied : graph.Supplied frames supplied)
  (rewritten : ∀ block < graph.blocks.size, Widening.Rewritten .nop none
    (alignSwitches supplied.blocks) blocks far block (parts block))
  (same : SameCode laid.blocks blocks)
  (given : Given ⟨supplied, method, pool⟩ locals graph.blocks.size (List.range graph.blocks.size)
    blocks other.blocks)
  (order_eq : other.order = laid.order)

include laidOut alive isSupplied rewritten same given

omit alive stable in
/-- The block after one without bytes that needs no frame is only fallen into. -/
theorem Laid.fallen_of_empty {front back : List Nat} {known : BlockFrame}
    (order : laid.order = front ++ part :: next :: back)
    (empty : Layout.blockWidth other.blocks part = 0) (unframed : frameOf? other.blocks next = none)
    (isKnown : frames[next]? = some (some known)) :
    next = part + 1 ∧ ¬graph.NeedsFrame (part + 1) ∧
      ∃ code earlier, graph.blocks[part]? = some code ∧
        (code.bodyWidth = 0 ∧ code.branch.width = 0) ∧ code.branch.next? = some (part + 1) ∧
          frames[part]? = some (some earlier) := by
  rw [← (same.trans given.sameCode).blockWidth_eq] at empty
  obtain ⟨rfl, below, code, before, none⟩ := laidOut.next_of_empty order empty
  have unneeded : ¬graph.NeedsFrame (part + 1) := by
    intro needs
    have kept := given.kept _ known
      ((own_framed inferred isSupplied rewritten below).2 ⟨needs, isKnown⟩)
    cases unframed.symm.trans kept
  obtain ⟨original, recorded, falls, earlier, found⟩ :=
    fallen_of_not_needsFrame inferred ⟨known, isKnown⟩ unneeded
  refine ⟨rfl, unneeded, original, earlier, recorded, ?_, falls, found⟩
  cases lives_of_live before with
  | @reached original' _ padding recorded' found' =>
    obtain rfl := Option.some.inj (recorded'.symm.trans recorded)
    obtain ⟨body, branch⟩ := Nat.add_eq_zero_iff.1 none
    refine ⟨body, ?_⟩
    rwa [withPadding_of_unpadded ?_] at branch
    cases isBranch : original'.branch with
    | tableSwitch | lookupSwitch =>
      rw [isBranch] at falls
      cases falls
    | _ => rfl
  | empty _ missing => cases found.symm.trans missing
  | buried missing => cases found.symm.trans missing

omit alive in
/-- A block without bytes has a frame that the next block has too, unless that needs one
of its own. -/
theorem Laid.passesOn {front back : List Nat} (order : laid.order = front ++ part :: next :: back) :
    other.PassesOn (LikeComputed graph frames laid locals) part next := by
  intro empty unframed frame like
  refine ⟨like.locals, like.made, fun known isKnown => ?_, fun beyond => ?_⟩
  · obtain ⟨rfl, -, code, earlier, recorded, none, falls, found⟩ :=
      laidOut.fallen_of_empty inferred isSupplied rewritten same given order empty unframed isKnown
    rw [like.height earlier found]
    exact height_of_empty stable recorded none falls found isKnown
  · rw [← (same.trans given.sameCode).blockWidth_eq] at empty
    exact absurd (laidOut.next_of_empty order empty).2.1 (Nat.not_lt_of_le beyond)

variable (usable : Usable ⟨graph, method, pool⟩ frames)
  (started : Reached FrameNear ⟨frames, []⟩ 0 (method.entryFrame.resize locals))
  (fits : method.entryFrame.locals.length ≤ locals)

include usable started fits traces

/-- Every frame in widened code is like the one computed for its part. -/
theorem Laid.likeComputed (isPlaced : part ∈ laid.order)
    (found : frameOf? other.blocks part = some frame) :
    LikeComputed graph frames laid locals part frame := by
  rcases laidOut.frame_cases inferred isSupplied rewritten same given alive isPlaced found with
    supplies | ⟨before, inside, first, split, rfl, replayed⟩
  · exact supplies.likeComputed inferred stable traces
  · obtain ⟨code, condition, target, there, branch, -, -, -⟩ := laidOut.split inferred inside split
    obtain ⟨original, recorded, -, sameNext⟩ := alive.original there
    have reached := alive.framed inferred there
      (Nat.add_pos_right _ (by rw [branch]; exact Nat.succ_pos 2))
    obtain ⟨frame', replayed', like⟩ :=
      replay_replayed stable usable isSupplied inferred traces started fits reached
    obtain rfl := Except.ok.inj (replayed.symm.trans replayed')
    exact like.likeComputed inferred stable recorded (by rw [sameNext, branch]; rfl) reached

include order_eq

/-- Recorded frames are like the computed ones of the bytes they stand at. -/
theorem Laid.recordedFrames_like :
    ∀ placed ∈ other.recordedFrames, other.FitsAt (LikeComputed graph frames laid locals) placed := by
  refine LaidCode.recordedFrames_fit (fun part isPlaced frame found => ?_) ?_
  · exact laidOut.likeComputed inferred stable traces alive isSupplied rewritten same given usable
      started fits (order_eq ▸ isPlaced) found
  · rw [List.isChain_iff_forall_rel_of_append_cons_cons]
    intro part next front back order
    exact laidOut.passesOn inferred stable isSupplied rewritten same given (order_eq ▸ order)

end

end Assembly
end ClassFile
