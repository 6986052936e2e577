import ClassFile.Proofs.Code.ExactFrames
import ClassFile.Proofs.Code.Visits

namespace ClassFile

/-!
# Computed and supplied frames agree

A body that is assembled with computed frames is assembled as the same code when it
carries these frames where they are needed, as long as no operand is ever unusable and no
code is dead.  Frames stand at the same offsets, also around branches that are widened,
and are the same frames where all chains of superclasses end at the root.
-/

open Assembly Hierarchy

/-- With the inferred frames supplied where they are needed, a body is assembled as with
computed frames, unless a class of a frame has no index of 16 bits.  In a hierarchy of
known and formed names where all chains of superclasses end at the root, assembling gives
the same image and the same pool. -/
theorem MethodBody.assemble_supplied {body other : MethodBody} {method : MethodContext}
    {graph supplied : FlowGraph} {limits : Limits} {frames : Array (Option BlockFrame)}
    {before after : Assembler.State} {hierarchy : Hierarchy} {image : CodeImage}
    (built : FlowGraph.ofItems body.items body.handlers false = .ok graph)
    (computed : Limits.compute graph before.pool method.parameterWidth = .ok limits)
    (infer : (CodeContext.inferFrames ⟨graph, method, before.pool⟩ limits.locals).run
      before.hierarchy = (.ok frames, hierarchy))
    (run : (body.assemble method .frames true).run before = (.ok image, after))
    (undead : ∀ block, (computedLayout graph.blocks frames).isDead block = false)
    (usable : Usable ⟨graph, method, before.pool⟩ frames)
    (built' : FlowGraph.ofItems other.items other.handlers true = .ok supplied)
    (isSupplied : graph.Supplied frames supplied)
    (framed : ∃ block frame, frameOf? supplied.blocks block = some frame) (wantsFrames : Bool) :
    (∃ result last, (other.assemble method .limits wantsFrames).run before = (result, last) ∧
      ((∃ image', result = .ok image' ∧ SameImage image after.pool image' last.pool) ∨
        ∃ index, 65536 ≤ index ∧ result = .error (.codec (.wideIndex index)))) ∧
      (Learned before.hierarchy → Rooted before.hierarchy.known →
        NamesFormed before.hierarchy.known ⟨graph, method, before.pool⟩ →
          (other.assemble method .limits wantsFrames).run before =
            (.ok image, ⟨after.pool, before.hierarchy⟩)) := by
  have inferred := @inferred_of_run frames ⟨graph, method, before.pool⟩ _ _ _ _ _ _ built infer
  obtain ⟨stable, started⟩ := Inference.inferFrames_near inferred.closed infer
  have traces : Inference.Traces ⟨graph, method, before.pool⟩ frames := by
    refine (Inference.inferFrames_traces (FlowGraph.newFirst_of_ofItems built) limits.locals
      before.hierarchy).1 frames ?_
    rw [infer]
  obtain ⟨parameters, small⟩ := Limits.locals_bounds computed
  rw [← method.length_entryFrame] at parameters
  have alive : AllLive graph frames := by
    intro block missing
    by_contra bytes
    have dead := (isDead_iff inferred).2 ⟨missing, Nat.pos_of_ne_zero bytes⟩
    cases (undead block).symm.trans dead
  obtain ⟨others, far, parts, added, twice⟩ := exists_laidTwice inferred alive stable usable traces
    started parameters isSupplied
  have alike := twice.laidAlike inferred alive stable usable traces started parameters isSupplied
  have computed' : Limits.compute supplied before.pool method.parameterWidth = .ok limits := by
    rw [← Limits.compute_eq (FlowGraph.Supplied.sameCode isSupplied) isSupplied.handlers]
    exact computed
  have some_ : supplied.blocks.any (fun code => code.frame.isSome) = true := by
    obtain ⟨block, frame, isFrame⟩ := framed
    obtain ⟨code, there, isFrame⟩ := frameOf?_eq_some.1 isFrame
    rw [Array.any_eq_true']
    exact ⟨code, Array.mem_of_getElem? there, by rw [isFrame]; rfl⟩
  rw [run_assemble_limits built' computed' some_ added, isSupplied.handlers]
  rw [run_assemble_frames built computed infer undead] at run
  refine ⟨alike.run_writeOut small run before, fun learned rooted names => ?_⟩
  have exact_ := Inference.inferFrames_exact rooted names inferred usable learned infer
  have lengths : ∀ (block : Nat) frame, frames[block]? = some (some frame) →
      frame.locals.length = limits.locals := fun block frame found =>
    stable.sound.good block frame (Inference.frame?_eq_some.2 found)
  rw [twice.recordedFrames_eq inferred exact_ isSupplied lengths parameters alive alike,
    alike.writeOut_eq]
  obtain ⟨result, last, written⟩ := Assembler.unasking_writeOut method limits
    (computedLayout graph.blocks frames) graph.handlers
    ((computedLayout graph.blocks frames).neededFrames graph.handlers) before.pool
  obtain ⟨rfl, rfl⟩ := Prod.mk.inj ((written hierarchy).symm.trans run)
  exact written before.hierarchy

/-! ## A jump to what comes next -/

/-- A jump to what comes next, which may have a frame. -/
def hop (isFramed : Bool) : MethodBody where
  items := [.branch (.gotoWide 0), .label 0] ++ (if isFramed then [.frame ⟨[], []⟩] else []) ++
    [.branch (.returns none)]
  handlers := []
  limits := none

def hopMethod : MethodContext := ⟨ClassName.throwable.text, "log", ⟨[], none⟩, true⟩

def hopGraph (isFramed : Bool) : FlowGraph where
  blocks := #[⟨none, #[], .gotoWide 1⟩,
    ⟨if isFramed then some ⟨[], []⟩ else none, #[], .returns none⟩, ⟨none, #[], .stop⟩]
  handlers := []
  labels := (∅ : Std.HashMap Nat Nat).insert 0 1

def hopFrames : Array (Option BlockFrame) := #[some ⟨[], []⟩, some ⟨[], []⟩, none]

theorem hop_built (isFramed subroutines : Bool) :
    FlowGraph.ofItems (hop isFramed).items (hop isFramed).handlers subroutines =
      .ok (hopGraph isFramed) := by
  have start : FlowGraph.resolve ((∅ : Std.HashMap Nat Nat).insert 0 1) 0 = .ok 1 :=
    FlowGraph.resolve_eq_ok.2 (by simp)
  have drafts : FlowGraph.Drafts.ofItems subroutines (hop isFramed).items =
      .ok ⟨#[⟨none, #[], some (.gotoWide 0)⟩,
        ⟨if isFramed then some ⟨[], []⟩ else none, #[], some (.returns none)⟩, .empty],
        (∅ : Std.HashMap Nat Nat).insert 0 1, .empty⟩ := by
    refine bind_eq_ok.2 ⟨⟨#[⟨none, #[], some (.gotoWide 0)⟩,
        ⟨if isFramed then some ⟨[], []⟩ else none, #[], some (.returns none)⟩],
        (∅ : Std.HashMap Nat Nat).insert 0 1, .empty⟩, ?_, rfl⟩
    refine foldlM_cons_eq_ok.2 ⟨_, rfl, ?_⟩
    refine foldlM_cons_eq_ok.2 ⟨_, FlowGraph.Drafts.addLabel_eq_ok.2
      ⟨Std.HashMap.not_mem_empty, rfl⟩, ?_⟩
    cases isFramed <;> rfl
  refine bind_eq_ok.2 ⟨_, drafts, ?_⟩
  refine bind_eq_ok.2 ⟨(hopGraph isFramed).blocks.toList, ?_, rfl⟩
  refine mapM_eq_ok.2 (.cons ?_ (.cons ?_ (.cons rfl .nil)))
  · exact bind_eq_ok.2 ⟨_, bind_eq_ok.2 ⟨1, start, rfl⟩, rfl⟩
  · cases isFramed <;> rfl

theorem hop_compute (pool : Pool) :
    Limits.compute (hopGraph false) pool hopMethod.parameterWidth = .ok ⟨0, 0⟩ := by
  have walked : Limits.walk (hopGraph false) pool #[none, none, none] 0 [(0, 0)] = .ok 0 := calc
    _ = Limits.walk (hopGraph false) pool #[some 0, none, none] 0 [(1, 0)] :=
      Limits.walk_fresh 0 [(1, 0)] rfl rfl rfl
    _ = Limits.walk (hopGraph false) pool #[some 0, some 0, none] 0 [] :=
      Limits.walk_fresh 0 [] rfl rfl rfl
    _ = .ok 0 := by rw [Limits.walk]
  exact bind_eq_ok.2 ⟨0, walked, rfl⟩

theorem hop_inferred (pool : Pool) (graph : ClassGraph) :
    (CodeContext.inferFrames ⟨hopGraph false, hopMethod, pool⟩ 0).run (.ofGraph graph []) =
      (.ok hopFrames, .ofGraph graph []) := by
  have start : (Inference.reach 0 (hopMethod.entryFrame.resize 0)
      ⟨Array.replicate (hopGraph false).blocks.size none, []⟩).run (.ofGraph graph []) =
        (.ok ⟨#[some ⟨[], []⟩, none, none], [0]⟩, .ofGraph graph []) := rfl
  exact Inference.run_inferFrames (Nat.succ_pos 2) (Nat.zero_le 0) start fun more => rfl

/-- How `hop` is laid out with its frames. -/
def hopLaid : LaidCode where
  blocks := #[⟨some ⟨[], []⟩, #[], .gotoWide 1⟩, ⟨some ⟨[], []⟩, #[], .returns none⟩,
    ⟨none, #[], .stop⟩]
  order := [0, 1, 2]
  offsets := #[0, 5, 6]
  dead := #[false, false, false]

theorem hop_laid : computedLayout (hopGraph false).blocks hopFrames = hopLaid := by
  have lives : live (hopGraph false).blocks hopFrames = hopLaid.blocks := by decide +kernel
  have stays : widened hopLaid.blocks = ⟨hopLaid.blocks, [0, 1, 2], 0⟩ := widened_eq_self rfl
  have offsets : Layout.offsets hopLaid.blocks [0, 1, 2] = #[0, 5, 6] := by decide +kernel
  have dead : deadBlocks (framed (hopGraph false).blocks hopFrames) = hopLaid.dead := by
    decide +kernel
  rw [computedLayout_eq lives stays dead, offsets]
  rfl

theorem hop_undead (block : Nat) :
    (computedLayout (hopGraph false).blocks hopFrames).isDead block = false := by
  rw [hop_laid]
  match block with
  | 0 | 1 | 2 => rfl
  | block + 3 => rfl

theorem hop_run (before : Assembler.State) {graph : ClassGraph}
    (isFresh : before.hierarchy = .ofGraph graph []) :
    ∃ image after, ((hop false).assemble hopMethod .frames true).run before =
      (.ok image, after) := by
  have infer := hop_inferred before.pool graph
  rw [← isFresh] at infer
  have short : Layout.length hopLaid.blocks hopLaid.order < 65536 := by decide +kernel
  have encoded : Encoding.each (encodeBlock hopLaid) hopLaid.order =
    .ok [0xC8, 0, 0, 0, 5, 0xB1] := by decide +kernel
  have needed : hopLaid.neededFrames (hopGraph false).handlers = [(5, ⟨[], []⟩)] := by
    decide +kernel
  have made : (StackMap.ofFrames hopMethod hopLaid.offsets [(5, ⟨[], []⟩)]).run
      ⟨before.pool, before.hierarchy⟩ = (.ok [.same 5], ⟨before.pool, before.hierarchy⟩) := rfl
  rw [MethodBody.run_assemble_frames (hop_built false false) (hop_compute before.pool) infer
    hop_undead, hop_laid, needed]
  obtain ⟨image, after, written, -⟩ : ∃ image after,
      (writeOut hopMethod ⟨0, 0⟩ hopLaid (hopGraph false).handlers [(5, ⟨[], []⟩)]).run
        ⟨before.pool, before.hierarchy⟩ = (.ok image, after) ∧
          image.bytes = [0xC8, 0, 0, 0, 5, 0xB1] :=
    exists_run_writeOut short encoded (List.cons_ne_nil _ _) made rfl
  exact ⟨image, after, written⟩

theorem hop_usable (pool : Pool) : Usable ⟨hopGraph false, hopMethod, pool⟩ hopFrames := by
  rintro block count here ⟨frame, code, found, there, inside, through⟩
  match block, found, there with
  | 0, rfl, rfl | 1, rfl, rfl =>
    obtain rfl := Nat.le_zero.1 inside
    obtain rfl := Except.ok.inj through
    exact List.not_mem_nil
  | block + 3, found, _ => cases found

/-- Only what is jumped to and what comes after the return need a frame. -/
theorem hop_supplied : (hopGraph false).Supplied hopFrames (hopGraph true) := by
  constructor
  case size => rfl
  case handlers => rfl
  case needed =>
    intro block code there needs
    match block, there with
    | 0, rfl =>
      cases needs with
      | @jumped source code there isTarget =>
        match source, there with
        | 0, rfl => cases List.mem_singleton.1 isTarget
        | 1, rfl | 2, rfl => cases isTarget
        | source + 3, there => cases there
      | caught member => cases member
      | left _ _ isNext => cases isNext
    | 1, rfl => exact ⟨_, rfl, rfl⟩
    | 2, rfl => exact ⟨_, rfl, rfl⟩
    | block + 3, there => cases there
  case unneeded =>
    intro block code there unneeded
    match block, there with
    | 0, rfl | 2, rfl => rfl
    | 1, rfl =>
      have jump : (hopGraph false).blocks[0]? = some ⟨none, #[], .gotoWide 1⟩ := rfl
      exact absurd (.jumped jump (List.mem_singleton_self 1)) unneeded
    | block + 3, there => cases there

/-- The jump is written in the same way with the frame that it needs. -/
theorem assemble_supplied_hop :
    ∃ image after,
      ((hop false).assemble hopMethod .frames true).run ⟨.empty, .ofGraph .standard []⟩ =
        (.ok image, after) ∧
      ((hop true).assemble hopMethod .limits true).run ⟨.empty, .ofGraph .standard []⟩ =
        (.ok image, ⟨after.pool, .ofGraph .standard []⟩) := by
  obtain ⟨image, after, run⟩ := hop_run ⟨.empty, .ofGraph .standard []⟩ rfl
  have known := known_ofGraph .standard
  have names : NamesFormed ClassGraph.standard.find? ⟨hopGraph false, hopMethod, .empty⟩ := by
    refine ⟨Inference.namesKnown_throwable rfl rfl rfl, spelled_className .throwable, ?_⟩
    intro index text found
    cases found
  refine ⟨image, after, run, ?_⟩
  refine (MethodBody.assemble_supplied (hop_built false false) (hop_compute .empty)
    (hop_inferred .empty .standard) run hop_undead (hop_usable .empty) (hop_built true true)
    hop_supplied ⟨1, _, rfl⟩ true).2 (.fresh .standard []) ?_ ?_
  · exact known ▸ ClassGraph.standard_rooted
  · exact known ▸ names

/-! ## A loop with an unusable operand -/

/-- Bytes to jump over, and a copy of the first local variable over the second. -/
def driftStart (nops : Nat) : List Instruction :=
  List.replicate nops .nop ++ [.load .reference 0, .store .reference 1]

/-- The third local variable is dropped and made a new one. -/
def driftLoop : List Instruction :=
  [.load .reference 2, .shuffle .pop, .pushLong ⟨0, Nat.two_pos⟩, .store .long 2,
    .pushInt ⟨1, Nat.one_lt_succ_succ 5⟩]

/-- The frame that is inferred for the start of the loop. -/
def driftFrame : BlockFrame := ⟨[.top, .top, .long, .top], []⟩

/-- A loop that may have a frame at its start.  Its first local variables are of two slots
at first, so that the copy of one of them takes the third local variable away.  Later the
copy is unusable and leaves it where it is. -/
def drift (nops : Nat) (isFramed : Bool) : MethodBody where
  items := .label 0 :: (if isFramed then [.frame driftFrame] else []) ++
    (driftStart nops).map Item.instruction ++ .label 1 :: driftLoop.map Item.instruction ++
    [.branch (.conditional (.zero .eq) 0 ()), .branch (.returns none)]
  handlers := []
  limits := none

def driftMethod : MethodContext :=
  ⟨"Loop", "run", ⟨[.base .long, .base .long], none⟩, true⟩

def driftBlocks (nops : Nat) (first second third : Option BlockFrame) : Array CodeBlock :=
  #[⟨first, (driftStart nops).toArray, .fallThrough 1⟩,
    ⟨second, driftLoop.toArray, .conditional (.zero .eq) 0 2⟩, ⟨third, #[], .returns none⟩,
    ⟨none, #[], .stop⟩]

def driftGraph (nops : Nat) (isFramed : Bool) : FlowGraph where
  blocks := driftBlocks nops (if isFramed then some driftFrame else none) none none
  handlers := []
  labels := ((∅ : Std.HashMap Nat Nat).insert 0 0).insert 1 1

theorem drift_built (nops : Nat) (isFramed subroutines : Bool) :
    FlowGraph.ofItems (drift nops isFramed).items (drift nops isFramed).handlers subroutines =
      .ok (driftGraph nops isFramed) := by
  have old : ∀ instruction ∈ driftStart nops, instruction.isNew = false := by
    intro instruction member
    rcases List.mem_append.1 member with isNop | last
    · rw [List.eq_of_mem_replicate isNop]
      rfl
    · rcases List.mem_pair.1 last with rfl | rfl <;> rfl
  let mark : Option BlockFrame := if isFramed then some driftFrame else none
  let start : FlowGraph.Draft := ⟨mark, (driftStart nops).toArray, none⟩
  let loop : FlowGraph.Draft := ⟨none, driftLoop.toArray, some (.conditional (.zero .eq) 0 ())⟩
  let labels : Std.HashMap Nat Nat := (∅ : Std.HashMap Nat Nat).insert 0 0
  have opened : (.label 0 :: if isFramed then [.frame driftFrame] else []).foldlM
      (FlowGraph.Drafts.add subroutines) .empty = .ok ⟨#[], labels, ⟨mark, #[], none⟩⟩ := by
    refine foldlM_cons_eq_ok.2 ⟨_, FlowGraph.Drafts.addLabel_eq_ok.2
      ⟨Std.HashMap.not_mem_empty, rfl⟩, ?_⟩
    cases isFramed <;> rfl
  have filled : ((driftStart nops).map Item.instruction).foldlM (FlowGraph.Drafts.add subroutines)
      ⟨#[], labels, ⟨mark, #[], none⟩⟩ = .ok ⟨#[], labels, start⟩ := by
    rw [FlowGraph.Drafts.foldlM_add_instructions old, Array.empty_append]
  have split : FlowGraph.Drafts.split ⟨#[], labels, start⟩ = ⟨#[start], labels, .empty⟩ :=
    if_neg (by simp [start, driftStart])
  have looped : (.label 1 :: driftLoop.map Item.instruction).foldlM
      (FlowGraph.Drafts.add subroutines) ⟨#[], labels, start⟩ =
        .ok ⟨#[start], labels.insert 1 1, ⟨none, driftLoop.toArray, none⟩⟩ := by
    refine foldlM_cons_eq_ok.2 ⟨⟨#[start], labels.insert 1 1, .empty⟩, ?_, rfl⟩
    rw [FlowGraph.Drafts.add, split]
    exact FlowGraph.Drafts.addLabel_eq_ok.2 ⟨by simp [labels], rfl⟩
  have drafts : FlowGraph.Drafts.ofItems subroutines (drift nops isFramed).items = .ok
      ⟨#[start, loop, ⟨none, #[], some (.returns none)⟩, .empty], labels.insert 1 1, .empty⟩ := by
    refine bind_eq_ok.2 ⟨⟨#[start, loop, ⟨none, #[], some (.returns none)⟩], labels.insert 1 1,
      .empty⟩, ?_, rfl⟩
    rw [drift, List.foldlM_append, List.foldlM_append, List.foldlM_append]
    refine bind_eq_ok.2 ⟨_, bind_eq_ok.2 ⟨_, bind_eq_ok.2 ⟨_, opened, filled⟩, looped⟩, ?_⟩
    cases subroutines <;> rfl
  have target : FlowGraph.resolve (labels.insert 1 1) 0 = .ok 0 :=
    FlowGraph.resolve_eq_ok.2 (by simp [labels, Std.HashMap.getElem_insert])
  refine bind_eq_ok.2 ⟨_, drafts, ?_⟩
  refine bind_eq_ok.2 ⟨(driftGraph nops isFramed).blocks.toList, ?_, rfl⟩
  refine mapM_eq_ok.2 (.cons ?_ (.cons ?_ (.cons rfl (.cons rfl .nil))))
  · cases isFramed <;> rfl
  · exact bind_eq_ok.2 ⟨_, bind_eq_ok.2 ⟨0, target, rfl⟩, rfl⟩

theorem drift_leave (nops : Nat) {graph : FlowGraph} (plain : graph.handlers = []) (pool : Pool)
    (frame? : Option BlockFrame) :
    Limits.leave graph pool 0 0 ⟨frame?, (driftStart nops).toArray, .fallThrough 1⟩ =
      .ok (1, [(1, 0)]) := by
  refine bind_eq_ok.2 ⟨⟨0, 1⟩, ?_, ?_⟩
  · rw [List.toList_toArray, driftStart, List.foldlM_append, foldlM_replicate rfl]
    rfl
  · rw [FlowGraph.handlersOf, plain]
    rfl

theorem drift_blockLocals (nops : Nat) (frame? : Option BlockFrame) :
    Limits.blockLocals ⟨frame?, (driftStart nops).toArray, .fallThrough 1⟩ = 2 := by
  rw [Limits.blockLocals, ← Array.foldl_toList, List.toList_toArray]
  induction nops with
  | zero => rfl
  | succ nops ih => exact ih

theorem drift_compute (nops : Nat) (isFramed : Bool) (pool : Pool) :
    Limits.compute (driftGraph nops isFramed) pool driftMethod.parameterWidth = .ok ⟨2, 4⟩ := by
  have walked : Limits.walk (driftGraph nops isFramed) pool #[none, none, none, none] 0 [(0, 0)] =
      .ok 2 := calc
    _ = Limits.walk (driftGraph nops isFramed) pool #[some 0, none, none, none] 1 [(1, 0)] :=
      Limits.walk_fresh 1 [(1, 0)] rfl rfl (drift_leave nops rfl pool _)
    _ = Limits.walk (driftGraph nops isFramed) pool #[some 0, some 0, none, none] 2
        [(2, 0), (0, 0)] := Limits.walk_fresh 2 [(0, 0), (2, 0)] rfl rfl rfl
    _ = Limits.walk (driftGraph nops isFramed) pool #[some 0, some 0, some 0, none] 2 [(0, 0)] :=
      Limits.walk_fresh 0 [] rfl rfl rfl
    _ = Limits.walk (driftGraph nops isFramed) pool #[some 0, some 0, some 0, none] 2 [] :=
      Limits.walk_known rfl
    _ = .ok 2 := by rw [Limits.walk]
  have counted : (driftGraph nops isFramed).blocks.foldl
      (fun most code => max most (Limits.blockLocals code)) 4 = 4 := by
    have first := drift_blockLocals nops (if isFramed then some driftFrame else none)
    rw [driftGraph, driftBlocks]
    simp only [List.foldl_toArray', List.foldl_cons, first]
    rfl
  have parameters : driftMethod.parameterWidth = 4 := rfl
  refine bind_eq_ok.2 ⟨2, walked, ?_⟩
  rw [parameters]
  dsimp only
  rw [counted]
  rfl

def driftContext (nops : Nat) (isFramed : Bool) (pool : Pool) : CodeContext :=
  ⟨driftGraph nops isFramed, driftMethod, pool⟩

/-- The frames of the loop.  What it drops is unusable in the end. -/
def driftFrames : Array (Option BlockFrame) :=
  #[some driftFrame, some ⟨[.top, .top, .top, .top], []⟩, some driftFrame, none]

theorem drift_inferred (nops : Nat) (pool : Pool) (graph : ClassGraph) :
    ((driftContext nops false pool).inferFrames 4).run (.ofGraph graph []) =
      (.ok driftFrames, .ofGraph graph []) := by
  have start : (Inference.reach 0 (driftMethod.entryFrame.resize 4)
      ⟨Array.replicate (driftGraph nops false).blocks.size none, []⟩).run (.ofGraph graph []) =
        (.ok ⟨#[some ⟨[.long, .top, .long, .top], []⟩, none, none, none], [0]⟩,
          .ofGraph graph []) := rfl
  have plain : (driftContext nops false pool).graph.handlersOf 0 = [] := rfl
  have first : (Inference.visit (driftContext nops false pool) 0
      ⟨none, (driftStart nops).toArray, .fallThrough 1⟩ ⟨[.long, .top, .long, .top], []⟩
      ⟨#[some ⟨[.long, .top, .long, .top], []⟩, none, none, none], []⟩).run (.ofGraph graph []) =
        (.ok ⟨#[some ⟨[.long, .top, .long, .top], []⟩, some ⟨[.top, .long, .top, .top], []⟩, none,
          none], [1]⟩, .ofGraph graph []) := by
    rw [driftStart, Inference.visit_nops plain]
    rfl
  have again : (Inference.visit (driftContext nops false pool) 0
      ⟨none, (driftStart nops).toArray, .fallThrough 1⟩ driftFrame
      ⟨#[some driftFrame, some ⟨[.top, .long, .top, .top], []⟩, some driftFrame, none],
        [2]⟩).run (.ofGraph graph []) =
        (.ok ⟨#[some driftFrame, some ⟨[.top, .top, .top, .top], []⟩, some driftFrame, none],
          [1, 2]⟩, .ofGraph graph []) := by
    rw [driftStart, Inference.visit_nops plain]
    rfl
  refine Inference.run_inferFrames (Nat.succ_pos 3) (Nat.le_refl 4) start fun more => ?_
  calc
    _ = (Inference.run (driftContext nops false pool) (more + 9)
        ⟨#[some ⟨[.long, .top, .long, .top], []⟩, some ⟨[.top, .long, .top, .top], []⟩, none, none],
          [1]⟩).run (.ofGraph graph []) :=
      Inference.run_visit (more + 9) rfl rfl first
    _ = (Inference.run (driftContext nops false pool) (more + 8)
        ⟨#[some driftFrame, some ⟨[.top, .long, .top, .top], []⟩, some driftFrame, none],
          [0, 2]⟩).run (.ofGraph graph []) :=
      Inference.run_visit (more + 8) rfl rfl rfl
    _ = (Inference.run (driftContext nops false pool) (more + 7)
        ⟨#[some driftFrame, some ⟨[.top, .top, .top, .top], []⟩, some driftFrame, none],
          [1, 2]⟩).run (.ofGraph graph []) :=
      Inference.run_visit (more + 7) rfl rfl again
    _ = (.ok driftFrames, .ofGraph graph []) := rfl

theorem drift_framed (nops : Nat) :
    framed (driftGraph nops false).blocks driftFrames =
      driftBlocks nops (some driftFrame) (some ⟨[.top, .top, .top, .top], []⟩)
        (some driftFrame) := by
  rw [framed, driftGraph, driftBlocks, driftFrames]
  simp only [List.zipWith_toArray, List.zipWith_cons_cons, List.zipWith_nil_right]
  rfl

theorem drift_plain (nops : Nat) (first second third : Option BlockFrame) :
    Widening.Plain (driftBlocks nops first second third) (List.range 4) where
  distinct := List.nodup_range
  inside := fun block member => List.mem_range.1 member
  placed := by
    intro block _ code there target isTarget
    match block, there with
    | 0, rfl | 2, rfl | 3, rfl => cases isTarget
    | 1, rfl =>
      rw [List.mem_singleton.1 isTarget]
      decide
    | block + 4, there => cases there
  follows := by
    intro block _ code there condition target next isBranch
    match block, there with
    | 0, rfl | 2, rfl | 3, rfl => cases isBranch
    | 1, rfl =>
      cases isBranch
      exact ⟨[0], [3], rfl⟩
    | block + 4, there => cases there

theorem drift_bodyWidth (nops : Nat) (frame? : Option BlockFrame) (branch : Branch Nat Nat Nat) :
    Block.bodyWidth ⟨frame?, (driftStart nops).toArray, branch⟩ = nops + 2 := by
  rw [Block.bodyWidth, List.toList_toArray, driftStart, Wide.total_append, total_replicate_nop]
  rfl

def driftWidened (nops : Nat) (first second third : Option BlockFrame) : Array CodeBlock :=
  #[⟨first, (driftStart nops).toArray, .fallThrough 1⟩,
    ⟨second, driftLoop.toArray, .conditional (.zero .eq) 5 4⟩, ⟨third, #[], .returns none⟩,
    ⟨none, #[], .stop⟩, ⟨none, #[], .goto 2⟩, ⟨first, #[], .gotoWide 0⟩]

theorem drift_short (nops : Nat) (first second third : Option BlockFrame) (block : Nat)
    (code : CodeBlock) (there : (driftBlocks nops first second third)[block]? = some code)
    (apart : block ≠ 1) : Widening.shortTarget? code.branch = none := by
  match block, there with
  | 0, rfl | 2, rfl | 3, rfl => rfl
  | 1, rfl => exact absurd rfl apart
  | block + 4, there => cases there

/-- A jump back to the start of the loop is too far for its range. -/
theorem drift_widened (nops : Nat) (large : 32762 ≤ nops) (first second third : Option BlockFrame) :
    widened (driftBlocks nops first second third) =
      ⟨driftWidened nops first second third, [0, 1, 4, 5, 2, 3], 1⟩ := by
  let loop : CodeBlock := ⟨second, driftLoop.toArray, .conditional (.zero .eq) 0 2⟩
  have there : (driftBlocks nops first second third)[1]? = some loop := rfl
  have far : Widening.Range.contains .short (Widening.grownDistance
      (driftBlocks nops first second third) (List.range 4) ∅ 1 loop 0) = false := by
    have ends : Widening.grownStart (driftBlocks nops first second third) (List.range 4) ∅ 1 =
        nops + 2 := by
      have width : Layout.blockWidth (driftBlocks nops first second third) 0 = nops + 2 :=
        drift_bodyWidth nops first (.fallThrough 1)
      change Widening.grownWidth _ ∅ 0 + 0 = _
      rw [Widening.grownWidth, width, if_neg (Finset.notMem_empty 0)]
    have starts : Widening.grownStart (driftBlocks nops first second third) (List.range 4) ∅ 0 =
      0 := rfl
    have width : Block.bodyWidth loop = 5 := rfl
    rw [Widening.grownDistance, ends, starts, width, Bool.eq_false_iff, ne_eq,
      Widening.Range.contains_iff]
    change ¬(-32768 ≤ _ ∧ _)
    omega
  exact (Widening.widen_one (drift_plain nops first second third) ⟨by decide, by decide⟩ there
    (by decide) rfl (drift_short nops first second third) far).trans rfl

/-- How the loop is laid out with its computed frames. -/
def driftLaid (nops : Nat) : LaidCode where
  blocks := driftWidened nops (some driftFrame) (some ⟨[.top, .top, .top, .top], []⟩)
    (some driftFrame)
  order := [0, 1, 4, 5, 2, 3]
  offsets := #[0, nops + 2, nops + 18, nops + 19, nops + 10, nops + 13]
  dead := #[false, false, false, false]

theorem drift_starts (nops : Nat) : Layout.starts (driftLaid nops).blocks (driftLaid nops).order =
    [(0, 0), (1, nops + 2), (4, nops + 10), (5, nops + 13), (2, nops + 18), (3, nops + 19)] := by
  have width : Layout.blockWidth (driftLaid nops).blocks 0 = nops + 2 :=
    drift_bodyWidth nops (some driftFrame) (.fallThrough 1)
  rw [driftLaid] at width
  rw [Layout.starts, driftLaid]
  simp only [Layout.startsFrom]
  rw [width, Nat.zero_add]
  rfl

theorem drift_laid (nops : Nat) (large : 32762 ≤ nops) :
    computedLayout (driftGraph nops false).blocks driftFrames = driftLaid nops := by
  have offsets : Layout.offsets (driftLaid nops).blocks (driftLaid nops).order =
      (driftLaid nops).offsets := by
    have size : (driftLaid nops).blocks.size = 6 := rfl
    rw [Layout.offsets, drift_starts, size]
    simp only [List.foldl_cons, List.foldl_nil]
    rfl
  have dead : deadBlocks (framed (driftGraph nops false).blocks driftFrames) =
      (driftLaid nops).dead := by
    rw [drift_framed, deadBlocks, driftBlocks]
    simp only [List.map_toArray, List.map_cons, List.map_nil]
    rfl
  have live : live (driftGraph nops false).blocks driftFrames =
      framed (driftGraph nops false).blocks driftFrames := by
    rw [live, dead, drift_framed]
    simp [Limits.buried, driftBlocks, driftLaid]
  rw [computedLayout, dead, live, drift_framed, drift_widened nops large]
  change LaidCode.mk _ _ (Layout.offsets (driftLaid nops).blocks (driftLaid nops).order) _ = _
  rw [offsets]
  rfl

theorem drift_undead (nops : Nat) (large : 32762 ≤ nops) (block : Nat) :
    (computedLayout (driftGraph nops false).blocks driftFrames).isDead block = false := by
  rw [drift_laid nops large]
  match block with
  | 0 | 1 | 2 | 3 => rfl
  | block + 4 => rfl

theorem drift_length (nops : Nat) :
    Layout.length (driftLaid nops).blocks (driftLaid nops).order = nops + 19 := by
  have width : Layout.blockWidth (driftLaid nops).blocks 0 = nops + 2 :=
    drift_bodyWidth nops (some driftFrame) (.fallThrough 1)
  rw [Layout.length_eq_sum]
  change Layout.blockWidth (driftLaid nops).blocks 0 + 17 = _
  rw [width]

theorem drift_needed (nops : Nat) :
    (driftLaid nops).neededFrames (driftGraph nops false).handlers =
      [(0, driftFrame), (nops + 13, driftFrame), (nops + 18, driftFrame)] := by
  have arrivals : (driftLaid nops).arrivals (driftGraph nops false).handlers =
      #[true, false, true, false, false, true] := by
    rw [LaidCode.arrivals, driftLaid, driftWidened]
    dsimp only
    rw [← Array.foldl_toList, Array.toList_zipIdx]
    rfl
  have wide : Block.width (⟨some driftFrame, (driftStart nops).toArray, .fallThrough 1⟩ :
      CodeBlock) ≠ 0 := by
    rw [Block.width, drift_bodyWidth]
    exact Nat.succ_ne_zero _
  have first : (driftLaid nops).placeNeeded #[true, false, true, false, false, true] ⟨#[], false⟩
      0 = ⟨#[(0, driftFrame)], false⟩ := if_neg wide
  have order : (driftLaid nops).order = [0, 1, 4, 5, 2, 3] := rfl
  rw [LaidCode.neededFrames, arrivals, order, List.foldl_cons, first]
  rfl

theorem drift_made (nops : Nat) (small : nops < 65517) (before : Assembler.State) :
    ∃ entries info, (StackMap.ofFrames driftMethod (driftLaid nops).offsets
      [(0, driftFrame), (nops + 13, driftFrame), (nops + 18, driftFrame)]).run before =
        (.ok entries, before) ∧ StackMapEntry.encodeTable entries = .ok info := by
  refine ⟨[.full 0 [.top, .top, .long] [], .same (nops + 12), .same 4], _, ?_, rfl⟩
  have next : nops + 18 - (nops + 13) - 1 = 4 := by omega
  let frame : WrittenFrame := ⟨[.top, .top, .long, .top], []⟩
  let entry : WrittenFrame := ⟨[.long, .top, .long, .top], []⟩
  let placed : List (Nat × WrittenFrame) := [(0, frame), (nops + 13, frame), (nops + 18, frame)]
  have made : StackMap.entriesAfter #[] none entry placed =
      .ok #[.full 0 [.top, .top, .long] [], .same (nops + 12), .same 4] := by
    simp only [placed, StackMap.entriesAfter]
    rw [if_pos (by decide), if_pos (by omega), if_pos (by omega), next]
    rfl
  refine run_bind_eq_ok.2 ⟨placed, before, rfl, ?_⟩
  refine run_bind_eq_ok.2 ⟨before, before, rfl, ?_⟩
  refine run_bind_eq_ok.2 ⟨entry, before, rfl, ?_⟩
  exact run_bind_eq_ok.2 ⟨_, before, run_lift_eq_ok.2 ⟨made, rfl⟩, rfl⟩

theorem drift_encoded (nops : Nat) (small : nops < 65517) :
    ∃ bytes, Encoding.each (encodeBlock (driftLaid nops)) (driftLaid nops).order = .ok bytes := by
  have reaches : ∀ (origin block : Nat) {range : Widening.Range},
      range.low ≤ ((driftLaid nops).offset block : Int) - origin ∧
        ((driftLaid nops).offset block : Int) - origin ≤ range.high →
      Assembly.distance (driftLaid nops) origin range block =
        .ok ((driftLaid nops).offset block - origin) :=
    fun _ _ _ within => if_pos (Widening.Range.contains_iff.2 within)
  have offsets : (driftLaid nops).offset 2 = nops + 18 ∧ (driftLaid nops).offset 5 = nops + 13 ∧
    (driftLaid nops).offset 0 = 0 := ⟨rfl, rfl, rfl⟩
  have short : Widening.Range.low .short = -32768 ∧ Widening.Range.high .short = 32767 :=
    ⟨rfl, rfl⟩
  have wide : Widening.Range.low .wide = -2147483648 ∧
    Widening.Range.high .wide = 2147483647 := ⟨rfl, rfl⟩
  have first : ∃ bytes, encodeBlock (driftLaid nops) 0 = .ok bytes := by
    obtain ⟨_, nothing⟩ : ∃ bytes, Encoding.each Instruction.encode (List.replicate nops .nop) =
        .ok bytes := by
      refine ⟨_, Encoding.each_eq_ok.2 ⟨List.replicate nops [0], ?_, rfl⟩⟩
      refine List.forall₂_iff_get.2 ⟨by simp only [List.length_replicate], fun index _ _ => ?_⟩
      simp only [List.get_eq_getElem, List.getElem_replicate]
      rfl
    exact ⟨_, bind_eq_ok.2 ⟨_, Encoding.each_append_eq_ok.2 ⟨_, _, nothing, rfl, rfl⟩, rfl⟩⟩
  have second : ∃ bytes, encodeBlock (driftLaid nops) 1 = .ok bytes := by
    have taken := @reaches (nops + 7) 5 .short (by omega)
    exact ⟨_, bind_eq_ok.2 ⟨_, rfl,
      bind_eq_ok.2 ⟨_, bind_eq_ok.2 ⟨_, map_eq_ok.2 ⟨_, taken, rfl⟩, rfl⟩, rfl⟩⟩⟩
  have around : ∃ bytes, encodeBlock (driftLaid nops) 4 = .ok bytes := by
    have ahead := @reaches (nops + 10) 2 .short (by omega)
    exact ⟨_, bind_eq_ok.2 ⟨_, rfl,
      bind_eq_ok.2 ⟨_, bind_eq_ok.2 ⟨_, map_eq_ok.2 ⟨_, ahead, rfl⟩, rfl⟩, rfl⟩⟩⟩
  have onward : ∃ bytes, encodeBlock (driftLaid nops) 5 = .ok bytes := by
    have back := @reaches (nops + 13) 0 .wide (by omega)
    exact ⟨_, bind_eq_ok.2 ⟨_, rfl,
      bind_eq_ok.2 ⟨_, bind_eq_ok.2 ⟨_, map_eq_ok.2 ⟨_, back, rfl⟩, rfl⟩, rfl⟩⟩⟩
  obtain ⟨_, first⟩ := first
  obtain ⟨_, second⟩ := second
  obtain ⟨_, around⟩ := around
  obtain ⟨_, onward⟩ := onward
  exact ⟨_, map_eq_ok.2 ⟨_, mapM_eq_ok.2 (.cons first (.cons second (.cons around
    (.cons onward (.cons rfl (.cons rfl .nil)))))), rfl⟩⟩

theorem drift_run (nops : Nat) (large : 32762 ≤ nops) (small : nops < 65517)
    (before : Assembler.State) {graph : ClassGraph}
    (isFresh : before.hierarchy = .ofGraph graph []) :
    ∃ image after, ((drift nops false).assemble driftMethod .frames true).run before =
      (.ok image, after) := by
  have infer := drift_inferred nops before.pool graph
  rw [← isFresh] at infer
  have short : Layout.length (driftLaid nops).blocks (driftLaid nops).order < 65536 := by
    rw [drift_length]
    omega
  obtain ⟨bytes, encoded⟩ := drift_encoded nops small
  obtain ⟨entries, info, made, table⟩ := drift_made nops small ⟨before.pool, before.hierarchy⟩
  rw [MethodBody.run_assemble_frames (drift_built nops false false)
    (drift_compute nops false before.pool) infer (drift_undead nops large), drift_laid nops large,
    drift_needed]
  obtain ⟨image, after, written, -⟩ : ∃ image after,
      (writeOut driftMethod ⟨2, 4⟩ (driftLaid nops) (driftGraph nops false).handlers
        [(0, driftFrame), (nops + 13, driftFrame), (nops + 18, driftFrame)]).run
          ⟨before.pool, before.hierarchy⟩ = (.ok image, after) ∧ image.bytes = bytes :=
    exists_run_writeOut short encoded (List.cons_ne_nil _ _) made table
  exact ⟨image, after, written⟩

/-- Going through the loop again from the frame of its start, the third local variable is
one of two slots, of which `pop` does not take one. -/
theorem drift_replay (nops : Nat) (pool : Pool) :
    (driftContext nops true pool).replay 4 1 =
      .error (.stackUnderflow (.instruction (.shuffle .pop))) := by
  have last : (driftContext nops true pool).lastRecorded 1 = (0, driftFrame) := rfl
  have through : (driftContext nops true pool).stepBlock driftFrame 0 = .ok driftFrame := by
    refine bind_eq_ok.2 ⟨driftFrame, ?_, rfl⟩
    change (driftStart nops).foldlM _ _ = _
    rw [driftStart, List.foldlM_append, foldlM_replicate rfl]
    rfl
  have fails : (driftContext nops true pool).stepBlock driftFrame 1 =
      .error (.stackUnderflow (.instruction (.shuffle .pop))) := rfl
  have resized : driftFrame.resize (max 4 driftFrame.locals.length) = driftFrame := rfl
  have blocks : List.range' 0 (1 + 1 - 0) = [0, 1] := rfl
  rw [CodeContext.replay, last]
  dsimp only
  rw [resized, blocks, List.foldlM_cons, through]
  change [1].foldlM (driftContext nops true pool).stepBlock driftFrame = _
  rw [List.foldlM_cons, fails]
  rfl

theorem drift_fails (nops : Nat) (large : 32762 ≤ nops) (before : Assembler.State) :
    ((drift nops true).assemble driftMethod .limits true).run before =
      (.error (.stackUnderflow (.instruction (.shuffle .pop))), before) := by
  have added : addWidenedFrames (driftContext nops true before.pool) 4
      (widened (alignSwitches (driftGraph nops true).blocks)).blocks =
        .error (.stackUnderflow (.instruction (.shuffle .pop))) := by
    have wide : (widened (alignSwitches (driftGraph nops true).blocks)).blocks =
        driftWidened nops (some driftFrame) none none :=
      congrArg Widening.Result.blocks (drift_widened nops large (some driftFrame) none none)
    have kept : giveWidenedFrame (driftContext nops true before.pool) 4 4
        (driftWidened nops (some driftFrame) none none) 0 =
          .ok (driftWidened nops (some driftFrame) none none) := rfl
    have given : giveWidenedFrame (driftContext nops true before.pool) 4 4
        (driftWidened nops (some driftFrame) none none) 1 =
          .error (.stackUnderflow (.instruction (.shuffle .pop))) := by
      change (driftContext nops true before.pool).replay 4 1 >>= _ = _
      rw [drift_replay]
      rfl
    have blocks : List.range (driftContext nops true before.pool).graph.blocks.size =
      [0, 1, 2, 3] := rfl
    rw [wide, addWidenedFrames_eq, blocks, List.foldlM_cons]
    change giveWidenedFrame (driftContext nops true before.pool) 4 4 _ 0 >>= _ = _
    rw [kept]
    change [1, 2, 3].foldlM (giveWidenedFrame (driftContext nops true before.pool) 4 4)
      (driftWidened nops (some driftFrame) none none) = _
    rw [List.foldlM_cons, given]
    rfl
  have some_ : (driftGraph nops true).blocks.any (fun code => code.frame.isSome) = true := by
    simp [driftGraph, driftBlocks]
  rw [MethodBody.run_assemble_recorded (drift_built nops true true)
    (drift_compute nops true before.pool) some_]
  refine run_bind_of_error ?_
  exact congrArg (fun result => (result, before)) added

/-- Only the start of the loop and what comes after the return need a frame. -/
theorem drift_supplied (nops : Nat) :
    (driftGraph nops false).Supplied driftFrames (driftGraph nops true) := by
  have unneeded : ∀ block, block = 1 ∨ block = 2 → ¬(driftGraph nops false).NeedsFrame block := by
    intro block between needs
    cases needs with
    | @jumped source code there isTarget =>
      match source, there with
      | 0, rfl | 2, rfl | 3, rfl => cases isTarget
      | 1, rfl =>
        obtain rfl := List.mem_singleton.1 isTarget
        omega
      | source + 4, there => cases there
    | caught member => cases member
    | @left before code there leaves isNext =>
      match before, there with
      | 0, rfl | 1, rfl => cases leaves
      | 2, rfl | 3, rfl => omega
      | before + 4, there => cases there
  constructor
  case size => rfl
  case handlers => rfl
  case needed =>
    intro block code there needs
    match block, there with
    | 0, rfl | 3, rfl => exact ⟨_, rfl, rfl⟩
    | 1, _ | 2, _ => exact absurd needs (unneeded _ (by decide))
    | block + 4, there => cases there
  case unneeded =>
    intro block code there alone
    match block, there with
    | 0, rfl =>
      have loop : (driftGraph nops false).blocks[1]? =
        some ⟨none, driftLoop.toArray, .conditional (.zero .eq) 0 2⟩ := rfl
      exact absurd (.jumped loop (List.mem_singleton_self 0)) alone
    | 1, rfl | 2, rfl | 3, rfl => rfl
    | block + 4, there => cases there

/-- Code stands at the start of a block or after it. -/
def FlowGraph.HasCodeFrom (graph : FlowGraph) (block : Nat) : Prop :=
  ∃ (later : Nat) (code : CodeBlock),
    block ≤ later ∧ graph.blocks[later]? = some code ∧ 0 < code.width

/-- No branch and no handler leads to the end of the code. -/
def FlowGraph.StaysInside (graph : FlowGraph) : Prop :=
  (∀ (source : Nat) code, graph.blocks[source]? = some code → ∀ target ∈ code.branch.targets,
    graph.HasCodeFrom target) ∧ ∀ handler ∈ graph.handlers, graph.HasCodeFrom handler.entry

theorem drift_staysInside (nops : Nat) : (driftGraph nops false).StaysInside := by
  refine ⟨fun source code there target isTarget => ?_, fun handler member => by cases member⟩
  match source, there with
  | 0, rfl | 2, rfl | 3, rfl => cases isTarget
  | 1, rfl =>
    obtain rfl := List.mem_singleton.1 isTarget
    refine ⟨1, ⟨none, driftLoop.toArray, .conditional (.zero .eq) 0 2⟩, Nat.zero_le 1, rfl, ?_⟩
    decide
  | source + 4, there => cases there

theorem drift_frameOf? (nops : Nat) :
    frameOf? (driftGraph nops true).blocks 0 = some driftFrame :=
  rfl

/-- A body may not be assembled with its own frames where an operand is unusable. -/
theorem not_assemble_supplied_unusable :
    ¬∀ {body other : MethodBody} {method : MethodContext} {graph supplied : FlowGraph}
      {limits : Limits} {frames : Array (Option BlockFrame)} {before after : Assembler.State}
      {hierarchy : Hierarchy} {image : CodeImage},
      FlowGraph.ofItems body.items body.handlers false = .ok graph →
      Limits.compute graph before.pool method.parameterWidth = .ok limits →
      (CodeContext.inferFrames ⟨graph, method, before.pool⟩ limits.locals).run before.hierarchy =
        (.ok frames, hierarchy) →
      (body.assemble method .frames true).run before = (.ok image, after) →
      (∀ block, (computedLayout graph.blocks frames).isDead block = false) →
      graph.StaysInside →
      FlowGraph.ofItems other.items other.handlers true = .ok supplied →
      graph.Supplied frames supplied →
      (∃ block frame, frameOf? supplied.blocks block = some frame) →
      ∃ image' last, (other.assemble method .limits true).run before = (.ok image', last) ∧
        SameImage image after.pool image' last.pool := by
  intro agrees
  have large : 32762 ≤ 32762 := Nat.le_refl _
  let start : Assembler.State := ⟨.empty, .ofGraph .empty []⟩
  obtain ⟨image, after, run⟩ := drift_run 32762 large (by decide) start rfl
  obtain ⟨image', last, written, -⟩ := @agrees (drift 32762 false) (drift 32762 true) driftMethod
    (driftGraph 32762 false) (driftGraph 32762 true) ⟨2, 4⟩ driftFrames start after _ image
    (drift_built _ _ _) (drift_compute _ _ _) (drift_inferred _ _ _) run (drift_undead _ large)
    (drift_staysInside _) (drift_built _ _ _) (drift_supplied _) ⟨0, driftFrame, drift_frameOf? _⟩
  cases (drift_fails 32762 large start).symm.trans written

end ClassFile
