import ClassFile.Proofs.Code.Computed

namespace ClassFile

/-!
# Writing out laid code

Assembling lays out the code of a method and then writes it.  However its frames come
about, laid out code is written in the same way: the bytes of its blocks, its exception
table and the stack map of its frames.  The two ways to come by frames only differ in what
they lay out and in the frames they place.
-/

namespace Assembly

/-- Write laid out code with its placed frames. -/
def writeOut (method : MethodContext) (limits : Limits) (laid : LaidCode) (handlers : List Handler)
    (frames : List (Nat × BlockFrame)) : Assembler CodeImage := do
  let length := Layout.length laid.blocks laid.order
  if 65536 ≤ length then throw (.codeOverflow length)
  let bytes ← Encoding.each (encodeBlock laid) laid.order
  let attributes ←
    if !frames.isEmpty then
      pure [← stackMapAttribute (← StackMap.ofFrames method laid.offsets frames)]
    else pure []
  return ⟨limits, bytes, exceptionTable laid handlers, attributes⟩

/-- What is known of code that was written. -/
structure WrittenOut (method : MethodContext) (limits : Limits) (laid : LaidCode)
    (handlers : List Handler) (placed : List (Nat × BlockFrame)) (image : CodeImage)
    (after : Assembler.State) : Prop where
  short : Layout.length laid.blocks laid.order < 65536
  encoded : Encoding.each (encodeBlock laid) laid.order = .ok image.bytes
  limits_eq : image.limits = limits
  exceptions_eq : image.exceptions = exceptionTable laid handlers
  mapped : Mapped method laid.offsets placed image.attributes after

section

variable {method : MethodContext} {limits : Limits} {laid : LaidCode} {handlers : List Handler}
  {placed : List (Nat × BlockFrame)} {before after : Assembler.State} {image : CodeImage}

/-- Writing tells all that is known of the code, and without frames there is no stack map. -/
theorem writtenOut_and_unmapped
    (run : (writeOut method limits laid handlers placed).run before = (.ok image, after)) :
    WrittenOut method limits laid handlers placed image after ∧
      (placed = [] → image.attributes = []) := by
  unfold writeOut at run
  dsimp only at run
  split at run
  · obtain ⟨_, _, thrown, -⟩ := run_bind_eq_ok.1 run
    cases thrown
  · next short =>
    obtain ⟨bytes, _, lifted, run⟩ := run_bind_eq_ok.1 run
    obtain ⟨encoded, rfl⟩ := run_lift_eq_ok.1 lifted
    split at run
    · next some_ =>
      obtain ⟨entries, between, made, run⟩ := run_bind_eq_ok.1 run
      obtain ⟨stackMap, last, named, run⟩ := run_bind_eq_ok.1 run
      obtain ⟨_, _, alone, run⟩ := run_bind_eq_ok.1 run
      obtain ⟨rfl, rfl⟩ := run_pure_eq_ok.1 alone
      obtain ⟨rfl, rfl⟩ := run_pure_eq_ok.1 run
      refine ⟨⟨Nat.lt_of_not_le short, encoded, rfl, rfl,
        .inr ⟨_, between, entries, stackMap, made, named, rfl⟩⟩, ?_⟩
      rintro rfl
      cases some_
    · next none =>
      obtain ⟨_, _, alone, run⟩ := run_bind_eq_ok.1 run
      obtain ⟨rfl, rfl⟩ := run_pure_eq_ok.1 alone
      obtain ⟨rfl, -⟩ := run_pure_eq_ok.1 run
      rw [Bool.not_eq_true', Bool.not_eq_false] at none
      exact ⟨⟨Nat.lt_of_not_le short, encoded, rfl, rfl, .inl ⟨List.isEmpty_iff.1 none, rfl⟩⟩,
        fun _ => rfl⟩

theorem writtenOut_of_run
    (run : (writeOut method limits laid handlers placed).run before = (.ok image, after)) :
    WrittenOut method limits laid handlers placed image after :=
  (writtenOut_and_unmapped run).1

/-- Code without frames is written without a stack map. -/
theorem run_writeOut_unmapped {bytes : Bytes}
    (short : Layout.length laid.blocks laid.order < 65536)
    (encoded : Encoding.each (encodeBlock laid) laid.order = .ok bytes) (before : Assembler.State) :
    (writeOut method limits laid handlers []).run before =
      (.ok ⟨limits, bytes, exceptionTable laid handlers, []⟩, before) := by
  unfold writeOut
  dsimp only
  rw [if_neg (Nat.not_le_of_lt short), run_bind_of_ok (run_lift_eq_ok.2 ⟨encoded, rfl⟩)]
  rfl

/-- Code is written once its stack map is made and named. -/
theorem run_writeOut_mapped {bytes : Bytes} {entries : List StackMapEntry} {stackMap : Attribute}
    {between : Assembler.State} (short : Layout.length laid.blocks laid.order < 65536)
    (encoded : Encoding.each (encodeBlock laid) laid.order = .ok bytes) (some_ : placed ≠ [])
    (made : (StackMap.ofFrames method laid.offsets placed).run before = (.ok entries, between))
    (named : (stackMapAttribute entries).run between = (.ok stackMap, after)) :
    (writeOut method limits laid handlers placed).run before =
      (.ok ⟨limits, bytes, exceptionTable laid handlers, [stackMap]⟩, after) := by
  unfold writeOut
  dsimp only
  rw [if_neg (Nat.not_le_of_lt short), run_bind_of_ok (run_lift_eq_ok.2 ⟨encoded, rfl⟩),
    if_pos (by rwa [Bool.not_eq_true', List.isEmpty_eq_false_iff]), run_bind_of_ok made,
    run_bind_of_ok named]
  rfl

end

/-- The blocks of a graph as they are written with recorded frames. -/
def recordedLayout (blocks others : Array CodeBlock) : LaidCode where
  blocks := others
  order := (widened (alignSwitches blocks)).order
  offsets := Layout.offsets others (widened (alignSwitches blocks)).order
  dead := (alignSwitches blocks).map fun _ => false

theorem recordedLayout_eq {blocks aligned : Array CodeBlock} {order : List Nat}
    (isAligned : alignSwitches blocks = aligned) (stays : widened aligned = ⟨aligned, order, 0⟩) :
    recordedLayout blocks aligned =
      ⟨aligned, order, Layout.offsets aligned order, aligned.map fun _ => false⟩ := by
  rw [recordedLayout, isAligned, stays]

theorem isDead_recordedLayout (blocks others : Array CodeBlock) (block : Nat) :
    (recordedLayout blocks others).isDead block = false := by
  rw [LaidCode.isDead, Array.getD_eq_getD_getElem?, recordedLayout, Array.getElem?_map]
  cases (alignSwitches blocks)[block]? <;> rfl

theorem zipWith_bury_recorded (blocks : Array CodeBlock) :
    Array.zipWith (fun code isDead => if isDead then bury code else code) blocks
      (blocks.map fun code => false && code.frame.isNone && decide (0 < code.width)) = blocks :=
  zipWith_bury blocks

theorem contains_true_iff {dead : Array Bool} :
    dead.contains true = true ↔ ∃ block : Nat, dead.getD block false = true := by
  rw [Array.contains_iff_mem, Array.mem_iff_getElem?]
  refine exists_congr fun block => ?_
  rw [Array.getD_eq_getD_getElem?]
  cases dead[block]? with
  | some isDead => rw [Option.some.injEq, Option.getD_some]
  | none => exact iff_of_false (Option.some_ne_none _).symm Bool.false_ne_true

theorem not_contains_of_live {dead : Array Bool} (live : ∀ block : Nat, dead.getD block false = false) :
    ¬dead.contains true = true := by
  rw [contains_true_iff]
  rintro ⟨block, isDead⟩
  cases (live block).symm.trans isDead

end Assembly

/-- A method whose code is laid out. -/
structure LaidMethod where
  graph : FlowGraph
  limits : Limits
  laid : LaidCode

/-- The frames that are written with it. -/
def LaidMethod.frames (laidOut : LaidMethod) (mode : ComputeMode) (wantsFrames : Bool) :
    List (Nat × BlockFrame) :=
  if mode.computesFrames then
    if wantsFrames then laidOut.laid.neededFrames laidOut.graph.handlers else []
  else laidOut.laid.recordedFrames

namespace MethodBody

open Assembly

/-- The limits of a body, computed or as they were recorded. -/
def limitsOf (body : MethodBody) (method : MethodContext) (mode : ComputeMode) (graph : FlowGraph)
    (pool : Pool) : Except Fault Limits :=
  if mode.computesLimits then Limits.compute graph pool method.parameterWidth
  else .ok (body.limits.getD ⟨0, 0⟩)

/-- The widened blocks of a graph.  If frames were recorded, some more are added. -/
def recordedBlocks (context : CodeContext) (locals : Nat) : Except Fault (Array CodeBlock) :=
  let blocks := (widened (alignSwitches context.graph.blocks)).blocks
  if context.graph.blocks.any fun code => code.frame.isSome then
    addWidenedFrames context locals blocks
  else .ok blocks

/-- Code with computed frames.  Where some of it is dead, the stack holds what that throws. -/
def computedMethod (graph : FlowGraph) (limits : Limits) (frames : Array (Option BlockFrame)) :
    LaidMethod :=
  let laid := computedLayout graph.blocks frames
  ⟨graph, if laid.dead.contains true then { limits with stack := max limits.stack 1 } else limits,
    laid⟩

/-- Everything that comes before the length of the code is looked at. -/
def layOut (body : MethodBody) (method : MethodContext) (mode : ComputeMode) :
    Assembler LaidMethod := do
  let graph ← FlowGraph.ofItems body.items body.handlers (!mode.computesFrames)
  let pool := (← get).pool
  let limits ← body.limitsOf method mode graph pool
  if mode.computesFrames then
    let frames ← Assembler.query (CodeContext.inferFrames ⟨graph, method, pool⟩ limits.locals)
    return computedMethod graph limits frames
  else
    let others ← recordedBlocks ⟨graph, method, pool⟩ limits.locals
    return ⟨graph, limits, recordedLayout graph.blocks others⟩

theorem lift_ite_bind {α β : Type} {condition : Prop} [Decidable condition]
    (computed : Except Fault α) (given : α) (next : α → Assembler β) :
    ((if condition then computed else .ok given : Except Fault α) : Assembler α) >>= next =
      if condition then (computed : Assembler α) >>= next else pure given >>= next := by
  split <;> rfl

/-- Assembling lays code out and writes it. -/
theorem assemble_eq (body : MethodBody) (method : MethodContext) (mode : ComputeMode)
    (wantsFrames : Bool) : body.assemble method mode wantsFrames = (do
      let laidOut ← body.layOut method mode
      writeOut method laidOut.limits laidOut.laid laidOut.graph.handlers
        (laidOut.frames mode wantsFrames)) := by
  unfold assemble layOut limitsOf
  rw [bind_assoc]
  refine bind_congr fun graph => ?_
  rw [bind_assoc]
  refine bind_congr fun state => ?_
  dsimp only
  rw [bind_assoc, ← lift_ite_bind]
  refine bind_congr fun limits => ?_
  cases computes : mode.computesFrames with
  | true =>
    have unrecorded : ¬(!true && graph.blocks.any fun code => code.frame.isSome) = true :=
      Bool.false_ne_true
    rw [if_pos rfl, if_pos rfl, bind_assoc]
    refine bind_congr fun frames => ?_
    rw [if_neg unrecorded, pure_bind, pure_bind, LaidMethod.frames, if_pos computes, if_pos rfl]
    cases wantsFrames with
    | true =>
      have wanted : (true || !true) = true := rfl
      rw [wanted, Bool.and_true]
      rfl
    | false =>
      have unwanted : (false || !true) = false := rfl
      rw [unwanted, Bool.and_false]
      rfl
  | false =>
    have framed : (!false && graph.blocks.any fun code => code.frame.isSome) =
        graph.blocks.any fun code => code.frame.isSome := rfl
    have wanted : (wantsFrames || !false) = true := Bool.or_true _
    have undead : ¬((alignSwitches graph.blocks).map fun code =>
        false && code.frame.isNone && decide (0 < code.width)).contains true = true :=
      not_contains_of_live (isDead_recordedLayout graph.blocks (alignSwitches graph.blocks))
    rw [if_neg Bool.false_ne_true, if_neg Bool.false_ne_true, pure_bind, zipWith_frame,
      zipWith_bury_recorded, if_neg undead, framed, recordedBlocks, bind_assoc, ← lift_ite_bind]
    refine bind_congr fun others => ?_
    rw [pure_bind, LaidMethod.frames, computes, if_neg Bool.false_ne_true,
      if_neg Bool.false_ne_true, wanted, Bool.and_true]
    rfl

variable {body : MethodBody} {method : MethodContext} {before after : Assembler.State}
  {graph : FlowGraph} {limits : Limits} {mode : ComputeMode} {wantsFrames : Bool}
  {laidOut : LaidMethod}

/-- A method that is assembled was laid out and written. -/
theorem layOut_of_assemble {image : CodeImage}
    (run : (body.assemble method mode wantsFrames).run before = (.ok image, after)) :
    ∃ laidOut between, (body.layOut method mode).run before = (.ok laidOut, between) ∧
      (writeOut method laidOut.limits laidOut.laid laidOut.graph.handlers
        (laidOut.frames mode wantsFrames)).run between = (.ok image, after) := by
  rw [assemble_eq] at run
  exact run_bind_eq_ok.1 run

theorem run_assemble (laid : (body.layOut method mode).run before = (.ok laidOut, after)) :
    (body.assemble method mode wantsFrames).run before =
      (writeOut method laidOut.limits laidOut.laid laidOut.graph.handlers
        (laidOut.frames mode wantsFrames)).run after := by
  rw [assemble_eq]
  exact run_bind_of_ok laid

/-- What is laid out with computed frames. -/
theorem computed_of_layOut (computes : mode.computesFrames = true)
    (run : (body.layOut method mode).run before = (.ok laidOut, after)) :
    ∃ limits frames, FlowGraph.ofItems body.items body.handlers false = .ok laidOut.graph ∧
      body.limitsOf method mode laidOut.graph before.pool = .ok limits ∧
      (CodeContext.inferFrames ⟨laidOut.graph, method, before.pool⟩ limits.locals).run
        before.hierarchy = (.ok frames, after.hierarchy) ∧
      laidOut = computedMethod laidOut.graph limits frames := by
  unfold layOut at run
  rcases run_bind_eq_ok.1 run with ⟨graph, _, lifted, run⟩
  rcases run_lift_eq_ok.1 lifted with ⟨built, rfl⟩
  rw [computes] at built
  rcases run_bind_eq_ok.1 run with ⟨_, _, isState, run⟩
  rcases run_get_eq_ok.1 isState with ⟨rfl, rfl⟩
  rcases run_bind_eq_ok.1 run with ⟨limits, _, computed, run⟩
  rcases run_lift_eq_ok.1 computed with ⟨bounded, rfl⟩
  rw [if_pos computes] at run
  rcases run_bind_eq_ok.1 run with ⟨frames, _, inferred, run⟩
  rcases run_pure_eq_ok.1 run with ⟨rfl, rfl⟩
  exact ⟨limits, frames, built, bounded, Assembler.run_query inferred, rfl⟩

/-- Code is laid out with computed frames once they are inferred. -/
theorem run_layOut_computed {frames : Array (Option BlockFrame)} {hierarchy : Hierarchy}
    (computes : mode.computesFrames = true)
    (built : FlowGraph.ofItems body.items body.handlers false = .ok graph)
    (bounded : body.limitsOf method mode graph before.pool = .ok limits)
    (inferred : (CodeContext.inferFrames ⟨graph, method, before.pool⟩ limits.locals).run
      before.hierarchy = (.ok frames, hierarchy)) :
    (body.layOut method mode).run before =
      (.ok (computedMethod graph limits frames), ⟨before.pool, hierarchy⟩) := by
  unfold layOut
  rw [computes]
  refine (run_bind_of_ok (run_lift_eq_ok.2 ⟨built, rfl⟩)).trans ?_
  refine (run_bind_of_ok (run_get_eq_ok.2 ⟨rfl, rfl⟩)).trans ?_
  refine (run_bind_of_ok (run_lift_eq_ok.2 ⟨bounded, rfl⟩)).trans ?_
  rw [if_pos rfl]
  exact run_bind_of_ok (Assembler.run_query_of_run inferred)

/-- The code of a body as it is laid out with recorded frames. -/
def recordedMethod (body : MethodBody) (method : MethodContext) (mode : ComputeMode) (pool : Pool) :
    Except Fault LaidMethod := do
  let graph ← FlowGraph.ofItems body.items body.handlers true
  let limits ← body.limitsOf method mode graph pool
  let others ← recordedBlocks ⟨graph, method, pool⟩ limits.locals
  return ⟨graph, limits, recordedLayout graph.blocks others⟩

/-- With recorded frames laying code out leaves the state alone. -/
theorem run_layOut_recorded (recorded : mode.computesFrames = false) :
    (body.layOut method mode).run before =
      (body.recordedMethod method mode before.pool, before) := by
  unfold layOut
  rw [recorded]
  refine Eq.trans ?_ (run_lift (body.recordedMethod method mode before.pool))
  unfold recordedMethod
  rw [lift_bind]
  cases built : FlowGraph.ofItems body.items body.handlers true with
  | error fault => 
    exact run_bind_of_error ((run_lift _).trans (congrArg (fun value => (value, before)) built))
  | ok graph =>
    refine (run_bind_of_ok (run_lift_eq_ok.2 ⟨built, rfl⟩)).trans ?_
    refine Eq.trans ?_ (run_bind_of_ok (run_lift_eq_ok.2 ⟨rfl, rfl⟩)).symm
    refine (run_bind_of_ok (run_get_eq_ok.2 ⟨rfl, rfl⟩)).trans ?_
    dsimp only
    rw [lift_bind]
    refine congrArg (fun run : Assembler LaidMethod => run.run before) (bind_congr fun limits => ?_)
    rw [if_neg Bool.false_ne_true, lift_bind]
    rfl

/-- What is laid out with recorded frames. -/
theorem recorded_of_layOut (recorded : mode.computesFrames = false)
    (run : (body.layOut method mode).run before = (.ok laidOut, after)) :
    ∃ others, FlowGraph.ofItems body.items body.handlers true = .ok laidOut.graph ∧
      body.limitsOf method mode laidOut.graph before.pool = .ok laidOut.limits ∧
      recordedBlocks ⟨laidOut.graph, method, before.pool⟩ laidOut.limits.locals = .ok others ∧
      laidOut.laid = recordedLayout laidOut.graph.blocks others := by
  rw [run_layOut_recorded recorded] at run
  obtain ⟨laid, -⟩ := Prod.mk.inj run
  obtain ⟨graph, built, laid⟩ := bind_eq_ok.1 laid
  obtain ⟨limits, bounded, laid⟩ := bind_eq_ok.1 laid
  obtain ⟨others, added, same⟩ := bind_eq_ok.1 laid
  obtain rfl := pure_eq_ok.1 same
  exact ⟨others, built, bounded, added, rfl⟩

/-- Frames that are added change no code. -/
theorem sameCode_of_recordedBlocks {context : CodeContext} {locals : Nat} {others : Array CodeBlock}
    (run : recordedBlocks context locals = .ok others) :
    SameCode (widened (alignSwitches context.graph.blocks)).blocks others := by
  rw [recordedBlocks] at run
  split at run
  · exact sameCode_addWidenedFrames run
  · obtain rfl := Except.ok.inj run
    exact .refl _

/-! ## What is assembled -/

theorem written_of_assemble {image : CodeImage} (recorded : mode.computesFrames = false)
    (run : (body.assemble method mode wantsFrames).run before = (.ok image, after)) :
    ∃ graph laid, FlowGraph.ofItems body.items body.handlers true = .ok graph ∧
      Written graph laid image.bytes ∧ (∀ block, laid.isDead block = false) ∧
      image.exceptions = exceptionTable laid graph.handlers := by
  obtain ⟨laidOut, between, laid, run⟩ := layOut_of_assemble run
  obtain ⟨others, built, -, added, same⟩ := recorded_of_layOut recorded laid
  have written := writtenOut_of_run run
  have sameCode := sameCode_of_recordedBlocks added
  rw [same] at written
  exact ⟨laidOut.graph, recordedLayout laidOut.graph.blocks others, built,
    ⟨sameCode, rfl, rfl, written.short, written.encoded⟩, isDead_recordedLayout _ _,
    written.exceptions_eq⟩

theorem computed_of_assemble {image : CodeImage}
    (run : (body.assemble method .frames wantsFrames).run before = (.ok image, after)) :
    ∃ graph laid, LaysOut body method before graph laid ∧
      Layout.length laid.blocks laid.order < 65536 ∧
      Encoding.each (encodeBlock laid) laid.order = .ok image.bytes ∧
      image.exceptions = exceptionTable laid graph.handlers ∧
      (wantsFrames = true → Mapped method laid.offsets (laid.neededFrames graph.handlers)
        image.attributes after) ∧
      (wantsFrames = false → image.attributes = []) := by
  obtain ⟨laidOut, between, laid, run⟩ := layOut_of_assemble run
  obtain ⟨limits, frames, built, bounded, inferred, same⟩ := computed_of_layOut rfl laid
  have computes : ComputeMode.frames.computesFrames = true := rfl
  rw [LaidMethod.frames, if_pos computes] at run
  obtain ⟨written, unmapped⟩ := writtenOut_and_unmapped run
  have isLaid : laidOut.laid = computedLayout laidOut.graph.blocks frames :=
    congrArg LaidMethod.laid same
  refine ⟨laidOut.graph, laidOut.laid, ⟨built, limits, frames, _, bounded, inferred, isLaid⟩,
    written.short, written.encoded, written.exceptions_eq, ?wanted, ?unwanted⟩
  case wanted =>
    rintro rfl
    rw [if_pos rfl] at written
    exact written.mapped
  case unwanted =>
    rintro rfl
    exact unmapped (if_neg Bool.false_ne_true)

variable {hierarchy : Hierarchy}

theorem run_assemble_computed {frames : Array (Option BlockFrame)}
    (built : FlowGraph.ofItems body.items body.handlers false = .ok graph)
    (computed : Limits.compute graph before.pool method.parameterWidth = .ok limits)
    (inferred : (CodeContext.inferFrames ⟨graph, method, before.pool⟩ limits.locals).run
      before.hierarchy = (.ok frames, hierarchy)) :
    (body.assemble method .frames wantsFrames).run before =
      (writeOut method (computedMethod graph limits frames).limits
        (computedLayout graph.blocks frames) graph.handlers
        (if wantsFrames then (computedLayout graph.blocks frames).neededFrames graph.handlers
          else [])).run ⟨before.pool, hierarchy⟩ := by
  have bounded : body.limitsOf method .frames graph before.pool = .ok limits := computed
  rw [run_assemble (run_layOut_computed rfl built bounded inferred)]
  rfl

/-- Assembling with computed frames, where no code is dead. -/
theorem run_assemble_frames {frames : Array (Option BlockFrame)}
    (built : FlowGraph.ofItems body.items body.handlers false = .ok graph)
    (computed : Limits.compute graph before.pool method.parameterWidth = .ok limits)
    (inferred : (CodeContext.inferFrames ⟨graph, method, before.pool⟩ limits.locals).run
      before.hierarchy = (.ok frames, hierarchy))
    (alive : ∀ block, (computedLayout graph.blocks frames).isDead block = false) :
    (body.assemble method .frames true).run before =
      (writeOut method limits (computedLayout graph.blocks frames) graph.handlers
        ((computedLayout graph.blocks frames).neededFrames graph.handlers)).run
          ⟨before.pool, hierarchy⟩ := by
  rw [run_assemble_computed built computed inferred, computedMethod,
    if_neg (not_contains_of_live alive), if_pos rfl]

/-- Assembling without frames, which adds none. -/
theorem run_assemble_unframed (recorded : mode.computesFrames = false)
    (built : FlowGraph.ofItems body.items body.handlers true = .ok graph)
    (bounded : body.limitsOf method mode graph before.pool = .ok limits)
    (unframed : graph.blocks.any (fun code => code.frame.isSome) = false) :
    (body.assemble method mode wantsFrames).run before =
      (writeOut method limits
        (recordedLayout graph.blocks (widened (alignSwitches graph.blocks)).blocks) graph.handlers
        (recordedLayout graph.blocks
          (widened (alignSwitches graph.blocks)).blocks).recordedFrames).run before := by
  have laid : body.recordedMethod method mode before.pool =
      .ok ⟨graph, limits, recordedLayout graph.blocks (widened (alignSwitches graph.blocks)).blocks⟩ := by
    refine bind_eq_ok.2 ⟨graph, built, bind_eq_ok.2 ⟨limits, bounded, bind_eq_ok.2 ⟨_, ?_, rfl⟩⟩⟩
    rw [recordedBlocks, if_neg (by rw [unframed]; exact Bool.false_ne_true)]
  rw [run_assemble ((run_layOut_recorded recorded).trans (congrArg (fun value => (value, before)) laid)),
    LaidMethod.frames, recorded, if_neg Bool.false_ne_true]

/-- Assembling with recorded frames, of which there are some: frames are added after the
branches that were widened. -/
theorem run_assemble_recorded
    (built : FlowGraph.ofItems body.items body.handlers true = .ok graph)
    (computed : Limits.compute graph before.pool method.parameterWidth = .ok limits)
    (framed : graph.blocks.any (fun code => code.frame.isSome) = true) :
    (body.assemble method .limits wantsFrames).run before =
      ((addWidenedFrames ⟨graph, method, before.pool⟩ limits.locals
        (widened (alignSwitches graph.blocks)).blocks : Assembler (Array CodeBlock)) >>=
          fun others => writeOut method limits (recordedLayout graph.blocks others) graph.handlers
            (recordedLayout graph.blocks others).recordedFrames).run before := by
  have laid : body.recordedMethod method .limits before.pool =
      addWidenedFrames ⟨graph, method, before.pool⟩ limits.locals
        (widened (alignSwitches graph.blocks)).blocks >>= fun others =>
          .ok ⟨graph, limits, recordedLayout graph.blocks others⟩ := by
    have bounded : body.limitsOf method .limits graph before.pool = .ok limits := computed
    rw [recordedMethod, built]
    change body.limitsOf method .limits graph before.pool >>= _ = _
    rw [bounded]
    change recordedBlocks _ _ >>= _ = _
    rw [recordedBlocks, if_pos framed]
    rfl
  have lifted := (run_layOut_recorded rfl).trans (congrArg (fun value => (value, before)) laid)
  rw [assemble_eq]
  cases added : addWidenedFrames ⟨graph, method, before.pool⟩ limits.locals
      (widened (alignSwitches graph.blocks)).blocks with
  | error fault =>
    rw [added] at lifted
    exact run_bind_of_error lifted
  | ok others =>
    rw [added] at lifted
    exact run_bind_of_ok lifted

/-- Assembling with recorded frames once frames were added. -/
theorem run_assemble_limits {others : Array CodeBlock}
    (built : FlowGraph.ofItems body.items body.handlers true = .ok graph)
    (computed : Limits.compute graph before.pool method.parameterWidth = .ok limits)
    (framed : graph.blocks.any (fun code => code.frame.isSome) = true)
    (added : addWidenedFrames ⟨graph, method, before.pool⟩ limits.locals
      (widened (alignSwitches graph.blocks)).blocks = .ok others) :
    (body.assemble method .limits wantsFrames).run before =
      (writeOut method limits (recordedLayout graph.blocks others) graph.handlers
        (recordedLayout graph.blocks others).recordedFrames).run before :=
  (run_assemble_recorded built computed framed).trans (run_bind_of_ok (run_lift_eq_ok.2 ⟨added, rfl⟩))

end MethodBody
end ClassFile
