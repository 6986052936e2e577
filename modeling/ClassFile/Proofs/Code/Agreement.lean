import ClassFile.Proofs.Code.FramePlaces
import ClassFile.Proofs.Code.SuppliedShapes
import ClassFile.Proofs.Code.WritingOut
import ClassFile.Proofs.Frame.Writing

namespace ClassFile

/-!
# Computed and supplied frames agree

A body that is assembled with computed frames is assembled as the same code when it
carries these frames where they are needed, as long as no operand is ever unusable and no
code is dead.  Frames stand at the same offsets, also around branches that are widened.
-/

namespace Assembly

open Inference (Stable Reached Traces)

variable {graph supplied : FlowGraph} {frames : Array (Option BlockFrame)} {laid other : LaidCode}
  {far : Finset Nat} {parts : Nat → List Nat} {method : MethodContext} {pool : Pool} {locals : Nat}

/-! ## The same code -/

/-- Blocks with computed frames are the blocks as they were recorded if none is dead. -/
theorem sameCode_live (inferred : Inferred graph frames) (alive : AllLive graph frames) :
    SameCode (live graph.blocks frames) (alignSwitches graph.blocks) := by
  refine SameCode.trans (fun block => ?_) (sameCode_framed inferred.size)
  cases found : (live graph.blocks frames)[block]? with
  | some code =>
    obtain ⟨before, there, same⟩ := live_getElem? found
    have kept : code = before := by
      split at same
      · next dead =>
        rw [Bool.and_eq_true, decide_eq_true_eq, Option.isNone_iff_eq_none] at dead
        obtain ⟨original, frame, -, isFrame, isBefore⟩ := framed_getElem? there
        have missing : frame = none := by rw [isBefore] at dead; exact dead.1
        have empty := alive.width_eq_zero found (missing ▸ isFrame)
        rw [same, width_bury dead.2] at empty
        omega
      · exact same
    rw [kept]
    exact congrArg (Option.map contents) there.symm
  | none =>
    have beyond : (framed graph.blocks frames).size ≤ block := by
      rw [framed, size_alignSwitches, Array.size_zipWith, inferred.size, Nat.min_self,
        ← size_live inferred.size]
      exact Array.getElem?_eq_none_iff.1 found
    exact congrArg (Option.map contents) (Array.getElem?_eq_none beyond).symm

/-! ## The same frames -/

/-- The code of a graph is laid out in the same way with frames that were recorded, which
are placed where the computed ones are. -/
structure LaidAlike (graph : FlowGraph) (laid other : LaidCode) (locals : Nat) : Prop where
  sameCode : SameCode laid.blocks other.blocks
  order_eq : other.order = laid.order
  offsets_eq : other.offsets = laid.offsets
  dead_eq : other.isDead = laid.isDead
  increasing : ((laid.neededFrames graph.handlers).map Prod.fst).Pairwise (· < ·)
  places : other.recordedFrames.map Prod.fst = (laid.neededFrames graph.handlers).map Prod.fst
  inside : ∀ placed ∈ other.recordedFrames, placed.1 < Layout.length laid.blocks laid.order
  /-- A frame that is placed has as many locals and operands as the computed one. -/
  shaped : ∀ placed ∈ other.recordedFrames, placed.2.locals.length = locals ∧
    ∃ known ∈ laid.neededFrames graph.handlers, placed.2.stack.length = known.2.stack.length
  located : ∀ placed ∈ other.recordedFrames, ∀ site, placed.2.Mentions site →
    ∃ offset, other.offsets[site]? = some offset ∧ offset ≤ Layout.length laid.blocks laid.order

/-- A graph is laid out with its computed frames, and another one with its supplied frames
and those that were added. -/
structure LaidTwice (graph : FlowGraph) (frames : Array (Option BlockFrame)) (context : CodeContext)
    (locals : Nat) (laid other : LaidCode) (far : Finset Nat) (parts : Nat → List Nat)
    (blocks : Array CodeBlock) : Prop where
  laidOut : Laid graph frames laid far parts
  rewritten : ∀ block < graph.blocks.size, Widening.Rewritten .nop none
    (alignSwitches context.graph.blocks) blocks far block (parts block)
  same : SameCode laid.blocks blocks
  given : Given context locals graph.blocks.size (List.range graph.blocks.size) blocks other.blocks
  order_eq : other.order = laid.order

section

variable (laidOut : Laid graph frames laid far parts)

include laidOut

theorem Laid.offset_le_length {part : Nat} (isPlaced : part ∈ laid.order) :
    laid.offset part ≤ Layout.length laid.blocks laid.order := by
  have member := laidOut.mem_starts.2 ⟨isPlaced, rfl⟩
  exact Nat.le_trans (Nat.le_add_right _ _) (Layout.starts_le_length member)

/-- Bytes at one offset are those of one block. -/
theorem Laid.eq_of_offset {part part' : Nat} (isPlaced : part ∈ laid.order)
    (isPlaced' : part' ∈ laid.order) (some_ : 0 < Layout.blockWidth laid.blocks part)
    (some_' : 0 < Layout.blockWidth laid.blocks part')
    (sameOffset : laid.offset part = laid.offset part') : part = part' := by
  obtain ⟨index, found⟩ := List.mem_iff_getElem?.1 (laidOut.mem_starts.2 ⟨isPlaced, rfl⟩)
  obtain ⟨index', found'⟩ := List.mem_iff_getElem?.1 (laidOut.mem_starts.2 ⟨isPlaced', rfl⟩)
  rcases Nat.lt_trichotomy index index' with ahead | rfl | behind
  · have apart := Layout.starts_apart ahead found found'
    dsimp only at apart
    omega
  · exact congrArg Prod.fst (Option.some.inj (found.symm.trans found'))
  · have apart := Layout.starts_apart behind found' found
    dsimp only at apart
    omega

/-- The needed frame at the offset of a part with bytes is the computed one of the part. -/
theorem Laid.computed_of_needed (inferred : Inferred graph frames) (alive : AllLive graph frames)
    {part offset : Nat} {known : BlockFrame} (isPlaced : part ∈ laid.order)
    (some_ : 0 < Layout.blockWidth laid.blocks part) (isOffset : laid.offset part = offset)
    (isKnown : (offset, known) ∈ laid.neededFrames graph.handlers) :
    (part < graph.blocks.size → frames[part]? = some (some known)) ∧
      frameOf? laid.blocks part = some known := by
  obtain ⟨part', isPlaced', code, there, some_', isFrame, isOffset'⟩ :=
    LaidCode.frame_of_mem_neededFrames isKnown
  have samePart : part = part' := by
    refine laidOut.eq_of_offset isPlaced isPlaced' some_ ?_ (isOffset.trans isOffset'.symm)
    rwa [Layout.blockWidth, there]
  subst samePart
  have computed : frameOf? laid.blocks part = some known := frameOf?_eq_some.2 ⟨code, there, isFrame⟩
  refine ⟨fun inside => ?_, computed⟩
  obtain ⟨frame, found⟩ := laidOut.framed_of_bytes inferred alive inside some_
  have isComputed := frameOf?_live_of_framed inferred found
  rw [← frameOf?_of_rewritten (laidOut.rewritten part inside), computed] at isComputed
  exact Option.some.inj isComputed ▸ found

end

section

variable (inferred : Inferred graph frames) (alive : AllLive graph frames)
  (stable : Stable FrameNear ⟨graph, method, pool⟩ (fun _ frame => frame.locals.length = locals)
    ⟨frames, []⟩)
  (usable : Usable ⟨graph, method, pool⟩ frames) (traces : Traces ⟨graph, method, pool⟩ frames)
  (started : Reached FrameNear ⟨frames, []⟩ 0 (method.entryFrame.resize locals))
  (fits : method.entryFrame.locals.length ≤ locals) (isSupplied : graph.Supplied frames supplied)

include inferred alive stable usable traces started fits isSupplied

/-- Replaying gives a frame to every block that a widened branch used to fall into. -/
theorem Laid.replays (laidOut : Laid graph frames laid far parts) {block next : Nat}
    (inside : block < graph.blocks.size)
    (leads : widenedNext? graph.blocks.size laid.blocks block = some next) :
    ∃ frame, CodeContext.replay ⟨supplied, method, pool⟩ locals block = .ok frame := by
  obtain ⟨rfl, first, split⟩ := (laidOut.widenedNext?_eq_some inferred inside).1 leads
  obtain ⟨code, condition, target, there, branch, -, -, -⟩ := laidOut.split inferred inside split
  have reached := alive.framed inferred there
    (Nat.add_pos_right _ (by rw [branch]; exact Nat.succ_pos 2))
  obtain ⟨frame, replayed, -⟩ :=
    replay_replayed stable usable isSupplied inferred traces started fits reached
  exact ⟨frame, replayed⟩

/-- Layouts are alike if their blocks only differ in the frames that were added. -/
theorem Laid.laidAlike {blocks : Array CodeBlock} (laidOut : Laid graph frames laid far parts)
    (rewritten : ∀ block < graph.blocks.size, Widening.Rewritten .nop none
      (alignSwitches supplied.blocks) blocks far block (parts block))
    (same : SameCode laid.blocks blocks)
    (given : Given ⟨supplied, method, pool⟩ locals graph.blocks.size (List.range graph.blocks.size)
      blocks other.blocks)
    (order_eq : other.order = laid.order) (offsets_eq : other.offsets = laid.offsets)
    (offsets : laid.offsets = Layout.offsets laid.blocks laid.order)
    (undead : ∀ block, other.isDead block = false) : LaidAlike graph laid other locals := by
  have sameCode := same.trans given.sameCode
  have starts : Layout.starts other.blocks other.order = Layout.starts laid.blocks laid.order := by
    rw [order_eq, sameCode.starts_eq]
  have length : Layout.length other.blocks other.order = Layout.length laid.blocks laid.order := by
    rw [order_eq, Layout.length_eq_sum, Layout.length_eq_sum, sameCode.blockWidth_eq]
  have placed : other.offset = laid.offset := by
    funext block
    rw [LaidCode.offset, LaidCode.offset, offsets_eq]
  obtain ⟨increasing, exact_⟩ := laidOut.neededFrames_spec inferred inferred.closed.handlers
  obtain ⟨increasing', exact'⟩ := @LaidCode.recordedFrames_spec other (by
    rw [starts, placed]
    exact laidOut.starts)
  have like := laidOut.recordedFrames_like inferred stable traces alive isSupplied rewritten same given
    order_eq usable started fits
  rw [length, starts] at exact'
  have places : other.recordedFrames.map Prod.fst =
      (laid.neededFrames graph.handlers).map Prod.fst := by
    refine increasing'.eq_of_mem_iff increasing fun offset => ?_
    rw [exact', exact_]
    refine and_congr_right fun short => ?_
    rw [laidOut.framedAt_iff_due inferred isSupplied rewritten same given alive,
      laidOut.needsAt_iff_due inferred alive short]
  constructor
  case sameCode => exact sameCode
  case order_eq => exact order_eq
  case offsets_eq => exact offsets_eq
  case dead_eq =>
    funext block
    rw [undead, eq_comm, Bool.eq_false_iff]
    intro dead
    obtain ⟨missing, some_⟩ := (laidOut.dead block).1 dead
    exact Nat.ne_of_gt some_ (alive block missing)
  case increasing => exact increasing
  case places => exact places
  case inside => exact fun entry member => ((exact' _).1 (List.mem_map_of_mem member)).1
  case shaped =>
    intro entry member
    obtain ⟨part, isPlaced, some_, isOffset, fits⟩ := like entry member
    rw [order_eq] at isPlaced
    rw [← sameCode.blockWidth_eq] at some_
    refine ⟨fits.locals, ?_⟩
    have needed := List.mem_map_of_mem (f := Prod.fst) member
    rw [places, List.mem_map] at needed
    obtain ⟨⟨offset, known⟩, isKnown, sameOffset⟩ := needed
    refine ⟨_, isKnown, ?_⟩
    obtain ⟨own, added⟩ := laidOut.computed_of_needed inferred alive isPlaced some_
      ((congrFun placed part).symm.trans (isOffset.trans sameOffset.symm)) isKnown
    rcases Nat.lt_or_ge part graph.blocks.size with inside | beyond
    · exact fits.height known (own inside)
    · rw [Option.some.inj (added.symm.trans (fits.added beyond))]
  case located =>
    intro entry member site mentions
    obtain ⟨part, -, -, -, fits⟩ := like entry member
    have isPlaced := laidOut.mem_self (fits.made site mentions)
    refine ⟨laid.offset site, ?_, laidOut.offset_le_length isPlaced⟩
    rw [offsets_eq, offsets]
    exact Layout.offsets_of_mem_starts laidOut.distinct (laidOut.mem_starts.2 ⟨isPlaced, rfl⟩)
      (laidOut.inside isPlaced)

theorem exists_laidTwice :
    ∃ others far parts, addWidenedFrames ⟨supplied, method, pool⟩ locals
        (widened (alignSwitches supplied.blocks)).blocks = .ok others ∧
      LaidTwice graph frames ⟨supplied, method, pool⟩ locals (computedLayout graph.blocks frames)
        (recordedLayout supplied.blocks others) far parts
        (widened (alignSwitches supplied.blocks)).blocks := by
  have size := size_live inferred.size
  have sameLive := (sameCode_live inferred alive).trans
    (FlowGraph.Supplied.sameCode isSupplied).align
  obtain ⟨sameWidened, sameOrder⟩ := sameLive.widened
  have plain := plain_live inferred
  rw [← size] at plain
  obtain ⟨far, parts, rewriting, rewriting'⟩ := sameLive.rewriting plain
  have laidOut := laid_of_rewriting inferred rewriting
  have addition := @addWidenedFrames_given ⟨supplied, method, pool⟩ locals
    (widened (alignSwitches supplied.blocks)).blocks
  dsimp only at addition
  rw [isSupplied.size] at addition
  obtain ⟨others, added, given⟩ := addition fun block inside next leads =>
    laidOut.replays inferred alive stable usable traces started fits isSupplied inside
      (sameWidened.symm.widenedNext? leads)
  refine ⟨others, far, parts, added, laidOut, ?_, sameWidened, given, sameOrder.symm⟩
  exact fun block inside => rewriting'.rewritten block (by rwa [List.mem_range, size])

/-- Layouts are alike if their blocks only differ in the frames that were added. -/
theorem LaidTwice.laidAlike {others blocks : Array CodeBlock}
    (twice : LaidTwice graph frames ⟨supplied, method, pool⟩ locals
      (computedLayout graph.blocks frames) (recordedLayout supplied.blocks others) far parts blocks) :
    LaidAlike graph (computedLayout graph.blocks frames) (recordedLayout supplied.blocks others)
      locals := by
  obtain ⟨laidOut, rewritten, same, given, order_eq⟩ := twice
  refine laidOut.laidAlike inferred alive stable usable traces started fits isSupplied rewritten
    same given order_eq ?_ rfl (isDead_recordedLayout _ _)
  exact (congrArg (Layout.offsets others) order_eq).trans
    ((same.trans given.sameCode).offsets_eq _).symm

end

/-! ## The same image -/

section

variable {limits : Limits} {handlers : List Handler} {placed : List (Nat × BlockFrame)}
  {before after : Assembler.State} {image : CodeImage}

theorem run_stackMapAttribute (entries : List StackMapEntry) (before : Assembler.State) :
    ∃ name after, (stackMapAttribute entries).run before =
      ((StackMapEntry.encodeTable entries).map (Attribute.mk name), after) := by
  have named := StackMap.run_symbol (Pool.addUtf8 Attribute.stackMapTable) before
  generalize (Pool.addUtf8 Attribute.stackMapTable).run before.pool = added at named
  refine ⟨added.1, ⟨added.2, before.hierarchy⟩, (run_bind_of_ok named).trans ?_⟩
  cases StackMapEntry.encodeTable entries with
  | ok info => rfl
  | error fault => rfl

/-- Code is written once its stack map is made. -/
theorem exists_run_writeOut {bytes info : Bytes} {entries : List StackMapEntry}
    {between : Assembler.State} (short : Layout.length laid.blocks laid.order < 65536)
    (encoded : Encoding.each (encodeBlock laid) laid.order = .ok bytes) (some_ : placed ≠ [])
    (made : (StackMap.ofFrames method laid.offsets placed).run before = (.ok entries, between))
    (table : StackMapEntry.encodeTable entries = .ok info) :
    ∃ image after, (writeOut method limits laid handlers placed).run before = (.ok image, after) ∧
      image.bytes = bytes := by
  obtain ⟨name, after, named⟩ := run_stackMapAttribute entries between
  rw [table] at named
  exact ⟨_, after, run_writeOut_mapped short encoded some_ made named, rfl⟩

/-- Code is written, or writing only fails on an index that does not fit. -/
theorem run_writeOut_cases {bytes : Bytes} (short : Layout.length laid.blocks laid.order < 65536)
    (encoded : Encoding.each (encodeBlock laid) laid.order = .ok bytes)
    (count : placed.length < 65536)
    (small : ∀ entry ∈ placed, entry.1 < 65536 ∧ entry.2.locals.length < 65536 ∧
      entry.2.stack.length < 65536)
    (located : ∀ entry ∈ placed, StackMap.Located laid.offsets entry.2) (before : Assembler.State) :
    ∃ result after, (writeOut method limits laid handlers placed).run before = (result, after) ∧
      ((∃ image, result = .ok image ∧ image.bytes = bytes) ∨
        ∃ index, 65536 ≤ index ∧ result = .error (.codec (.wideIndex index))) := by
  have start : ∀ {next : Bytes → Assembler CodeImage}, ((Encoding.each (encodeBlock laid) laid.order :
      Assembler Bytes) >>= next).run before = (next bytes).run before :=
    run_bind_of_ok (run_lift_eq_ok.2 ⟨encoded, rfl⟩)
  by_cases none : placed = []
  · subst none
    exact ⟨_, before, run_writeOut_unmapped short encoded before, .inl ⟨_, rfl, rfl⟩⟩
  · obtain ⟨entries, between, made⟩ := @StackMap.exists_run_ofFrames method _ _ located
      (fun entry member => (small entry member).1) before
    have fails := StackMap.failsWide_encodeTable (StackMap.ofFrames_shaped made) count
      fun entry member => (small entry member).2
    cases table : StackMapEntry.encodeTable entries with
    | ok info =>
      obtain ⟨image, after, written, isBytes⟩ : ∃ image after,
          (writeOut method limits laid handlers placed).run before = (.ok image, after) ∧
            image.bytes = bytes := exists_run_writeOut short encoded none made table
      exact ⟨_, after, written, .inl ⟨image, rfl, isBytes⟩⟩
    | error fault =>
      obtain ⟨name, after, named⟩ := run_stackMapAttribute entries between
      rw [table] at named
      unfold writeOut
      dsimp only
      rw [if_neg (Nat.not_le_of_lt short), start,
        if_pos (by rw [Bool.not_eq_true', List.isEmpty_eq_false_iff]; exact none),
        run_bind_of_ok made, run_bind_of_error named]
      obtain ⟨index, large, rfl⟩ := fails fault table
      exact ⟨_, after, rfl, .inr ⟨index, large, rfl⟩⟩

end

end Assembly

/-! ## Locals of the first frame -/

theorem Frame.length_spread (types : List BlockType) :
    (Frame.spread types).length = (types.map VerificationType.width).sum := by
  fun_induction Frame.spread types with
  | case1 => rfl
  | case2 type rest wide ih =>
    rw [List.length_cons, List.length_cons, ih, List.map_cons, List.sum_cons, wide]
    omega
  | case3 type rest narrow ih =>
    have one : type.width = 1 := by
      cases type with
      | double | long => exact absurd rfl narrow
      | _ => rfl
    rw [List.length_cons, ih, List.map_cons, List.sum_cons, one, Nat.add_comm]

theorem MethodContext.length_entryFrame (method : MethodContext) :
    method.entryFrame.locals.length = method.parameterWidth := by
  have receiver : (method.receiver.map VerificationType.width).sum = (!method.isStatic).toNat := by
    rw [MethodContext.receiver]
    split
    · next isStatic => rw [isStatic]; rfl
    · next isVirtual =>
      rw [Bool.not_eq_true] at isVirtual
      rw [isVirtual]
      split <;> rfl
  have parameters : ((method.descriptor.parameters.map VerificationType.ofFieldType).map
      (VerificationType.width : BlockType → Nat)).sum = Wide.total method.descriptor.parameters := by
    rw [← sum_parameters, List.sum_reverse, List.map_map]
    exact congrArg List.sum (List.map_congr_left fun type _ => width_ofFieldType type)
  rw [MethodContext.entryFrame, Frame.ofEntries, Frame.length_spread, List.map_append,
    List.sum_append, receiver, parameters, MethodContext.parameterWidth,
    MethodDescriptor.parameterWidth]

theorem Limits.locals_bounds {graph : FlowGraph} {pool : Pool} {parameters : Nat} {limits : Limits}
    (computed : Limits.compute graph pool parameters = .ok limits) :
    parameters ≤ limits.locals ∧ limits.locals < 65536 := by
  constructor
  · rw [Limits.locals_of_compute computed]
    exact (Limits.localsOf_le_iff.1 (Nat.le_refl _)).1
  · obtain ⟨stack, -, rest⟩ := bind_eq_ok.1 computed
    dsimp only at rest
    split at rest
    · cases rest
    · split at rest
      · cases rest
      · next small =>
        cases rest
        exact Nat.lt_of_not_le small

/-! ## Agreement -/

namespace Assembly

/-- Two codes are the same apart from what their stack maps say of their frames, which
stand at the same offsets. -/
structure SameImage (image : CodeImage) (pool : Pool) (other : CodeImage) (otherPool : Pool) :
    Prop where
  bytes_eq : other.bytes = image.bytes
  limits_eq : other.limits = image.limits
  exceptions_eq : other.exceptions = image.exceptions
  places : ∃ entries others, StackMap.Listed pool entries image.attributes ∧
    StackMap.Listed otherPool others other.attributes ∧
      StackMap.places none others = StackMap.places none entries

theorem LaidAlike.offset_eq {graph : FlowGraph} {laid other : LaidCode} {locals : Nat}
    (alike : LaidAlike graph laid other locals) : other.offset = laid.offset := by
  funext block
  rw [LaidCode.offset, LaidCode.offset, alike.offsets_eq]

theorem LaidAlike.exceptionTable_eq {graph : FlowGraph} {laid other : LaidCode} {locals : Nat}
    (alike : LaidAlike graph laid other locals) (handlers : List Handler) :
    exceptionTable other handlers = exceptionTable laid handlers := by
  unfold exceptionTable liveRuns
  rw [alike.offset_eq, alike.order_eq, alike.dead_eq, alike.sameCode.blockWidth_eq]

theorem LaidAlike.length_eq {graph : FlowGraph} {laid other : LaidCode} {locals : Nat}
    (alike : LaidAlike graph laid other locals) :
    Layout.length other.blocks other.order = Layout.length laid.blocks laid.order := by
  rw [alike.order_eq, Layout.length_eq_sum, Layout.length_eq_sum, alike.sameCode.blockWidth_eq]

theorem LaidAlike.encodeBlock_eq {graph : FlowGraph} {laid other : LaidCode} {locals : Nat}
    (alike : LaidAlike graph laid other locals) : encodeBlock other = encodeBlock laid :=
  funext fun block => (Assembly.encodeBlock_eq alike.sameCode alike.offsets_eq.symm block).symm

/-- Frames that were written have few operands. -/
theorem Mapped.length_stack {method : MethodContext} {offsets : Array Nat}
    {placed : List (Nat × BlockFrame)} {attributes : List Attribute} {after : Assembler.State}
    (mapped : Mapped method offsets placed attributes after) :
    ∀ known ∈ placed, known.2.stack.length < 65536 := by
  rcases mapped with ⟨rfl, -⟩ | ⟨_, between, entries, stackMap, made, named, -⟩
  · exact fun _ member => absurd member List.not_mem_nil
  · obtain ⟨name, _, -, run⟩ := run_bind_eq_ok.1 named
    obtain ⟨info, _, lifted, -⟩ := run_bind_eq_ok.1 run
    exact StackMap.length_stack_of_encodeTable (StackMap.ofFrames_shaped made)
      (run_lift_eq_ok.1 lifted).1

theorem length_le_of_increasing {offsets : List Nat} {bound : Nat}
    (increasing : offsets.Pairwise (· < ·)) (below : ∀ offset ∈ offsets, offset < bound) :
    offsets.length ≤ bound := by
  have inside : offsets ⊆ List.range bound := fun offset member => List.mem_range.2 (below offset member)
  have shorter := (List.subperm_of_subset increasing.nodup inside).length_le
  rwa [List.length_range] at shorter

/-- Code that is laid out alike is written as the same code. -/
theorem LaidAlike.run_writeOut {graph : FlowGraph} {laid other : LaidCode} {method : MethodContext}
    {limits : Limits} {before after : Assembler.State} {image : CodeImage}
    (alike : LaidAlike graph laid other limits.locals) (small : limits.locals < 65536)
    (run : (writeOut method limits laid graph.handlers (laid.neededFrames graph.handlers)).run before =
      (.ok image, after)) (start : Assembler.State) :
    ∃ result last, (writeOut method limits other graph.handlers other.recordedFrames).run start =
        (result, last) ∧
      ((∃ image', result = .ok image' ∧ SameImage image after.pool image' last.pool) ∨
        ∃ index, 65536 ≤ index ∧ result = .error (.codec (.wideIndex index))) := by
  obtain ⟨short, encoded, limits_eq, exceptions_eq, mapped⟩ := writtenOut_of_run run
  obtain ⟨entries, listed, places⟩ := mapped.places alike.increasing
  have increasing : (other.recordedFrames.map Prod.fst).Pairwise (· < ·) :=
    alike.places ▸ alike.increasing
  have short' : Layout.length other.blocks other.order < 65536 := alike.length_eq ▸ short
  have encoded' : Encoding.each (encodeBlock other) other.order = .ok image.bytes := by
    rw [alike.encodeBlock_eq, alike.order_eq, encoded]
  have count : other.recordedFrames.length < 65536 := by
    rw [← List.length_map (f := Prod.fst)]
    refine Nat.lt_of_le_of_lt (length_le_of_increasing increasing fun offset member => ?_) short
    obtain ⟨entry, isEntry, rfl⟩ := List.mem_map.1 member
    exact alike.inside entry isEntry
  have fewOperands := mapped.length_stack
  have shaped : ∀ entry ∈ other.recordedFrames, entry.1 < 65536 ∧ entry.2.locals.length < 65536 ∧
      entry.2.stack.length < 65536 := by
    intro entry member
    obtain ⟨locals, known, isKnown, operands⟩ := alike.shaped entry member
    refine ⟨Nat.lt_trans (alike.inside entry member) short, locals ▸ small, ?_⟩
    rw [operands]
    exact fewOperands known isKnown
  have located : ∀ entry ∈ other.recordedFrames, StackMap.Located other.offsets entry.2 := by
    intro entry member site mentions
    obtain ⟨offset, found, within⟩ := alike.located entry member site mentions
    exact ⟨offset, found, Nat.lt_of_le_of_lt within short⟩
  obtain ⟨result, last, run', cases_⟩ := @run_writeOut_cases _ _ _ graph.handlers _ _ short'
    encoded' count shaped located start
  refine ⟨result, last, run', cases_.imp_left ?_⟩
  rintro ⟨image', rfl, -⟩
  obtain ⟨-, encoded'', limits_eq', exceptions_eq', mapped'⟩ := writtenOut_of_run run'
  obtain ⟨others, listed', places'⟩ := mapped'.places increasing
  refine ⟨image', rfl, ?_, ?_, ?_, entries, others, listed, listed', ?_⟩
  · exact Except.ok.inj (encoded''.symm.trans encoded')
  · rw [limits_eq', limits_eq]
  · rw [exceptions_eq', exceptions_eq, alike.exceptionTable_eq]
  · rw [places', places, alike.places]

end Assembly

end ClassFile
