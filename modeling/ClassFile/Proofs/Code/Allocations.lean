import ClassFile.Proofs.Code.FramePlaces
import ClassFile.Proofs.Frame.Tracing

namespace ClassFile

/-!
# Where uninitialized values are made in the code

A stack map names an uninitialized value by the offset of the `new` that made it.  With
computed frames every such offset is that of a block that starts with `new`, and such a
block starts with it still once jumps were widened and dead code was replaced.
-/

/-! ## Types in a stack map -/

/-- The types that an entry lists. -/
def StackMapEntry.types : StackMapEntry → List (VerificationType PoolIndex Nat)
  | same _ | chop .. => []
  | sameOne _ operand => [operand]
  | append _ locals => locals
  | full _ locals operands => locals ++ operands

namespace StackMap

/-- An entry lists nothing but types of its frame. -/
theorem types_entryAfter {frame previous : WrittenFrame} {delta : Nat}
    {type : VerificationType PoolIndex Nat}
    (member : type ∈ (frame.entryAfter previous delta).types) :
    type ∈ frame.locals ∨ type ∈ frame.stack := by
  have full : ∀ {type}, type ∈ (frame.fullEntry delta).types →
      type ∈ frame.locals ∨ type ∈ frame.stack := by
    intro type member
    rcases List.mem_append.1 member with inLocals | inStack
    · exact .inl (Frame.mem_locals_of_mem_entries inLocals)
    · exact .inr (List.mem_reverse.1 inStack)
  unfold Frame.entryAfter at member
  dsimp only at member
  split at member
  · split_ifs at member
    · cases member
    · cases member
    · exact .inl (Frame.mem_locals_of_mem_entries (List.mem_of_mem_drop member))
    · exact full member
  · next operand single =>
    split_ifs at member
    · rw [single]
      exact .inr member
    · exact full member
  · exact full member

theorem types_entriesAfter {frames : List (Nat × WrittenFrame)} {previous? : Option Nat}
    {previous : WrittenFrame} {made entries : Array StackMapEntry}
    (run : entriesAfter made previous? previous frames = .ok entries) {entry : StackMapEntry}
    (member : entry ∈ entries) :
    entry ∈ made ∨ ∃ placed ∈ frames, ∀ type ∈ entry.types,
      type ∈ placed.2.locals ∨ type ∈ placed.2.stack := by
  induction frames generalizing previous? previous made with
  | nil =>
    cases run
    exact .inl member
  | cons first frames ih =>
    rcases first with ⟨offset, frame⟩
    rw [entriesAfter_cons] at run
    split at run
    · rcases ih run with before | ⟨placed, isPlaced, holds⟩
      · rcases Array.mem_push.1 before with before | rfl
        · exact .inl before
        · exact .inr ⟨(offset, frame), List.mem_cons_self, fun _ => types_entryAfter⟩
      · exact .inr ⟨placed, List.mem_cons_of_mem _ isPlaced, holds⟩
    · cases run

theorem site_of_mapM {offsets : Array Nat} {type : BlockType} {offset : Nat}
    (run : type.mapM pure (siteOffset offsets) = .ok (.uninitialized offset)) :
    ∃ site, type = .uninitialized site ∧ siteOffset offsets site = .ok offset := by
  cases type with
  | uninitialized site =>
    obtain ⟨known, found, same⟩ := bind_eq_ok.1 run
    cases same
    exact ⟨site, rfl, found⟩
  | _ => cases run

/-- An offset that is written stands for a block that the frame mentions. -/
theorem FrameWritten.mentions {offsets : Array Nat} {pool : Pool} {frame : BlockFrame}
    {written : WrittenFrame} (isWritten : FrameWritten offsets pool frame written) {offset : Nat}
    (member : .uninitialized offset ∈ written.locals ∨ .uninitialized offset ∈ written.stack) :
    ∃ site, frame.Mentions site ∧ siteOffset offsets site = .ok offset := by
  obtain ⟨named, isNamed, -, rfl⟩ := isWritten
  have unnamed : ∀ {types : List (VerificationType String Nat)},
      .uninitialized offset ∈ types.map (·.withClasses pool.classIndex) →
        .uninitialized offset ∈ types := by
    intro types member
    obtain ⟨type, isIn, same⟩ := List.mem_map.1 member
    cases type with
    | uninitialized => exact VerificationType.uninitialized.inj same ▸ isIn
    | _ => cases same
  have renamed : ∀ {types : List BlockType} {results : List (VerificationType String Nat)},
      types.mapM (fun type => type.mapM pure (siteOffset offsets)) = .ok results →
        .uninitialized offset ∈ results →
          ∃ site, .uninitialized site ∈ types ∧ siteOffset offsets site = .ok offset := by
    intro types results run member
    obtain ⟨type, isIn, here⟩ := forall₂_mem (mapM_eq_ok.1 run) member
    obtain ⟨site, rfl, found⟩ := site_of_mapM here
    exact ⟨site, isIn, found⟩
  obtain ⟨locals, areLocals, run⟩ := bind_eq_ok.1 isNamed
  obtain ⟨operands, areOperands, same⟩ := bind_eq_ok.1 run
  obtain rfl := pure_eq_ok.1 same
  rcases member with inLocals | inStack
  · obtain ⟨site, isIn, found⟩ := renamed areLocals (unnamed inLocals)
    exact ⟨site, .inl isIn, found⟩
  · obtain ⟨site, isIn, found⟩ :=
      renamed areOperands (List.mem_reverse.1 (unnamed inStack))
    exact ⟨site, .inr (List.mem_reverse.1 isIn), found⟩

theorem mentions_of_ofFrames {method : MethodContext} {offsets : Array Nat}
    {frames : List (Nat × BlockFrame)} {before after : Assembler.State}
    {entries : List StackMapEntry}
    (run : (ofFrames method offsets frames).run before = (.ok entries, after))
    {entry : StackMapEntry} (member : entry ∈ entries) {offset : Nat}
    (lists : .uninitialized offset ∈ entry.types) :
    ∃ frame ∈ frames.map Prod.snd, ∃ site, frame.Mentions site ∧
      siteOffset offsets site = .ok offset := by
  rcases run_bind_eq_ok.1 run with ⟨placed, between, isPlaced, onward⟩
  rw [run_get_bind] at onward
  rcases run_bind_eq_ok.1 onward with ⟨first, _, -, onward⟩
  rcases run_bind_eq_ok.1 onward with ⟨array, _, differs, last⟩
  rcases run_lift_eq_ok.1 differs with ⟨isMade, rfl⟩
  rcases run_pure_eq_ok.1 last with ⟨rfl, rfl⟩
  obtain ⟨written, isWritten, holds⟩ :=
    (types_entriesAfter isMade (Array.mem_toList_iff.1 member)).resolve_left (Array.not_mem_empty _)
  obtain ⟨frame, isFrame, -, here⟩ := forall₂_mem (placedWritten_of_run isPlaced).2 isWritten
  exact ⟨frame.2, List.mem_map_of_mem isFrame, here.mentions (holds _ lists)⟩

end StackMap

/-! ## Blocks that start with `new` -/

namespace Assembly

variable {graph : FlowGraph} {frames : Array (Option BlockFrame)} {laid : LaidCode}
  {far : Finset Nat} {parts : Nat → List Nat} {block part : Nat} {code : CodeBlock}
  {frame : BlockFrame}

/-- A frame that was inferred for some block, or the one of replaced code. -/
def Computed (frames : Array (Option BlockFrame)) (frame : BlockFrame) : Prop :=
  (∃ block : Nat, frames[block]? = some (some frame)) ∨
    frame = ⟨[], [.object ClassName.throwable.text]⟩

theorem Lives.computed (lives : Lives graph frames block code) (some_ : 0 < code.width)
    (isFrame : code.frame = some frame) : Computed frames frame := by
  cases lives with
  | reached padding recorded found => exact .inl ⟨block, Option.some.inj isFrame ▸ found⟩
  | empty _ _ _ none => omega
  | buried => exact .inr (Option.some.inj isFrame).symm

/-- Widening makes up no frames. -/
theorem Laid.computed (laidOut : Laid graph frames laid far parts) (inferred : Inferred graph frames)
    (placed : part ∈ laid.order) (there : laid.blocks[part]? = some code) (some_ : 0 < code.width)
    (isFrame : code.frame = some frame) : Computed frames frame := by
  obtain ⟨block, inside, member⟩ := laidOut.exists_block placed
  have here := laidOut.partOf inside member there
  generalize parts block = list at here
  cases here with
  | kept before => exact (lives_of_live before).computed some_ isFrame
  | goto before branch | jsr before branch | conditional before branch =>
    refine (lives_of_live before).computed (Nat.add_pos_right _ ?_) isFrame
    rw [branch]
    exact Nat.succ_pos 2
  | around => cases isFrame
  | @onward _ _ target _ _ before branch =>
    obtain ⟨reached, found⟩ := (lives_of_live before).target inferred
      (by rw [branch]; exact List.mem_singleton_self target)
    have inside' := (Array.getElem?_eq_some_iff.1 found).1
    rw [inferred.size] at inside'
    obtain ⟨onward, isTarget⟩ := exists_live inferred.size inside'
    rw [isTarget] at isFrame
    cases lives_of_live isTarget with
    | reached padding recorded found => exact .inl ⟨target, Option.some.inj isFrame ▸ found⟩
    | empty _ missing => cases found.symm.trans missing
    | buried missing => cases found.symm.trans missing

/-- A block that control reaches starts with the same instruction in the end. -/
theorem Laid.first (laidOut : Laid graph frames laid far parts) (inferred : Inferred graph frames)
    (found : frames[block]? = some (some frame)) {instruction : Instruction}
    (recorded : graph.blocks[block]? = some code)
    (isFirst : code.instructions[0]? = some instruction) :
    (laid.offset block, .instruction instruction) ∈ laid.operations := by
  have inside := (Array.getElem?_eq_some_iff.1 recorded).1
  obtain ⟨before, there⟩ := exists_live inferred.size inside
  have same : before.instructions = code.instructions := by
    cases lives_of_live there with
    | reached padding recorded' found' =>
      obtain rfl := Option.some.inj (recorded.symm.trans recorded')
      rfl
    | empty _ missing => cases found.symm.trans missing
    | buried missing => cases found.symm.trans missing
  have starts : ∃ after : CodeBlock, laid.blocks[block]? = some after ∧
      after.instructions[0]? = some instruction := by
    rw [← same] at isFirst
    obtain ⟨small, -⟩ := Array.getElem?_eq_some_iff.1 isFirst
    have padded : ((before.instructions.push .nop).push .nop)[0]? = some instruction := by
      rw [Array.getElem?_push, if_neg (by rw [Array.size_push]; omega), Array.getElem?_push,
        if_neg (Nat.ne_of_lt small), isFirst]
    have here := laidOut.rewritten block inside
    generalize parts block = list at here
    cases here with
    | kept before' after near =>
      obtain rfl := Option.some.inj (there.symm.trans before')
      exact ⟨_, after, isFirst⟩
    | goto before' branch after widened | jsr before' branch after widened =>
      obtain rfl := Option.some.inj (there.symm.trans before')
      exact ⟨_, after, padded⟩
    | split before' branch fresh split widened =>
      obtain rfl := Option.some.inj (there.symm.trans before')
      exact ⟨_, split.after, isFirst⟩
  obtain ⟨after, isAfter, isFirst'⟩ := starts
  refine List.mem_flatMap.2 ⟨block, laidOut.mem_self inside, ?_⟩
  rw [LaidCode.operationsOf, isAfter]
  refine List.mem_append_left _ ?_
  rw [← Array.getElem?_toList] at isFirst'
  cases listed : after.instructions.toList with
  | nil =>
    rw [listed] at isFirst'
    cases isFirst'
  | cons head tail =>
    rw [listed] at isFirst'
    obtain rfl := Option.some.inj isFirst'
    exact List.mem_cons_self

end Assembly

/-! ## Bytes of operations -/

namespace Operation

/-- An instruction of a row stands at its offset. -/
theorem Emits.encoded {start : Nat} {bytes : Bytes} {operations : List (Nat × Operation)}
    (emits : Emits start bytes operations) {offset : Nat} {found : Instruction}
    (member : (offset, .instruction found) ∈ operations) :
    ∃ front piece back, found.encode = .ok piece ∧ bytes = front ++ piece ++ back ∧
      start + front.length = offset := by
  induction emits with
  | nil => cases member
  | @cons start piece rest operation operations here after ih =>
    rcases List.mem_cons.1 member with same | later
    · obtain ⟨rfl, rfl⟩ := Prod.mk.inj same
      cases here with
      | instruction written => exact ⟨[], piece, rest, written, rfl, rfl⟩
    · obtain ⟨front, other, back, encoded, rfl, place⟩ := ih later
      refine ⟨piece ++ front, other, back, encoded, by simp, ?_⟩
      rw [List.length_append, ← Nat.add_assoc, place]

/-- The opcode of `new`. -/
theorem Emits.new_opcode {bytes : Bytes} {operations : List (Nat × Operation)}
    (emits : Emits 0 bytes operations) {offset : Nat} {cls : PoolIndex}
    (member : (offset, .instruction (.withClass .new cls)) ∈ operations) :
    bytes[offset]? = some 0xBB := by
  obtain ⟨front, piece, back, encoded, rfl, rfl⟩ := emits.encoded member
  obtain ⟨operands, -, same⟩ := bind_eq_ok.1 encoded
  obtain rfl := pure_eq_ok.1 same
  rw [Nat.zero_add, List.append_assoc, List.getElem?_append_right (Nat.le_refl _), Nat.sub_self]
  rfl

end Operation

namespace Assembly

/-- The offsets that a stack map gives for uninitialized values are those of `new`
instructions. -/
structure Allocates (laid : LaidCode) (pool : Pool) (image : CodeImage)
    (entries : List StackMapEntry) : Prop where
  emits : Operation.Emits 0 image.bytes laid.operations
  listed : StackMap.Listed pool entries image.attributes
  made : ∀ entry ∈ entries, ∀ offset, .uninitialized offset ∈ entry.types →
    (∃ cls, (offset, .instruction (.withClass .new cls)) ∈ laid.operations) ∧
      image.bytes[offset]? = some 0xBB

/-- A placed frame only mentions blocks that control reaches and that start with `new`. -/
theorem Laid.made {method : MethodContext} {pool : Pool}
    (laidOut : Laid graph frames laid far parts) (inferred : Inferred graph frames)
    (traces : Inference.Traces ⟨graph, method, pool⟩ frames) {handlers : List Handler}
    (placed : frame ∈ (laid.neededFrames handlers).map Prod.snd) {site : Nat}
    (mentions : frame.Mentions site) :
    ∃ cls, (laid.offset site, .instruction (.withClass .new cls)) ∈ laid.operations := by
  obtain ⟨⟨offset, _⟩, member, rfl⟩ := List.mem_map.1 placed
  obtain ⟨part, isPlaced, code, there, some_, isFrame, -⟩ :=
    LaidCode.frame_of_mem_neededFrames member
  rcases laidOut.computed inferred isPlaced there some_ isFrame with ⟨block, found⟩ | rfl
  · have inside := (Array.getElem?_eq_some_iff.1 found).1
    rw [inferred.size] at inside
    obtain ⟨⟨first, found'⟩, _, cls, recorded, isNew⟩ := traces.origin block 0 _ site
      ⟨_, _, found, Array.getElem?_eq_getElem inside, Nat.zero_le _, rfl⟩ mentions
    exact ⟨cls, laidOut.first inferred found' recorded isNew⟩
  · rcases mentions with inside | inside
    · cases inside
    · cases List.mem_singleton.1 inside

end Assembly

theorem StackMap.siteOffset_eq_ok {offsets : Array Nat} {site offset : Nat}
    (found : siteOffset offsets site = .ok offset) : offsets[site]? = some offset := by
  rw [siteOffset] at found
  split at found
  · next place isPlace =>
    split at found
    · rw [isPlace, Except.ok.inj found]
    · cases found
  · cases found

open Assembly

theorem MethodBody.allocates_of_assemble {body : MethodBody} {method : MethodContext}
    {wantsFrames : Bool} {before after : Assembler.State} {image : CodeImage}
    (run : (body.assemble method .frames wantsFrames).run before = (.ok image, after)) :
    ∃ graph laid entries, LaysOut body method before graph laid ∧
      Allocates laid after.pool image entries := by
  obtain ⟨graph, laid, layout, short, encoded, -, mapped, unmapped⟩ := computed_of_assemble run
  obtain ⟨limits, frames, hierarchy, -, infer, rfl⟩ := layout.computed
  have inferred := inferred_of_run layout.built infer
  obtain ⟨far, parts, laidOut⟩ := laid_computedLayout inferred
  have newFirst := FlowGraph.newFirst_of_ofItems layout.built
  have traces : Inference.Traces ⟨graph, method, before.pool⟩ frames :=
    (Inference.inferFrames_traces newFirst limits.locals before.hierarchy).1 frames
      (congrArg Prod.fst infer)
  have emits : Operation.Emits 0 image.bytes (computedLayout graph.blocks frames).operations :=
    LaidCode.emits_flatMap laidOut.starts laidOut.padded encoded
  cases wantsFrames with
  | false =>
    refine ⟨graph, _, [], layout, emits, .inl ⟨rfl, unmapped rfl⟩, fun entry member => ?_⟩
    cases member
  | true =>
    obtain ⟨entries, listed, ⟨-, rfl⟩ | ⟨before, between, made⟩⟩ := (mapped rfl).listed
    · refine ⟨graph, _, [], layout, emits, listed, fun entry member => ?_⟩
      cases member
    refine ⟨graph, _, entries, layout, emits, listed, fun entry member offset lists => ?_⟩
    obtain ⟨frame, placed, site, mentions, found⟩ :=
      StackMap.mentions_of_ofFrames made member lists
    obtain ⟨cls, isNew⟩ := laidOut.made inferred traces placed mentions
    rw [LaidCode.offset, Array.getD_eq_getD_getElem?, StackMap.siteOffset_eq_ok found] at isNew
    exact ⟨⟨cls, isNew⟩, emits.new_opcode isNew⟩

/-- Uninitialized values are always traced to the `new` that made them: by frame inference,
whatever is known of classes, and in the code that is written. -/
theorem MethodBody.traces_allocations (body : MethodBody) (method : MethodContext) :
    (∀ subroutines graph, FlowGraph.ofItems body.items body.handlers subroutines = .ok graph →
      ∀ (pool : Pool) (locals : Nat) (hierarchy : Hierarchy),
        (∀ frames, ((CodeContext.inferFrames ⟨graph, method, pool⟩ locals).run hierarchy).1 =
            .ok frames → Inference.Traces ⟨graph, method, pool⟩ frames) ∧
          ∀ block, ((CodeContext.inferFrames ⟨graph, method, pool⟩ locals).run hierarchy).1 ≠
            .error (.malformed (.notFromNew block))) ∧
      ∀ wantsFrames before after image,
        (body.assemble method .frames wantsFrames).run before = (.ok image, after) →
          ∃ graph laid entries, LaysOut body method before graph laid ∧
            Allocates laid after.pool image entries :=
  ⟨fun _ _ built _ locals hierarchy =>
      Inference.inferFrames_traces (FlowGraph.newFirst_of_ofItems built) locals hierarchy,
    fun _ _ _ _ run => allocates_of_assemble run⟩

/-! ## A loop that allocates -/

/-- A loop that drops its object in a local variable and makes another one. -/
def allocating : MethodBody where
  items := [.label 0, .instruction (.withClass .new 2), .label 1, .instruction .pushNull,
    .branch (.conditional (.null .eq) 1 ()), .instruction (.store .reference 0),
    .branch (.goto 0)]
  handlers := []
  limits := none

def allocatingMethod : MethodContext := ⟨"Loop", "run", ⟨[], none⟩, true⟩

def allocatingGraph : FlowGraph where
  blocks := #[⟨none, #[.withClass .new 2], .fallThrough 1⟩,
    ⟨none, #[.pushNull], .conditional (.null .eq) 1 2⟩,
    ⟨none, #[.store .reference 0], .goto 0⟩, ⟨none, #[], .stop⟩]
  handlers := []
  labels := ((∅ : Std.HashMap Nat Nat).insert 0 0).insert 1 1

def allocatingFrames : Array (Option BlockFrame) :=
  #[some ⟨[.top], []⟩, some ⟨[.top], [.uninitialized 0]⟩, some ⟨[.top], [.uninitialized 0]⟩,
    none]

def allocatingBlocks : Array CodeBlock :=
  #[⟨some ⟨[.top], []⟩, #[.withClass .new 2], .fallThrough 1⟩,
    ⟨some ⟨[.top], [.uninitialized 0]⟩, #[.pushNull], .conditional (.null .eq) 1 2⟩,
    ⟨some ⟨[.top], [.uninitialized 0]⟩, #[.store .reference 0], .goto 0⟩,
    ⟨none, #[], .stop⟩]

def allocatingImage : CodeImage where
  limits := ⟨2, 1⟩
  bytes := [0xBB, 0x00, 0x02, 0x01, 0xC6, 0xFF, 0xFF, 0x4B, 0xA7, 0xFF, 0xF8]
  exceptions := []
  attributes := [⟨1, [0, 2, 0, 66, 8, 0, 0]⟩]

def allocatingPool : Pool :=
  Pool.empty.append (.utf8 "StackMapTable")

theorem allocating_built :
    FlowGraph.ofItems allocating.items allocating.handlers false = .ok allocatingGraph := by
  have drafts : FlowGraph.Drafts.ofItems false allocating.items =
      .ok ⟨#[⟨none, #[.withClass .new 2], none⟩,
        ⟨none, #[.pushNull], some (.conditional (.null .eq) 1 ())⟩,
        ⟨none, #[.store .reference 0], some (.goto 0)⟩, .empty], allocatingGraph.labels,
        .empty⟩ := by
    refine bind_eq_ok.2 ⟨⟨#[⟨none, #[.withClass .new 2], none⟩,
        ⟨none, #[.pushNull], some (.conditional (.null .eq) 1 ())⟩,
        ⟨none, #[.store .reference 0], some (.goto 0)⟩], allocatingGraph.labels, .empty⟩, ?_, rfl⟩
    refine foldlM_cons_eq_ok.2 ⟨_, FlowGraph.Drafts.addLabel_eq_ok.2
      ⟨Std.HashMap.not_mem_empty, rfl⟩, ?_⟩
    refine foldlM_cons_eq_ok.2 ⟨_, rfl, foldlM_cons_eq_ok.2
      ⟨_, FlowGraph.Drafts.addLabel_eq_ok.2 ⟨?_, rfl⟩, rfl⟩⟩
    change 1 ∉ (∅ : Std.HashMap Nat Nat).insert 0 0
    simp
  have resolved : ∀ label block : Nat, allocatingGraph.labels[label]? = some block →
      FlowGraph.resolve allocatingGraph.labels label = .ok block :=
    fun _ _ known => FlowGraph.resolve_eq_ok.2 known
  have outer := resolved 0 0 (by simp [allocatingGraph, Std.HashMap.getElem_insert])
  have inner := resolved 1 1 (by simp [allocatingGraph])
  refine bind_eq_ok.2 ⟨_, drafts, bind_eq_ok.2 ⟨allocatingGraph.blocks.toList, ?_, rfl⟩⟩
  refine mapM_eq_ok.2 (.cons rfl (.cons ?_ (.cons ?_ (.cons rfl .nil))))
  · refine bind_eq_ok.2 ⟨.conditional (.null .eq) 1 2, ?_, rfl⟩
    exact bind_eq_ok.2 ⟨_, inner, rfl⟩
  · refine bind_eq_ok.2 ⟨.goto 0, ?_, rfl⟩
    exact bind_eq_ok.2 ⟨_, outer, rfl⟩

theorem allocating_compute (pool : Pool) :
    Limits.compute allocatingGraph pool 0 = .ok ⟨2, 1⟩ := by
  have walked : Limits.walk allocatingGraph pool
      (Array.replicate allocatingGraph.blocks.size none) 0 [(0, 0)] = .ok 2 := by
    rw [Limits.walk]
    change Limits.walk _ _ _ _ [(1, 1)] = _
    rw [Limits.walk]
    change Limits.walk _ _ _ _ [(2, 1), (1, 1)] = _
    rw [Limits.walk]
    change Limits.walk _ _ _ _ [(0, 0), (1, 1)] = _
    rw [Limits.walk]
    change Limits.walk _ _ _ _ [(1, 1)] = _
    rw [Limits.walk]
    change Limits.walk _ _ _ _ [] = _
    rw [Limits.walk]
    rfl
  rw [Limits.compute, walked]
  rfl

theorem allocating_inferred (pool : Pool) (graph : ClassGraph) :
    (CodeContext.inferFrames ⟨allocatingGraph, allocatingMethod, pool⟩ 1).run
        (.ofGraph graph []) = (.ok allocatingFrames, .ofGraph graph []) := by
  have start : (Inference.reach 0 (allocatingMethod.entryFrame.resize 1)
      ⟨Array.replicate allocatingGraph.blocks.size none, []⟩).run (.ofGraph graph []) =
        (.ok ⟨#[some ⟨[.top], []⟩, none, none, none], [0]⟩, .ofGraph graph []) := rfl
  exact Inference.run_inferFrames (Nat.succ_pos 3) (Nat.zero_le 1) start fun more => rfl

theorem allocating_named (graph : ClassGraph) :
    (stackMapAttribute [.same 0, .sameOne 2 (.uninitialized 0)]).run
        ⟨.empty, .ofGraph graph []⟩ =
      (.ok ⟨1, [0, 2, 0, 66, 8, 0, 0]⟩, ⟨allocatingPool, .ofGraph graph []⟩) := by
  refine run_bind_eq_ok.2 ⟨1, ⟨allocatingPool, .ofGraph graph []⟩, ?_, rfl⟩
  rw [StackMap.run_symbol, Pool.addUtf8, Pool.run_intern_of_none ((Pool.slots_eq _ _).trans rfl)]
  rfl

/-- How `allocating` is laid out with its frames. -/
def allocatingLaid : LaidCode :=
  ⟨allocatingBlocks, [0, 1, 2, 3], Layout.offsets allocatingBlocks [0, 1, 2, 3],
    #[false, false, false, false]⟩

theorem allocating_laid :
    computedLayout allocatingGraph.blocks allocatingFrames = allocatingLaid := by
  have padded : live allocatingGraph.blocks allocatingFrames = allocatingBlocks := by
    decide +kernel
  have plain : Widening.Plain (live allocatingGraph.blocks allocatingFrames) (List.range 4) :=
    plain_live (inferred_of_run allocating_built (allocating_inferred .empty .empty))
  rw [padded] at plain
  have near : ∀ jump ∈ Widening.jumpsOf .short allocatingBlocks (List.range 4),
      jump.isFar = false := by
    rw [Widening.jumpsOf_eq plain]
    decide +kernel
  exact computedLayout_eq padded (widened_eq_self_of_near near) (by decide +kernel)

theorem allocating_run (graph : ClassGraph) :
    (allocating.assemble allocatingMethod .frames true).run ⟨.empty, .ofGraph graph []⟩ =
      (.ok allocatingImage, ⟨allocatingPool, .ofGraph graph []⟩) := by
  have short : Layout.length allocatingLaid.blocks allocatingLaid.order < 65536 := by
    decide +kernel
  have encoded : Encoding.each (encodeBlock allocatingLaid) allocatingLaid.order =
      .ok allocatingImage.bytes := by
    decide +kernel
  have needed : allocatingLaid.neededFrames allocatingGraph.handlers =
      [(0, ⟨[.top], []⟩), (3, ⟨[.top], [.uninitialized 0]⟩)] := by
    decide +kernel
  have made : (StackMap.ofFrames allocatingMethod allocatingLaid.offsets
      [(0, ⟨[.top], []⟩), (3, ⟨[.top], [.uninitialized 0]⟩)]).run ⟨.empty, .ofGraph graph []⟩ =
        (.ok [.same 0, .sameOne 2 (.uninitialized 0)], ⟨.empty, .ofGraph graph []⟩) := rfl
  have replaces : ¬allocatingLaid.dead.contains true = true := by decide +kernel
  rw [MethodBody.run_assemble_computed allocating_built (allocating_compute .empty)
    (allocating_inferred .empty graph), MethodBody.computedMethod, allocating_laid,
    if_neg replaces, if_pos rfl, needed]
  exact run_writeOut_mapped short encoded (List.cons_ne_nil _ _) made (allocating_named graph)

/-- The loop has an uninitialized value wherever it jumps back, and it is the one of the
block that starts with `new`. -/
theorem traces_allocations_allocating :
    Inference.Traces ⟨allocatingGraph, allocatingMethod, .empty⟩ allocatingFrames ∧
      ∃ graph laid entries,
        LaysOut allocating allocatingMethod ⟨.empty, .ofGraph .standard []⟩ graph laid ∧
          Allocates laid allocatingPool allocatingImage entries :=
  have traces := MethodBody.traces_allocations allocating allocatingMethod
  ⟨(traces.1 false allocatingGraph allocating_built .empty 1 (.ofGraph .standard [])).1 _
      (congrArg Prod.fst (allocating_inferred .empty .standard)),
    traces.2 _ _ _ _ (allocating_run .standard)⟩

end ClassFile
