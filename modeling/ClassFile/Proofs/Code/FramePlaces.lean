import ClassFile.Proofs.Code.FrameNeeds
import ClassFile.Proofs.Code.WritingOut
import ClassFile.Proofs.Frame.StackMaps

namespace ClassFile

/-!
# Where computed frames stand

The entries of a stack map give the offsets of their frames one by one.  With computed
frames these are just the places in the code that need a frame, whatever jumps were
widened and whatever code was replaced.
-/

open Operation (JumpsTo StopsAt)

/-! ## Offsets in a stack map -/

/-- The bytes that an entry leaves between its frame and the one before. -/
def StackMapEntry.delta : StackMapEntry → Nat
  | same delta | sameOne delta _ | chop delta _ | append delta _ | full delta _ _ => delta

namespace StackMap

/-- The offsets of the frames of a stack map, given that of the frame before. -/
def places : Option Nat → List StackMapEntry → List Nat
  | _, [] => []
  | previous?, entry :: entries =>
    let offset := DecodedFrame.offsetAfter previous? entry.delta
    offset :: places (some offset) entries

/-- Attributes that are a stack map of some entries, which is left out if there are
none. -/
def Listed (pool : Pool) (entries : List StackMapEntry) (attributes : List Attribute) : Prop :=
  entries = [] ∧ attributes = [] ∨
    ∃ name info, attributes = [⟨name, info⟩] ∧ pool.utf8 name = .ok Attribute.stackMapTable ∧
      StackMapEntry.encodeTable entries = .ok info

theorem delta_entryAfter (frame previous : WrittenFrame) (delta : Nat) :
    (frame.entryAfter previous delta).delta = delta := by
  unfold Frame.entryAfter
  dsimp only
  split
  · split_ifs <;> rfl
  · split_ifs <;> rfl
  · rfl

theorem entriesAfter_places {frames : List (Nat × WrittenFrame)} {previous? : Option Nat}
    {previous : WrittenFrame} (ahead : ∀ offset ∈ previous?, ∀ frame ∈ frames, offset < frame.1)
    (increasing : (frames.map Prod.fst).Pairwise (· < ·)) {made entries : Array StackMapEntry}
    (run : entriesAfter made previous? previous frames = .ok entries) :
    ∃ added, entries.toList = made.toList ++ added ∧ places previous? added = frames.map Prod.fst := by
  induction frames generalizing previous? previous made with
  | nil =>
    cases run
    exact ⟨[], (List.append_nil _).symm, rfl⟩
  | cons first frames ih =>
    rcases first with ⟨offset, frame⟩
    rw [List.map_cons, List.pairwise_cons] at increasing
    rw [entriesAfter_cons] at run
    have place := offsetAfter_deltaAfter fun earlier known =>
      ahead earlier known (offset, frame) List.mem_cons_self
    split at run
    · have onward : ∀ earlier ∈ some offset, ∀ later ∈ frames, earlier < later.1 := by
        rintro _ ⟨⟩ later member
        exact increasing.1 later.1 (List.mem_map_of_mem member)
      obtain ⟨added, whole, offsets⟩ := ih onward increasing.2 run
      refine ⟨_ :: added, by rw [whole, Array.toList_push, List.append_assoc, List.singleton_append], ?_⟩
      rw [places, delta_entryAfter, place, offsets, List.map_cons]
    · cases run

theorem ofFrames_places {method : MethodContext} {offsets : Array Nat}
    {frames : List (Nat × BlockFrame)} (increasing : (frames.map Prod.fst).Pairwise (· < ·))
    {before after : Assembler.State} {entries : List StackMapEntry}
    (run : (ofFrames method offsets frames).run before = (.ok entries, after)) :
    places none entries = frames.map Prod.fst := by
  rcases run_bind_eq_ok.1 run with ⟨placed, between, isPlaced, onward⟩
  have kept := (placedWritten_of_run isPlaced).2.imp fun _ _ here => here.1
  have same : placed.map Prod.fst = frames.map Prod.fst := by
    rw [← List.forall₂_eq_eq_eq, List.forall₂_map_left_iff, List.forall₂_map_right_iff]
    exact kept.flip
  rw [run_get_bind] at onward
  rcases run_bind_eq_ok.1 onward with ⟨entry, _, -, onward⟩
  rcases run_bind_eq_ok.1 onward with ⟨array, _, differs, last⟩
  rcases run_lift_eq_ok.1 differs with ⟨isMade, rfl⟩
  rcases run_pure_eq_ok.1 last with ⟨rfl, rfl⟩
  rw [← same] at increasing ⊢
  obtain ⟨added, whole, offsets⟩ := entriesAfter_places (by rintro _ ⟨⟩) increasing isMade
  rw [List.nil_append] at whole
  rw [whole, offsets]

end StackMap

/-- A stack map that was wanted lists the entries made from the placed frames. -/
theorem Assembly.Mapped.listed {method : MethodContext} {offsets : Array Nat}
    {placed : List (Nat × BlockFrame)} {attributes : List Attribute} {after : Assembler.State}
    (mapped : Mapped method offsets placed attributes after) :
    ∃ entries, StackMap.Listed after.pool entries attributes ∧
      (placed = [] ∧ entries = [] ∨ ∃ before between,
        (StackMap.ofFrames method offsets placed).run before = (.ok entries, between)) := by
  rcases mapped with ⟨rfl, rfl⟩ | ⟨before, between, entries, stackMap, made, named, rfl⟩
  · exact ⟨[], .inl ⟨rfl, rfl⟩, .inl ⟨rfl, rfl⟩⟩
  · refine ⟨entries, .inr ?_, .inr ⟨before, between, made⟩⟩
    rcases run_bind_eq_ok.1 named with ⟨name, last, asked, run⟩
    rcases run_bind_eq_ok.1 run with ⟨info, _, lifted, run⟩
    rcases run_lift_eq_ok.1 lifted with ⟨encoded, rfl⟩
    rcases run_pure_eq_ok.1 run with ⟨rfl, rfl⟩
    refine ⟨name, info, rfl, ?_, encoded⟩
    rcases Pool.intern_spec between.pool (.utf8 Attribute.stackMapTable) with
      ⟨index, pool, added, -, isName, -⟩
    rw [StackMap.run_symbol, Pool.addUtf8, added] at asked
    cases asked
    exact Pool.utf8_eq_ok.mpr isName

theorem Assembly.Mapped.places {method : MethodContext} {offsets : Array Nat}
    {placed : List (Nat × BlockFrame)} (increasing : (placed.map Prod.fst).Pairwise (· < ·))
    {attributes : List Attribute} {after : Assembler.State}
    (mapped : Mapped method offsets placed attributes after) :
    ∃ entries, StackMap.Listed after.pool entries attributes ∧
      StackMap.places none entries = placed.map Prod.fst := by
  obtain ⟨entries, listed, ⟨rfl, rfl⟩ | ⟨before, between, made⟩⟩ := mapped.listed
  · exact ⟨[], listed, rfl⟩
  · exact ⟨entries, listed, StackMap.ofFrames_places increasing made⟩

/-! ## Assembled code -/

/-- Code only breaks off where a stop was recorded as an item. -/
theorem Assembly.BreaksAt.mem_items {items : List Item} {segments : List (List Item)}
    {graph : FlowGraph} {laid : LaidCode} {offset : Nat}
    (segmented : FlowGraph.Segmented graph items segments) (breaks : BreaksAt graph laid offset) :
    .branch .stop ∈ items := by
  obtain ⟨block, code, recorded, stops, inner, -⟩ := breaks
  have inside : block < segments.length := by
    rw [segmented.length_eq]
    exact Nat.lt_of_succ_lt inner
  obtain ⟨marks, branch?, spelled, -, ends⟩ :=
    segmented.each block code _ recorded (List.getElem?_eq_getElem inside)
  rw [stops] at ends
  rw [← segmented.whole, List.mem_flatten]
  refine ⟨_, List.getElem_mem inside, ?_⟩
  cases ends with
  | recorded _ renamed =>
    cases renamed
    rw [spelled]
    exact List.mem_append_right _ List.mem_cons_self
  | stops last => omega

namespace Assembly

/-- Frames stand at increasing offsets before the end of the code, just where control
arrives other than from the instruction before or where the code breaks off. -/
structure FramesStand (graph : FlowGraph) (laid : LaidCode) (pool : Pool) (image : CodeImage)
    (entries : List StackMapEntry) : Prop where
  exceptions_eq : image.exceptions = exceptionTable laid graph.handlers
  emits : Operation.Emits 0 image.bytes laid.operations
  /-- Unless a table is empty, the operations are what the code decodes to. -/
  decodes : (∀ start padding otherwise low targets,
    (start, .branch (.tableSwitch padding otherwise low targets)) ∈ laid.operations →
      targets ≠ []) → Operation.decode image.bytes = .ok laid.operations
  listed : StackMap.Listed pool entries image.attributes
  increasing : (StackMap.places none entries).Pairwise (· < ·)
  exact : ∀ offset, offset ∈ StackMap.places none entries ↔ offset < image.bytes.length ∧
    (JumpsTo laid.operations offset ∨
      (∃ handler ∈ graph.handlers, laid.offset handler.entry = offset) ∨
        StopsAt laid.operations offset ∨ BreaksAt graph laid offset)

end Assembly

open Assembly

/-- In code with computed frames no place that needs a frame lacks one and no other has
one, whatever was widened or never reached.  The code only breaks off where a stop was
recorded. -/
theorem MethodBody.framesStand_of_assemble {body : MethodBody} {method : MethodContext}
    {before after : Assembler.State} {image : CodeImage}
    (run : (body.assemble method .frames true).run before = (.ok image, after)) :
    ∃ graph laid entries, LaysOut body method before graph laid ∧
      FramesStand graph laid after.pool image entries ∧
      (.branch .stop ∉ body.items → ∀ offset, ¬BreaksAt graph laid offset) := by
  obtain ⟨graph, laid, layout, short, encoded, exceptions, mapped⟩ :=
    MethodBody.computed_of_assemble run
  obtain ⟨limits, frames, hierarchy, -, infer, rfl⟩ := layout.computed
  have inferred := inferred_of_run layout.built infer
  obtain ⟨far, parts, laidOut⟩ := laid_computedLayout inferred
  obtain ⟨increasing, exact⟩ := laidOut.neededFrames_spec inferred inferred.closed.handlers
  obtain ⟨entries, listed, places⟩ := (mapped.1 rfl).places increasing
  obtain ⟨segments, segmented⟩ := FlowGraph.segmented_of_ofItems layout.built
  have length : image.bytes.length = Layout.length (computedLayout graph.blocks frames).blocks
      (computedLayout graph.blocks frames).order := by
    obtain ⟨pieces, each, same⟩ := Encoding.each_eq_ok.1 encoded
    rw [← same, Pieces.length_flatten each, Layout.length_eq_sum]
  have emits : Operation.Emits 0 image.bytes (computedLayout graph.blocks frames).operations :=
    LaidCode.emits_flatMap laidOut.starts laidOut.padded encoded
  refine ⟨graph, _, entries, layout, ?_, fun absent offset breaks =>
    absent (breaks.mem_items segmented)⟩
  constructor
  case exceptions_eq => exact exceptions
  case emits => exact emits
  case decodes => exact fun filled => (emits.tiles (length ▸ short) filled).decode_eq
  case listed => exact listed
  case increasing => rwa [places]
  case exact =>
    intro offset
    rw [places, exact, length]
    exact and_congr_right fun inside => laidOut.needsAt_iff inferred inside

/-! ## A stop in the middle -/

/-- A stop before code that nothing leads to. -/
def stopped : MethodBody :=
  ⟨[.instruction .nop, .branch .stop, .branch (.returns none)], [], none⟩

def stoppedMethod : MethodContext := ⟨"Loop", "run", ⟨[], none⟩, true⟩

def stoppedGraph : FlowGraph :=
  ⟨#[⟨none, #[.nop], .stop⟩, ⟨none, #[], .returns none⟩, ⟨none, #[], .stop⟩], [], ∅⟩

def stoppedFrames : Array (Option BlockFrame) := #[some ⟨[], []⟩, none, none]

def stoppedBlocks : Array CodeBlock :=
  #[⟨some ⟨[], []⟩, #[.nop], .stop⟩,
    ⟨some ⟨[], [.object ClassName.throwable.text]⟩, #[], .throws⟩, ⟨none, #[], .stop⟩]

theorem stopped_built : FlowGraph.ofItems stopped.items [] false = .ok stoppedGraph := rfl

theorem stopped_compute (pool : Pool) : Limits.compute stoppedGraph pool 0 = .ok ⟨0, 0⟩ := by
  have walked : Limits.walk stoppedGraph pool (Array.replicate stoppedGraph.blocks.size none) 0
      [(0, 0)] = .ok 0 := by
    rw [Limits.walk]
    change Limits.walk _ _ _ _ [] = _
    rw [Limits.walk]
    rfl
  rw [Limits.compute, walked]
  rfl

theorem stopped_inferred (pool : Pool) (graph : ClassGraph) :
    (CodeContext.inferFrames ⟨stoppedGraph, stoppedMethod, pool⟩ 0).run (.ofGraph graph []) =
      (.ok stoppedFrames, .ofGraph graph []) := by
  have start : (Inference.reach 0 (stoppedMethod.entryFrame.resize 0)
      ⟨Array.replicate stoppedGraph.blocks.size none, []⟩).run (.ofGraph graph []) =
        (.ok ⟨#[some ⟨[], []⟩, none, none], [0]⟩, .ofGraph graph []) := rfl
  exact Inference.run_inferFrames (Nat.succ_pos 2) (Nat.zero_le 0) start fun more => rfl

def stoppedImage : CodeImage where
  limits := ⟨1, 0⟩
  bytes := [0x00, 0xBF]
  exceptions := []
  attributes := [⟨3, [0, 1, 65, 7, 0, 2]⟩]

def stoppedOperations : List (Nat × Operation) :=
  [(0, .instruction .nop), (1, .branch .throws)]

/-- The pool once the class of what is thrown is in it, and the one after that. -/
def thrownPool : Pool :=
  (Pool.empty.append (.utf8 "java/lang/Throwable")).append (.cls 1)

def stoppedPool : Pool :=
  thrownPool.append (.utf8 "StackMapTable")

theorem stopped_made (graph : ClassGraph) :
    (StackMap.ofFrames stoppedMethod (Layout.offsets stoppedBlocks [0, 1, 2])
      [(1, ⟨[], [.object ClassName.throwable.text]⟩)]).run ⟨.empty, .ofGraph graph []⟩ =
        (.ok [.sameOne 1 (.object 2)], ⟨thrownPool, .ofGraph graph []⟩) := by
  have added : (Pool.addClass ClassName.throwable.text).run .empty = (2, thrownPool) := by
    rw [Pool.addClass, StateT.run_bind, Pool.addUtf8,
      Pool.run_intern_of_none ((Pool.slots_eq _ _).trans rfl)]
    exact Pool.run_intern_of_none ((Pool.slots_eq _ _).trans rfl)
  have written : (StackMap.written (Layout.offsets stoppedBlocks [0, 1, 2])
      ⟨[], [.object ClassName.throwable.text]⟩).run ⟨.empty, .ofGraph graph []⟩ =
        (.ok ⟨[], [.object 2]⟩, ⟨thrownPool, .ofGraph graph []⟩) := by
    refine run_bind_eq_ok.mpr ⟨[], _, rfl, run_bind_eq_ok.mpr ⟨[.object 2], _, ?_, rfl⟩⟩
    refine run_bind_eq_ok.mpr ⟨.object 2, _, ?_, rfl⟩
    refine run_bind_eq_ok.mpr ⟨2, _, ?_, rfl⟩
    rw [StackMap.run_symbol, added]
  refine run_bind_eq_ok.mpr ⟨[(1, ⟨[], [.object 2]⟩)], _, ?_, rfl⟩
  refine run_bind_eq_ok.mpr ⟨(1, ⟨[], [.object 2]⟩), _, ?_, rfl⟩
  exact run_bind_eq_ok.mpr ⟨_, _, written, rfl⟩

theorem stopped_named (graph : ClassGraph) :
    (stackMapAttribute [.sameOne 1 (.object 2)]).run ⟨thrownPool, .ofGraph graph []⟩ =
      (.ok ⟨3, [0, 1, 65, 7, 0, 2]⟩, ⟨stoppedPool, .ofGraph graph []⟩) := by
  refine run_bind_eq_ok.mpr ⟨3, ⟨stoppedPool, .ofGraph graph []⟩, ?_, rfl⟩
  rw [StackMap.run_symbol, Pool.addUtf8, Pool.run_intern_of_none ((Pool.slots_eq _ _).trans rfl)]
  rfl

/-- How `stopped` is laid out with its frames. -/
def stoppedLaid : LaidCode :=
  ⟨stoppedBlocks, [0, 1, 2], Layout.offsets stoppedBlocks [0, 1, 2], #[false, true, false]⟩

theorem stopped_laid : computedLayout stoppedGraph.blocks stoppedFrames = stoppedLaid :=
  computedLayout_eq (by decide +kernel) (widened_eq_self rfl) (by decide +kernel)

theorem stopped_run (graph : ClassGraph) :
    (stopped.assemble stoppedMethod .frames true).run ⟨.empty, .ofGraph graph []⟩ =
      (.ok stoppedImage, ⟨stoppedPool, .ofGraph graph []⟩) := by
  have needed : stoppedLaid.neededFrames stoppedGraph.handlers =
      [(1, ⟨[], [.object ClassName.throwable.text]⟩)] := by
    decide +kernel
  have short : Layout.length stoppedLaid.blocks stoppedLaid.order < 65536 := by decide +kernel
  have encoded : Encoding.each (encodeBlock stoppedLaid) stoppedLaid.order =
      .ok stoppedImage.bytes := by
    decide +kernel
  have replaces : stoppedLaid.dead.contains true = true := by decide +kernel
  rw [MethodBody.run_assemble_computed stopped_built (stopped_compute .empty)
    (stopped_inferred .empty graph), MethodBody.computedMethod, stopped_laid, if_pos replaces,
    if_pos rfl, needed]
  exact run_writeOut_mapped short encoded (List.cons_ne_nil _ _) (stopped_made graph)
    (stopped_named graph)

theorem framesStand_of_assemble_stopped :
    ∃ graph laid entries,
      LaysOut stopped stoppedMethod ⟨.empty, .ofGraph .standard []⟩ graph laid ∧
        FramesStand graph laid stoppedPool stoppedImage entries ∧
        (.branch .stop ∉ stopped.items → ∀ offset, ¬BreaksAt graph laid offset) :=
  MethodBody.framesStand_of_assemble (stopped_run .standard)

/-- A frame stands where nothing jumps to, no handler starts and no instruction ends
that never falls through. -/
theorem stopped_frame_after_stop :
    (stopped.assemble stoppedMethod .frames true).run ⟨.empty, .ofGraph .standard []⟩ =
        (.ok stoppedImage, ⟨stoppedPool, .ofGraph .standard []⟩) ∧
      Operation.decode stoppedImage.bytes = .ok stoppedOperations ∧
      StackMap.Listed stoppedPool [.sameOne 1 (.object 2)] stoppedImage.attributes ∧
      StackMap.places none [.sameOne 1 (.object 2)] = [1] ∧ ¬JumpsTo stoppedOperations 1 ∧
      stopped.handlers = [] ∧ ¬StopsAt stoppedOperations 1 := by
  have named : stoppedPool.utf8 3 = .ok Attribute.stackMapTable :=
    Pool.utf8_eq_ok.mpr (Pool.entry_eq_ok.mpr (by decide +kernel))
  refine ⟨stopped_run .standard, by decide +kernel, .inr ⟨3, _, rfl, named, rfl⟩, rfl, ?_, rfl, ?_⟩
  · rintro ⟨start, branch, member, isTarget⟩
    obtain ⟨-, rfl⟩ : start = 1 ∧ branch = .throws := by simpa [stoppedOperations] using member
    cases isTarget
  · rintro ⟨start, branch, member, -, ends⟩
    obtain ⟨rfl, rfl⟩ : start = 1 ∧ branch = .throws := by simpa [stoppedOperations] using member
    cases ends

end ClassFile
