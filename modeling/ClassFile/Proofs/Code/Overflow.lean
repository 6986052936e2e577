import ClassFile.Proofs.Code.Exceptions
import ClassFile.Proofs.Code.Supplying
import ClassFile.Proofs.Encodings

namespace ClassFile

/-!
# When code is too long

Offsets in code are written in 16 bits.  Code that is laid out is looked at once, and
refused if it is longer than that allows.  Whatever is narrowed later is an offset in the
code or the difference of two of them, so that shorter code never fails for its length:
branches were widened where they are too far, and all other offsets are within the code.
-/

/-! ## Failing for other reasons -/

/-- Anything but code that is too long. -/
def Fault.SparesLength (fault : Fault) : Prop :=
  ∀ bytes, fault ≠ .codeOverflow bytes

open Fault (OfEncoding SparesLength)

/-- Code that is too long is not a part that does not fit its field. -/
theorem Fault.OfEncoding.sparesLength {fault : Fault} (misfit : fault.OfEncoding) :
    fault.SparesLength := by
  rintro bytes rfl
  exact misfit

namespace StackMap

variable {offsets : Array Nat}

section

variable {kind : Fault → Prop} (sites : ∀ site, FailsOnly kind (siteOffset offsets site))

include sites

/-- A frame is written unless one of its sites has no offset. -/
theorem failsOnly_written (frame : BlockFrame) : FailsOnlyFor kind (written offsets frame) := by
  have each : ∀ type, FailsOnlyFor kind (writtenType offsets type) := by
    intro type
    cases type with
    | object name =>
      refine FailsOnlyFor.bind (fun now => ?_) fun _ => .pure _
      rw [run_symbol]
      exact .ok _
    | uninitialized site => exact (FailsOnlyFor.lift (sites site)).bind fun _ => .pure _
    | _ => exact .pure _
  exact (FailsOnlyFor.mapM each _).bind fun _ => (FailsOnlyFor.mapM each _).bind fun _ => .pure _

theorem failsOnly_compared (pool : Pool) (frame : BlockFrame) :
    FailsOnly kind (compared pool offsets frame) := by
  have each : ∀ types : List (VerificationType String Nat), FailsOnly kind
      (types.mapM fun type => type.mapM (fun name => return (pool.classOf? name).getD 0)
        (siteOffset offsets)) := by
    refine FailsOnly.mapM fun type => ?_
    cases type with
    | uninitialized site => exact (sites site).bind fun _ _ => .ok _
    | _ => exact .ok _
  exact (each _).bind fun _ _ => (each _).bind fun _ _ => .ok _

/-- Frames are written, and then the entries that tell them apart are made. -/
theorem failsOnly_ofFrames {method : MethodContext} {frames : List (Nat × BlockFrame)}
    (entries : ∀ entry placed, (∀ written ∈ placed, ∃ frame ∈ frames, written.1 = frame.1) →
      FailsOnly kind (entriesAfter #[] none entry placed)) :
    FailsOnlyFor kind (ofFrames method offsets frames) := by
  refine fun before => failsOnly_run_bind ?_ fun placed between isPlaced => ?_
  · refine failsOnly_run_mapM (fun frame now => ?_) frames
    exact failsOnly_run_bind (failsOnly_written sites _ now) fun _ _ _ => failsOnly_run_pure
  · rw [run_get_bind]
    refine failsOnly_run_bind (failsOnly_run_lift (failsOnly_compared sites _ _)) fun entry _ _ => ?_
    refine failsOnly_run_bind (failsOnly_run_lift ?_) fun _ _ _ => failsOnly_run_pure
    refine entries entry placed fun written member => ?_
    obtain ⟨frame, isFrame, same, -⟩ := forall₂_mem (placedWritten_of_run isPlaced).2 member
    exact ⟨frame, isFrame, same⟩

end

/-- An offset that is known is not too far. -/
theorem siteOffset_of_small (small : ∀ offset ∈ offsets, offset < 65536) {site offset : Nat}
    (known : offsets[site]? = some offset) : siteOffset offsets site = .ok offset := by
  rw [siteOffset, known]
  exact if_pos (small offset (Array.mem_of_getElem? known))

theorem spares_siteOffset (small : ∀ offset ∈ offsets, offset < 65536) (site : Nat) :
    FailsOnly SparesLength (siteOffset offsets site) := by
  cases known : offsets[site]? with
  | some offset =>
    rw [siteOffset_of_small small known]
    exact .ok _
  | none =>
    rw [siteOffset, known]
    exact .error fun _ same => by cases same

theorem spares_ofFrames (small : ∀ offset ∈ offsets, offset < 65536) {method : MethodContext}
    {frames : List (Nat × BlockFrame)} (inside : ∀ placed ∈ frames, placed.1 < 65536) :
    FailsOnlyFor SparesLength (ofFrames method offsets frames) := by
  refine failsOnly_ofFrames (spares_siteOffset small) fun entry placed areFrames => ?_
  obtain ⟨entries, made⟩ := @exists_entriesAfter placed (fun written member => by
    obtain ⟨frame, isFrame, same⟩ := areFrames written member
    rw [same]
    exact inside frame isFrame) #[] none entry
  rw [made]
  exact .ok _

end StackMap

/-- Laid out code is not written if it is too long, if a block or a frame cannot be, or if an
entry of the stack map does not fit. -/
theorem Assembly.failsOnly_writeOut {kind : Fault → Prop} {method : MethodContext} {limits : Limits}
    {laid : LaidCode} {handlers : List Handler} {placed : List (Nat × BlockFrame)}
    (fits : ∀ fault, OfEncoding fault → kind fault)
    (long : 65536 ≤ Layout.length laid.blocks laid.order →
      kind (.codeOverflow (Layout.length laid.blocks laid.order)))
    (blocks : ∀ block ∈ laid.order, FailsOnly kind (encodeBlock laid block))
    (frames : FailsOnlyFor kind (StackMap.ofFrames method laid.offsets placed)) :
    FailsOnlyFor kind (writeOut method limits laid handlers placed) := by
  have bytes : FailsOnly kind (Encoding.each (encodeBlock laid) laid.order) :=
    (FailsOnly.mapM_of_mem blocks).map _
  have table : ∀ entries, FailsOnlyFor kind (stackMapAttribute entries) := by
    refine fun entries => FailsOnlyFor.bind (fun now => ?_) fun name => ?_
    · rw [StackMap.run_symbol]
      exact .ok _
    · exact (FailsOnlyFor.lift ((StackMapEntry.encodeTable_fails entries).mono fits)).bind
        fun _ => .pure _
  unfold writeOut
  refine FailsOnlyFor.check long fun _ => ?_
  refine (FailsOnlyFor.lift bytes).bind fun bytes => ?_
  split
  · refine frames.bind fun entries => (table entries).bind fun _ => ?_
    exact (FailsOnlyFor.pure _).bind fun _ => .pure _
  · exact (FailsOnlyFor.pure _).bind fun _ => .pure _

/-! ## Offsets in the code -/

theorem Widening.exists_shortTarget {branch : Branch Nat Nat Nat} {target : Nat}
    (isShort : target ∈ branch.shorts) :
    ∃ unconditional, shortTarget? branch = some (target, unconditional) := by
  cases branch with
  | conditional | goto | jsr =>
    rw [List.mem_singleton.1 isShort]
    exact ⟨_, rfl⟩
  | _ => cases isShort

namespace Assembly

/-- Code is laid out as plain blocks are after jumps between them were widened. -/
structure LaidWide (blocks : Array CodeBlock) (laid : LaidCode) : Prop where
  plain : Widening.Plain blocks (List.range blocks.size)
  sameCode : SameCode (widened blocks).blocks laid.blocks
  order_eq : laid.order = (widened blocks).order
  offsets_eq : laid.offsets = Layout.offsets laid.blocks laid.order

section

variable {blocks : Array CodeBlock} {laid : LaidCode} {block : Nat} {code : CodeBlock}
  (wide : LaidWide blocks laid)

include wide

theorem LaidWide.offset_le_length (block : Nat) :
    laid.offset block ≤ Layout.length laid.blocks laid.order := by
  rw [LaidCode.offset, Array.getD_eq_getD_getElem?]
  cases known : laid.offsets[block]? with
  | some offset =>
    have member := Array.mem_of_getElem? known
    rw [wide.offsets_eq] at member
    exact Layout.offsets_le_length member
  | none => exact Nat.zero_le _

/-- A short jump in the code reaches its target. -/
theorem LaidWide.short_contains (isPlaced : block ∈ laid.order)
    (there : laid.blocks[block]? = some code) {target : Nat} (isShort : target ∈ code.branch.shorts) :
    Widening.Range.contains .short
      ((laid.offset target : Int) - (laid.offset block + code.bodyWidth : Nat)) = true := by
  have offset : ∀ block, (widened blocks).offset block = laid.offset block := by
    intro block
    rw [Widening.Result.offset, LaidCode.offset, wide.offsets_eq, wide.order_eq,
      wide.sameCode.offsets_eq, Array.getD_eq_getD_getElem?]
  obtain ⟨before, found, fits⟩ := Widening.widen_reachesShort wide.plain (by decide) (by decide)
    Instruction.nop rfl none block (wide.order_eq ▸ isPlaced)
  obtain ⟨frame, same⟩ := wide.sameCode.exists_code found
  obtain rfl := Option.some.inj (there.symm.trans same)
  obtain ⟨unconditional, short⟩ := Widening.exists_shortTarget isShort
  have within := fits target unconditional short
  change Widening.Range.contains .short ((widened blocks).distance block before target) = true at within
  rwa [Widening.Result.distance, offset, offset] at within

/-- Branches of code that is not too long have distances. -/
theorem LaidWide.exists_relative (small : Layout.length laid.blocks laid.order < 65536)
    (isPlaced : block ∈ laid.order) (there : laid.blocks[block]? = some code) :
    ∃ written, relative laid (laid.offset block + code.bodyWidth) code.branch = .ok written := by
  have body : code.bodyWidth ≤ Layout.length laid.blocks laid.order := by
    rw [Layout.length_eq_sum]
    refine Nat.le_trans ?_ (List.le_sum_of_mem (List.mem_map_of_mem isPlaced))
    rw [Layout.blockWidth, there]
    exact Nat.le_add_right _ _
  have start := wide.offset_le_length block
  refine Branch.exists_mapM_of_forall (fun target isShort => ?_) (fun target _ => ?_)
    fun _ => ⟨(), rfl⟩
  · exact ⟨_, map_eq_ok.2 ⟨_, if_pos (wide.short_contains isPlaced there isShort), rfl⟩⟩
  · have stop := wide.offset_le_length target
    refine ⟨_, map_eq_ok.2 ⟨_, if_pos (Widening.Range.contains_iff.2 ?_), rfl⟩⟩
    simp only [Widening.Range.wide]
    omega

theorem LaidWide.spares_encodeBlock (small : Layout.length laid.blocks laid.order < 65536)
    (isPlaced : block ∈ laid.order) : FailsOnly SparesLength (encodeBlock laid block) := by
  cases there : laid.blocks[block]? with
  | none =>
    rw [encodeBlock, there]
    exact .ok _
  | some code =>
    have fits : ∀ fault : Fault, fault.OfEncoding → fault.SparesLength :=
      fun _ => Fault.OfEncoding.sparesLength
    obtain ⟨written, isRelative⟩ := wide.exists_relative small isPlaced there
    rw [encodeBlock, there]
    refine FailsOnly.bind ?_ fun instructions _ => ?_
    · exact (FailsWide.each fun instruction _ => instruction.failsWide_encode).ofEncoding.mono fits
    · rw [isRelative]
      exact (written.encode_fails.mono fits).bind fun _ _ => .ok _

end

/-- Runs of live code end where the code around them does. -/
theorem liveRuns_le {laid : LaidCode} {start stop : Nat} :
    ∀ range ∈ liveRuns laid start stop, range.1 ≤ range.2 ∧ range.2 ≤ stop := by
  have onward : ∀ (order : List Nat) (runs : LiveRuns),
      (∀ range ∈ runs.all, range.1 ≤ range.2 ∧ range.2 ≤ stop) →
        ∀ range ∈ (order.foldl (scan laid start stop) runs).all,
          range.1 ≤ range.2 ∧ range.2 ≤ stop := by
    intro order
    induction order with
    | nil => exact fun runs within => within
    | cons block order ih =>
      refine fun runs within => ih _ ?_
      rw [scan]
      split
      · exact within
      · next inside =>
        simp only [Bool.or_eq_true, decide_eq_true_eq] at inside
        have bounded : laid.offset block ≤
            laid.offset block + Layout.blockWidth laid.blocks block ∧
              laid.offset block + Layout.blockWidth laid.blocks block ≤ stop := by omega
        split
        · rwa [LiveRuns.all_cut]
        · rcases runs.all_add (laid.offset block)
            (laid.offset block + Layout.blockWidth laid.blocks block) with
            ⟨front, first, before, after⟩ | ⟨-, after⟩
          · rw [before, List.forall_mem_append, List.forall_mem_singleton] at within
            rw [after, List.forall_mem_append, List.forall_mem_singleton]
            exact ⟨within.1, Nat.le_trans within.2.1 bounded.1, bounded.2⟩
          · rw [after, List.forall_mem_append, List.forall_mem_singleton]
            exact ⟨within, bounded⟩
  rw [liveRuns_eq]
  refine onward laid.order _ fun range member => ?_
  cases member

/-- Frames stand at offsets of blocks. -/
theorem offset_of_mem_frames {laidOut : LaidMethod} {mode : ComputeMode} {wantsFrames : Bool}
    {placed : Nat × BlockFrame} (member : placed ∈ laidOut.frames mode wantsFrames) :
    ∃ block, laidOut.laid.offset block = placed.1 := by
  rw [LaidMethod.frames] at member
  split at member
  · split at member
    · obtain ⟨block, -, _, -, -, -, isOffset⟩ := LaidCode.frame_of_mem_neededFrames member
      exact ⟨block, isOffset⟩
    · cases member
  · obtain ⟨block, -, -, isOffset, -⟩ := LaidCode.recordedFrames_fit
      (fun _ _ _ _ => trivial) (List.pairwise_of_forall fun _ _ _ _ _ _ => trivial).isChain placed member
    exact ⟨block, isOffset⟩

/-- The offsets that are written for laid out code, and the distances between them, fit the
fields they are written in. -/
structure WithinFields (laid : LaidCode) (handlers : List Handler)
    (placed : List (Nat × BlockFrame)) : Prop where
  offsets : ∀ block, laid.offset block < 65536
  branches : ∀ block ∈ laid.order, ∀ code, laid.blocks[block]? = some code →
    ∃ written, relative laid (laid.offset block + code.bodyWidth) code.branch = .ok written
  sites : ∀ site offset, laid.offsets[site]? = some offset →
    StackMap.siteOffset laid.offsets site = .ok offset
  /-- Whatever frames are written at these offsets. -/
  deltas : ∀ (entry : WrittenFrame) (written : List (Nat × WrittenFrame)),
    written.map Prod.fst = placed.map Prod.fst →
      ∃ entries, StackMap.entriesAfter #[] none entry written = .ok entries
  exceptions : ∀ exception ∈ exceptionTable laid handlers,
    exception.start < 65536 ∧ exception.stop < 65536 ∧ exception.entry < 65536

section

variable {blocks : Array CodeBlock} {laid : LaidCode} {handlers : List Handler}
  {placed : List (Nat × BlockFrame)} {method : MethodContext} {limits : Limits}
  {before : Assembler.State} (wide : LaidWide blocks laid)
  (small : Layout.length laid.blocks laid.order < 65536)
  (areOffsets : ∀ frame ∈ placed, ∃ block, laid.offset block = frame.1)

include wide

theorem LaidWide.offsets_small (small : Layout.length laid.blocks laid.order < 65536) :
    ∀ offset ∈ laid.offsets, offset < 65536 := by
  intro offset member
  rw [wide.offsets_eq] at member
  exact Nat.lt_of_le_of_lt (Layout.offsets_le_length member) small

include small areOffsets

theorem LaidWide.placed_small : ∀ frame ∈ placed, frame.1 < 65536 := by
  intro frame member
  obtain ⟨block, same⟩ := areOffsets frame member
  rw [← same]
  exact Nat.lt_of_le_of_lt (wide.offset_le_length block) small

theorem LaidWide.withinFields : WithinFields laid handlers placed := by
  have offsets : ∀ block, laid.offset block < 65536 :=
    fun block => Nat.lt_of_le_of_lt (wide.offset_le_length block) small
  constructor
  case offsets => exact offsets
  case branches => exact fun block isPlaced code there => wide.exists_relative small isPlaced there
  case sites =>
    exact fun site offset known => StackMap.siteOffset_of_small (wide.offsets_small small) known
  case deltas =>
    intro entry written same
    refine StackMap.exists_entriesAfter (fun frame member => ?_) #[] none entry
    have isPlaced := List.mem_map_of_mem (f := Prod.fst) member
    rw [same, List.mem_map] at isPlaced
    obtain ⟨frame', member', same'⟩ := isPlaced
    rw [← same']
    exact wide.placed_small small areOffsets frame' member'
  case exceptions =>
    intro exception member
    obtain ⟨handler, -, isEntry⟩ := List.mem_flatMap.1 member
    obtain ⟨⟨start, stop⟩, isRange, rfl⟩ := List.mem_map.1 isEntry
    obtain ⟨inOrder, within⟩ := liveRuns_le (start, stop) isRange
    have last := offsets handler.stop
    dsimp only at inOrder within ⊢
    exact ⟨by omega, by omega, offsets handler.entry⟩

/-- Code that is not too long is not found to be too long. -/
theorem LaidWide.spares_writeOut :
    FailsOnlyFor SparesLength (writeOut method limits laid handlers placed) := by
  apply failsOnly_writeOut
  case fits => exact fun _ => Fault.OfEncoding.sparesLength
  case long => exact fun large => absurd small (Nat.not_lt_of_le large)
  case blocks => exact fun block isPlaced => wide.spares_encodeBlock small isPlaced
  case frames =>
    exact StackMap.spares_ofFrames (wide.offsets_small small) (wide.placed_small small areOffsets)

end

end Assembly

namespace MethodBody

open Assembly

variable {body : MethodBody} {method : MethodContext} {mode : ComputeMode} {wantsFrames : Bool}
  {before between : Assembler.State} {laidOut : LaidMethod}

/-- What comes out of a layout, whatever is computed. -/
theorem laidWide_of_layOut (run : (body.layOut method mode).run before = (.ok laidOut, between)) :
    ∃ blocks, LaidWide blocks laidOut.laid := by
  cases computes : mode.computesFrames with
  | true =>
    obtain ⟨limits, frames, built, -, inferred, same⟩ := computed_of_layOut computes run
    have inferred := inferred_of_run built inferred
    have plain := plain_live inferred
    rw [← size_live inferred.size] at plain
    refine ⟨live laidOut.graph.blocks frames, ?_⟩
    rw [same]
    exact ⟨plain, .refl _, rfl, rfl⟩
  | false =>
    obtain ⟨others, built, -, added, same⟩ := recorded_of_layOut computes run
    obtain ⟨segments, segmented⟩ := FlowGraph.segmented_of_ofItems built
    have sameCode := sameCode_of_recordedBlocks added
    refine ⟨alignSwitches laidOut.graph.blocks, ?_⟩
    rw [same]
    exact ⟨plain_aligned segmented, sameCode, rfl, rfl⟩

/-- Laid out code is found to be too long if and only if it has more bytes than offsets can
tell apart, and these are what the failure tells.  All that is written of the offsets of
shorter code fits. -/
theorem codeOverflow_iff (run : (body.layOut method mode).run before = (.ok laidOut, between)) :
    (∀ bytes, ((body.assemble method mode wantsFrames).run before).1 =
        .error (.codeOverflow bytes) ↔
      bytes = Layout.length laidOut.laid.blocks laidOut.laid.order ∧ 65535 < bytes) ∧
    (Layout.length laidOut.laid.blocks laidOut.laid.order ≤ 65535 →
      WithinFields laidOut.laid laidOut.graph.handlers (laidOut.frames mode wantsFrames)) := by
  obtain ⟨blocks, wide⟩ := laidWide_of_layOut run
  have areOffsets : ∀ frame ∈ laidOut.frames mode wantsFrames,
      ∃ block, laidOut.laid.offset block = frame.1 := fun _ => offset_of_mem_frames
  refine ⟨fun bytes => ?_, fun small => wide.withinFields (Nat.lt_succ_of_le small) areOffsets⟩
  rw [run_assemble run]
  rcases Nat.lt_or_ge (Layout.length laidOut.laid.blocks laidOut.laid.order) 65536 with
    small | large
  · refine iff_of_false (fun fails => ?_) fun ⟨same, long⟩ => by omega
    exact wide.spares_writeOut small areOffsets between _ fails bytes rfl
  · have thrown : ((writeOut method laidOut.limits laidOut.laid laidOut.graph.handlers
        (laidOut.frames mode wantsFrames)).run between).1 =
          .error (.codeOverflow (Layout.length laidOut.laid.blocks laidOut.laid.order)) := by
      unfold writeOut
      dsimp only
      rw [if_pos large]
      rfl
    rw [thrown, Except.error.injEq, Fault.codeOverflow.injEq]
    constructor
    · rintro rfl
      exact ⟨rfl, large⟩
    · exact fun known => known.1.symm

/-- A loop that is laid out, its jump back widened. -/
theorem drift_layOut {nops : Nat} (large : 32762 ≤ nops) :
    ∃ laidOut, ((drift nops false).layOut driftMethod .frames).run ⟨.empty, .ofGraph .empty []⟩ =
        (.ok laidOut, ⟨.empty, .ofGraph .empty []⟩) ∧
      Layout.length laidOut.laid.blocks laidOut.laid.order = nops + 19 := by
  refine ⟨_, run_layOut_computed rfl (drift_built nops false false)
    (drift_compute nops false .empty) (drift_inferred nops .empty .empty), ?_⟩
  rw [computedMethod, drift_laid nops large]
  exact drift_length nops

/-- One byte decides if the loop is too long. -/
theorem codeOverflow_iff_drift :
    (∃ laidOut, ((drift 65517 false).layOut driftMethod .frames).run ⟨.empty, .ofGraph .empty []⟩ =
        (.ok laidOut, ⟨.empty, .ofGraph .empty []⟩) ∧
      (((drift 65517 false).assemble driftMethod .frames true).run ⟨.empty, .ofGraph .empty []⟩).1 =
        .error (.codeOverflow 65536)) ∧
    ∃ laidOut, ((drift 65516 false).layOut driftMethod .frames).run ⟨.empty, .ofGraph .empty []⟩ =
        (.ok laidOut, ⟨.empty, .ofGraph .empty []⟩) ∧
      (∀ bytes, (((drift 65516 false).assemble driftMethod .frames true).run
        ⟨.empty, .ofGraph .empty []⟩).1 ≠ .error (.codeOverflow bytes)) ∧
      WithinFields laidOut.laid laidOut.graph.handlers (laidOut.frames .frames true) := by
  obtain ⟨long, runLong, isLong⟩ := @drift_layOut 65517 (by omega)
  obtain ⟨short, runShort, isShort⟩ := @drift_layOut 65516 (by omega)
  have lasts := @codeOverflow_iff _ _ _ true _ _ _ runShort
  refine ⟨⟨long, runLong, ?_⟩, short, runShort, fun bytes fails => ?_, lasts.2 (by omega)⟩
  · exact ((codeOverflow_iff runLong).1 65536).2 ⟨by omega, by omega⟩
  · have both := (lasts.1 bytes).1 fails
    omega

end MethodBody
end ClassFile
