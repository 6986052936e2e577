import ClassFile.Proofs.Code.Standing
import ClassFile.Proofs.Code.WritingOut

namespace ClassFile

/-!
# What exception handlers cover

An exception table has entries for the live code that each handler covers, found in
one pass over the blocks as they are laid out.  A run of live blocks ends only where
a dead one stands or where the protected code ends.  So the entries of a handler never
touch, and together they are just the protected code without what is dead, however
the code has grown.
-/

namespace LaidCode

variable {laid : LaidCode}

/-- Every block stands where those before it end. -/
structure Standing (laid : LaidCode) : Prop where
  distinct : laid.order.Nodup
  starts : ∀ start ∈ Layout.starts laid.blocks laid.order, laid.offset start.1 = start.2

/-- An offset is one of the bytes of a block. -/
def Holds (laid : LaidCode) (block offset : Nat) : Prop :=
  laid.offset block ≤ offset ∧ offset < laid.offset block + Layout.blockWidth laid.blocks block

/-- An offset is in a block that was replaced since control never reaches it. -/
def DeadAt (laid : LaidCode) (offset : Nat) : Prop :=
  ∃ block ∈ laid.order, laid.isDead block = true ∧ laid.Holds block offset

section

variable (standing : laid.Standing) {block other offset : Nat}
include standing

theorem Standing.offset_eq (placed : block ∈ laid.order) :
    laid.offset block = Layout.startOf (Layout.blockWidth laid.blocks) laid.order block :=
  standing.starts _ (List.mem_of_getElem? (Layout.starts_getElem? placed))

theorem Standing.le_offset (placed : block ∈ laid.order) (placed' : other ∈ laid.order)
    (before : laid.order.idxOf block < laid.order.idxOf other) :
    laid.offset block + Layout.blockWidth laid.blocks block ≤ laid.offset other := by
  rw [standing.offset_eq placed, standing.offset_eq placed',
    Layout.startOf_eq_add_between _ standing.distinct (Nat.le_of_lt before)]
  exact Nat.add_le_add_left (Layout.le_between _ placed (Nat.le_refl _) before) _

/-- No block starts between the bytes of another one. -/
theorem Standing.outside (placed : block ∈ laid.order) (placed' : other ∈ laid.order) :
    laid.offset other ≤ laid.offset block ∨
      laid.offset block + Layout.blockWidth laid.blocks block ≤ laid.offset other := by
  rcases Nat.lt_or_ge (laid.order.idxOf block) (laid.order.idxOf other) with before | after
  · exact .inr (standing.le_offset placed placed' before)
  · rw [standing.offset_eq placed, standing.offset_eq placed',
      Layout.startOf_eq_add_between _ standing.distinct after]
    exact .inl (Nat.le_add_right _ _)

theorem Standing.eq_of_holds (placed : block ∈ laid.order) (placed' : other ∈ laid.order)
    (holds : laid.Holds block offset) (holds' : laid.Holds other offset) : block = other := by
  obtain ⟨low, high⟩ := holds
  obtain ⟨low', high'⟩ := holds'
  rcases Nat.lt_trichotomy (laid.order.idxOf block) (laid.order.idxOf other) with
    before | same | after
  · have apart := standing.le_offset placed placed' before
    omega
  · exact (List.idxOf_inj placed).1 same
  · have apart := standing.le_offset placed' placed after
    omega

theorem Standing.deadAt_iff (placed : block ∈ laid.order) (holds : laid.Holds block offset) :
    laid.DeadAt offset ↔ laid.isDead block = true := by
  refine ⟨?_, fun dead => ⟨block, placed, dead, holds⟩⟩
  rintro ⟨other, placed', dead, holds'⟩
  rwa [standing.eq_of_holds placed placed' holds holds']

end

end LaidCode

namespace Assembly

open LaidCode (Standing)

/-! ## Runs of live code -/

/-- An offset is in a run. -/
def OffsetRange.Within (range : OffsetRange) (offset : Nat) : Prop :=
  range.1 ≤ offset ∧ offset < range.2

namespace LiveRuns

/-- All runs so far, the one that may go on last. -/
def all (runs : LiveRuns) : List OffsetRange :=
  runs.complete.toList ++ runs.current.toList

@[simp] theorem all_cut (runs : LiveRuns) : runs.cut.all = runs.all := by
  rw [all, all, cut]
  simp

/-- What is added either prolongs the last run or makes a new one after it. -/
theorem all_add (runs : LiveRuns) (start stop : Nat) :
    (∃ front first, runs.all = front ++ [(first, start)] ∧
        (runs.add start stop).all = front ++ [(first, stop)]) ∨
      (∀ first last, runs.current = some (first, last) → last ≠ start) ∧
        (runs.add start stop).all = runs.all ++ [(start, stop)] := by
  obtain ⟨complete, current⟩ := runs
  cases current with
  | none => exact .inr ⟨fun _ _ same => (by cases same), by simp [all, add]⟩
  | some range =>
    obtain ⟨first, last⟩ := range
    by_cases touches : last = start
    · subst touches
      exact .inl ⟨complete.toList, first, rfl, by simp [all, add]⟩
    · refine .inr ⟨?_, by simp [all, add, touches]⟩
      rintro _ _ ⟨⟩
      exact touches

theorem current_add (runs : LiveRuns) (start stop : Nat) :
    (runs.add start stop).current ≠ none := by
  unfold add
  split
  · split <;> exact nofun
  · exact nofun

end LiveRuns

variable {laid : LaidCode} {start stop position : Nat} {runs : LiveRuns}

/-- What the pass over the blocks does at one of them. -/
def scan (laid : LaidCode) (start stop : Nat) (runs : LiveRuns) (block : Nat) : LiveRuns :=
  let first := laid.offset block
  let last := first + Layout.blockWidth laid.blocks block
  if first < start || stop < last || first = last then runs
  else if laid.isDead block then runs.cut
  else runs.add first last

theorem liveRuns_eq (laid : LaidCode) (start stop : Nat) :
    liveRuns laid start stop = (laid.order.foldl (scan laid start stop) ⟨#[], none⟩).all := by
  rw [← LiveRuns.all_cut, LiveRuns.all]
  exact (List.append_nil _).symm

/-- What is true of the runs when the blocks so far end at a position. -/
structure Scanned (laid : LaidCode) (start stop position : Nat) (runs : LiveRuns) : Prop where
  filled : ∀ range ∈ runs.all, range.1 < range.2
  apart : runs.all.Pairwise fun one other => one.2 < other.1
  behind : ∀ range ∈ runs.all, range.2 ≤ position
  /-- A run that cannot go on ended before. -/
  ended : runs.current = none → ∀ range ∈ runs.all, range.2 < position
  covers : ∀ offset, (∃ range ∈ runs.all, OffsetRange.Within range offset) ↔
    offset < position ∧ start ≤ offset ∧ offset < stop ∧ ¬laid.DeadAt offset

theorem Scanned.nil : Scanned laid start stop 0 ⟨#[], none⟩ := by
  refine ⟨nofun, .nil, nofun, nofun, fun offset => ?_⟩
  refine iff_of_false ?_ fun both => absurd both.1 (Nat.not_lt_zero offset)
  rintro ⟨_, member, -⟩
  cases member

/-- Code that is not protected or is dead adds nothing. -/
theorem Scanned.pass (scanned : Scanned laid start stop position runs) {width : Nat}
    (nothing : ∀ offset, position ≤ offset → offset < position + width →
      ¬(start ≤ offset ∧ offset < stop ∧ ¬laid.DeadAt offset)) :
    ∀ offset, (∃ range ∈ runs.all, OffsetRange.Within range offset) ↔
      offset < position + width ∧ start ≤ offset ∧ offset < stop ∧ ¬laid.DeadAt offset := by
  intro offset
  rw [scanned.covers]
  refine ⟨fun both => ⟨Nat.lt_add_right _ both.1, both.2⟩, fun both => ⟨?_, both.2⟩⟩
  by_contra after
  exact nothing offset (Nat.le_of_not_lt after) both.1 both.2

theorem Scanned.skip (scanned : Scanned laid start stop position runs) {width : Nat}
    (nothing : ∀ offset, position ≤ offset → offset < position + width →
      ¬(start ≤ offset ∧ offset < stop ∧ ¬laid.DeadAt offset)) :
    Scanned laid start stop (position + width) runs where
  filled := scanned.filled
  apart := scanned.apart
  behind range member := Nat.le_add_right_of_le (scanned.behind range member)
  ended none range member := Nat.lt_add_right _ (scanned.ended none range member)
  covers := scanned.pass nothing

theorem Scanned.cut (scanned : Scanned laid start stop position runs) {width : Nat}
    (some_ : 0 < width)
    (dead : ∀ offset, position ≤ offset → offset < position + width → laid.DeadAt offset) :
    Scanned laid start stop (position + width) runs.cut := by
  constructor
  case filled => simpa using scanned.filled
  case apart => simpa using scanned.apart
  case behind =>
    rw [LiveRuns.all_cut]
    exact fun range member => Nat.le_add_right_of_le (scanned.behind range member)
  case ended =>
    rw [LiveRuns.all_cut]
    exact fun _ range member =>
      Nat.lt_of_le_of_lt (scanned.behind range member) (Nat.lt_add_of_pos_right some_)
  case covers =>
    rw [LiveRuns.all_cut]
    exact scanned.pass fun offset low high both => both.2.2 (dead offset low high)

/-- The last run goes on up to the position. -/
theorem Scanned.of_last {front : List OffsetRange} {first : Nat}
    (spelled : runs.all = front ++ [(first, position)]) (open_ : runs.current ≠ none)
    (filled : ∀ range ∈ front, range.1 < range.2)
    (apart : front.Pairwise fun one other => one.2 < other.1)
    (before : ∀ range ∈ front, range.2 < first) (some_ : first < position)
    (covers : ∀ offset, (∃ range ∈ runs.all, OffsetRange.Within range offset) ↔
      offset < position ∧ start ≤ offset ∧ offset < stop ∧ ¬laid.DeadAt offset) :
    Scanned laid start stop position runs := by
  refine ⟨?_, ?_, ?_, fun none => absurd none open_, covers⟩
  · intro range member
    rw [spelled] at member
    rcases List.mem_append.1 member with early | last
    · exact filled range early
    · exact List.mem_singleton.1 last ▸ some_
  · rw [spelled, List.pairwise_append]
    refine ⟨apart, List.pairwise_singleton _ _, fun range early last member => ?_⟩
    exact List.mem_singleton.1 member ▸ before range early
  · intro range member
    rw [spelled] at member
    rcases List.mem_append.1 member with early | last
    · exact Nat.le_of_lt (Nat.lt_trans (before range early) some_)
    · exact List.mem_singleton.1 last ▸ Nat.le_refl _

theorem Scanned.add (scanned : Scanned laid start stop position runs) {width : Nat}
    (some_ : 0 < width) (low : start ≤ position) (high : position + width ≤ stop)
    (live : ∀ offset, position ≤ offset → offset < position + width → ¬laid.DeadAt offset) :
    Scanned laid start stop (position + width) (runs.add position (position + width)) := by
  have within : ∀ offset, (∃ range ∈ runs.all, OffsetRange.Within range offset) ∨
      position ≤ offset ∧ offset < position + width ↔
        offset < position + width ∧ start ≤ offset ∧ offset < stop ∧ ¬laid.DeadAt offset := by
    intro offset
    rw [scanned.covers]
    constructor
    · rintro (⟨before, guarded⟩ | ⟨after, before⟩)
      · exact ⟨Nat.lt_add_right _ before, guarded⟩
      · exact ⟨before, by omega, by omega, live offset after before⟩
    · rintro ⟨before, guarded⟩
      rcases Nat.lt_or_ge offset position with early | after
      · exact .inl ⟨early, guarded⟩
      · exact .inr ⟨after, before⟩
  have open_ := runs.current_add position (position + width)
  have filled := scanned.filled
  have apart := scanned.apart
  rcases runs.all_add position (position + width) with ⟨front, first, same, added⟩ | ⟨ends, added⟩
  · rw [same] at filled apart
    have here : first < position := filled _ (List.mem_append_right _ List.mem_cons_self)
    refine .of_last added open_ (fun range early => filled range (List.mem_append_left _ early))
      (List.pairwise_append.1 apart).1 (fun range early => ?_) (Nat.lt_add_right _ here)
      fun offset => ?_
    · exact (List.pairwise_append.1 apart).2.2 range early _ List.mem_cons_self
    · rw [← within, same, added]
      simp only [List.mem_append, List.mem_singleton, or_and_right, exists_or, exists_eq_left,
        or_assoc, OffsetRange.Within]
      refine or_congr_right ?_
      omega
  · refine .of_last added open_ filled apart (fun range member => ?_)
      (Nat.lt_add_of_pos_right some_) fun offset => ?_
    · cases current : runs.current with
      | none => exact scanned.ended current range member
      | some last =>
        have same : runs.all = runs.complete.toList ++ [last] := by
          rw [LiveRuns.all, current]
          rfl
        have isLast : last ∈ runs.all := same ▸ List.mem_append_right _ List.mem_cons_self
        have less := Nat.lt_of_le_of_ne (scanned.behind last isLast) (ends last.1 last.2 current)
        rw [same, List.pairwise_append] at apart
        rw [same] at member
        rcases List.mem_append.1 member with early | late
        · have before := apart.2.2 range early last List.mem_cons_self
          exact Nat.lt_trans before (Nat.lt_trans (filled last isLast) less)
        · exact List.mem_singleton.1 late ▸ less
    · rw [← within, added]
      simp only [List.mem_append, List.mem_singleton, or_and_right, exists_or, exists_eq_left]
      exact Iff.rfl

/-- One more block, no part of which only is protected. -/
theorem Scanned.step (standing : laid.Standing) (scanned : Scanned laid start stop position runs)
    {block : Nat} (placed : block ∈ laid.order) (here : laid.offset block = position)
    (atStart : start ≤ position ∨ position + Layout.blockWidth laid.blocks block ≤ start)
    (atStop : stop ≤ position ∨ position + Layout.blockWidth laid.blocks block ≤ stop) :
    Scanned laid start stop (position + Layout.blockWidth laid.blocks block)
      (scan laid start stop runs block) := by
  subst here
  have dead : ∀ offset, laid.offset block ≤ offset →
      offset < laid.offset block + Layout.blockWidth laid.blocks block →
        (laid.DeadAt offset ↔ laid.isDead block = true) :=
    fun offset low high => standing.deadAt_iff placed ⟨low, high⟩
  unfold scan
  dsimp only
  split
  · next outside =>
    rw [Bool.or_eq_true, Bool.or_eq_true, decide_eq_true_eq, decide_eq_true_eq,
      decide_eq_true_eq] at outside
    refine scanned.skip fun offset low high both => ?_
    omega
  · next inside =>
    rw [Bool.or_eq_true, Bool.or_eq_true, decide_eq_true_eq, decide_eq_true_eq,
      decide_eq_true_eq] at inside
    split
    · next isDead =>
      exact scanned.cut (by omega) fun offset low high => (dead offset low high).2 isDead
    · next isLive =>
      refine scanned.add (by omega) (by omega) (by omega) fun offset low high => ?_
      exact fun isDead => isLive ((dead offset low high).1 isDead)

/-- The pass over all blocks, where the protected code starts and stops with blocks. -/
theorem scanned_foldl (standing : laid.Standing) {first last : Nat} (isFirst : first ∈ laid.order)
    (isLast : last ∈ laid.order) {front back : List Nat} (whole : front ++ back = laid.order) :
    Scanned laid (laid.offset first) (laid.offset last)
      ((front.map (Layout.blockWidth laid.blocks)).sum)
      (front.foldl (scan laid (laid.offset first) (laid.offset last)) ⟨#[], none⟩) := by
  induction front using List.reverseRecOn generalizing back with
  | nil => exact .nil
  | append_singleton front block ih =>
    rw [List.append_assoc, List.singleton_append] at whole
    have placed : block ∈ laid.order := whole ▸ List.mem_append_right _ List.mem_cons_self
    have here : laid.offset block = (front.map (Layout.blockWidth laid.blocks)).sum := by
      rw [standing.offset_eq placed, ← whole]
      exact Layout.startOf_append_cons (whole ▸ standing.distinct)
    rw [List.foldl_append, List.map_append, List.sum_append, List.map_singleton,
      List.sum_singleton]
    exact (ih whole).step standing placed here (here ▸ standing.outside placed isFirst)
      (here ▸ standing.outside placed isLast)

/-! ## The entries of a handler -/

/-- Entries that protect the live code between two offsets. -/
structure Protects (laid : LaidCode) (start stop entry : Nat) (catches : PoolIndex)
    (entries : List ExceptionEntry) : Prop where
  filled : ∀ exception ∈ entries, exception.start < exception.stop
  /-- In increasing order, and no two touch. -/
  apart : entries.Pairwise fun one other => one.stop < other.start
  covers : ∀ offset, (∃ exception ∈ entries, exception.start ≤ offset ∧ offset < exception.stop) ↔
    start ≤ offset ∧ offset < stop ∧ ¬laid.DeadAt offset
  leads : ∀ exception ∈ entries, exception.entry = entry ∧ exception.catches = catches

/-- The entries that a handler has in the exception table. -/
def entriesOf (laid : LaidCode) (handler : Handler) : List ExceptionEntry :=
  (liveRuns laid (laid.offset handler.start) (laid.offset handler.stop)).map fun (start, stop) =>
    ⟨start, stop, laid.offset handler.entry, handler.catches.getD 0⟩

theorem protects_entriesOf (standing : laid.Standing) {handler : Handler}
    (isStart : handler.start ∈ laid.order) (isStop : handler.stop ∈ laid.order) :
    Protects laid (laid.offset handler.start) (laid.offset handler.stop)
      (laid.offset handler.entry) (handler.catches.getD 0) (entriesOf laid handler) := by
  have scanned := scanned_foldl standing isStart isStop (List.append_nil laid.order)
  rw [entriesOf, liveRuns_eq]
  generalize laid.order.foldl (scan laid (laid.offset handler.start) (laid.offset handler.stop))
    ⟨#[], none⟩ = runs at scanned ⊢
  constructor
  case filled =>
    rintro _ member
    obtain ⟨range, inside, rfl⟩ := List.mem_map.1 member
    exact scanned.filled range inside
  case apart => exact List.pairwise_map.2 scanned.apart
  case covers =>
    intro offset
    have onRuns : (∃ exception ∈ runs.all.map fun (range : OffsetRange) =>
        (⟨range.1, range.2, laid.offset handler.entry, handler.catches.getD 0⟩ : ExceptionEntry),
          exception.start ≤ offset ∧ offset < exception.stop) ↔
        ∃ range ∈ runs.all, OffsetRange.Within range offset := by
      simp only [List.mem_map, exists_exists_and_eq_and]
      exact Iff.rfl
    refine onRuns.trans ((scanned.covers offset).trans (and_iff_right_of_imp fun both => ?_))
    -- The protected code stops at the start of a block, so before the end of all.
    obtain ⟨front, back, whole⟩ := List.append_of_mem isStop
    have distinct := standing.distinct
    rw [standing.offset_eq isStop, whole] at both
    rw [whole] at distinct
    rw [Layout.startOf_append_cons distinct] at both
    rw [whole, List.map_append, List.sum_append]
    exact Nat.lt_add_right _ both.2.1
  case leads =>
    rintro _ member
    obtain ⟨range, -, rfl⟩ := List.mem_map.1 member
    exact ⟨rfl, rfl⟩

theorem Protects.eq_nil {entry : Nat} {catches : PoolIndex} {entries : List ExceptionEntry}
    (protects : Protects laid start stop entry catches entries) (inverted : stop ≤ start) :
    entries = [] := by
  refine List.eq_nil_iff_forall_not_mem.2 fun exception member => ?_
  have covered := (protects.covers exception.start).1
    ⟨exception, member, Nat.le_refl _, protects.filled exception member⟩
  omega

/-! ## Assembled code -/

/-- How a body is laid out and written in some mode. -/
structure Arranged (mode : ComputeMode) (graph : FlowGraph) (laid : LaidCode) (bytes : Bytes) :
    Prop extends laid.Standing where
  encoded : Encoding.each (encodeBlock laid) laid.order = .ok bytes
  covers : ∀ block < laid.blocks.size, block ∈ laid.order
  size_le : graph.blocks.size ≤ laid.blocks.size
  /-- Only where frames are computed is code replaced, just what control never
  reaches. -/
  dead : ∀ block, laid.isDead block = true ↔ mode.computesFrames = true ∧
    block < graph.blocks.size ∧ ¬graph.Reachable block ∧ 0 < Layout.blockWidth laid.blocks block
  buried : ∀ block, laid.isDead block = true →
    ∃ code, laid.blocks[block]? = some (bury code)

theorem arranged_of_written {mode : ComputeMode} {graph : FlowGraph} {items : List Item}
    {handlers : List Handler} {bytes : Bytes} (recorded : mode.computesFrames = false)
    (built : FlowGraph.ofItems items handlers true = .ok graph)
    (written : Written graph laid bytes) (alive : ∀ block, laid.isDead block = false) :
    Arranged mode graph laid bytes := by
  obtain ⟨segments, segmented⟩ := FlowGraph.segmented_of_ofItems built
  have plain := plain_aligned segmented
  obtain ⟨far, parts, rewriting⟩ : ∃ far parts, Widening.Rewriting .nop none
      (alignSwitches graph.blocks) (recordedOrder graph) (widened (alignSwitches graph.blocks)) far
        parts :=
    ⟨_, Widening.widen_rewriting plain around_short .nop none⟩
  have size := written.sameCode.size_eq
  have order := written.order_eq
  have inside : ∀ part ∈ laid.order, part < laid.blocks.size := by
    intro part placed
    rw [order, rewriting.order_eq] at placed
    obtain ⟨block, isBlock, member⟩ := List.mem_flatMap.1 placed
    exact size ▸ (rewriting.rewritten block isBlock).inside member
  have distinct : laid.order.Nodup := order ▸ rewriting.distinct
  refine ⟨⟨distinct, fun start member => ?starts⟩, written.encoded, fun block below => ?covers,
    ?size_le, fun block => ?dead, fun block dead => ?buried⟩
  case starts =>
    have placed : start.1 ∈ laid.order := by
      have listed := List.mem_map_of_mem (f := Prod.fst) member
      rwa [Layout.starts_map_fst] at listed
    rw [LaidCode.offset, Array.getD_eq_getD_getElem?, written.offsets_eq,
      Layout.offsets_of_mem_starts distinct member (inside _ placed)]
    rfl
  case covers =>
    rw [order]
    rw [← size] at below
    exact widened_covers _ block below
  case size_le =>
    refine Nat.le_of_not_lt fun less => ?_
    have placed : laid.blocks.size ∈ recordedOrder graph := mem_recordedOrder.2 less
    have there := (rewriting.rewritten _ placed).head.2
    exact Nat.lt_irrefl _ (size ▸ there)
  case dead =>
    rw [alive, recorded]
    exact iff_of_false Bool.false_ne_true fun both => Bool.false_ne_true both.1
  case buried =>
    rw [alive] at dead
    cases dead

theorem arranged_computedLayout {mode : ComputeMode} {graph : FlowGraph} {bytes : Bytes}
    {frames : Array (Option BlockFrame)} (computes : mode.computesFrames = true)
    (inferred : Inferred graph frames)
    (encoded : Encoding.each (encodeBlock (computedLayout graph.blocks frames))
      (computedLayout graph.blocks frames).order = .ok bytes) :
    Arranged mode graph (computedLayout graph.blocks frames) bytes := by
  obtain ⟨far, parts, laidOut⟩ := laid_computedLayout inferred
  have kept : ∀ block < graph.blocks.size, frames[block]? = some none → ∃ code,
      (live graph.blocks frames)[block]? = some code ∧
        (computedLayout graph.blocks frames).blocks[block]? = some code ∧
          (0 < code.width → ∃ before, code = bury before) := by
    intro block inside missing
    obtain ⟨code, there⟩ := exists_live inferred.size inside
    refine ⟨code, there, ?_⟩
    cases lives_of_live there with
    | reached padding recorded found => cases found.symm.trans missing
    | empty recorded missing branch none =>
      refine ⟨((laidOut.rewritten block inside).kept_of_long there ?_).2, fun some_ => by omega⟩
      have silent := (Nat.add_eq_zero_iff.1 none).2
      cases isBranch : code.branch with
      | conditional | goto | jsr =>
        rw [isBranch] at silent
        cases silent
      | _ => rfl
    | buried => exact ⟨((laidOut.rewritten block inside).kept_of_long there rfl).2, fun _ => ⟨_, rfl⟩⟩
  have missing : ∀ block : Nat, frames[block]? = some none ↔
      block < graph.blocks.size ∧ ¬graph.Reachable block := by
    intro block
    rw [← inferred.size, ← inferred.reachable]
    constructor
    · intro missing
      refine ⟨(Array.getElem?_eq_some_iff.1 missing).1, ?_⟩
      rintro ⟨frame, found⟩
      cases found.symm.trans missing
    · rintro ⟨inside, unreached⟩
      cases found : frames[block] with
      | none => rw [Array.getElem?_eq_getElem inside, found]
      | some frame => exact absurd ⟨frame, by rw [Array.getElem?_eq_getElem inside, found]⟩ unreached
  refine ⟨⟨laidOut.distinct, laidOut.starts⟩, encoded, laidOut.covers, ?size_le, fun block => ?dead,
    fun block dead => ?throws⟩
  case size_le =>
    refine Nat.le_of_not_lt fun less => ?_
    exact Nat.lt_irrefl _ (laidOut.inside (laidOut.mem_self less))
  case dead =>
    rw [laidOut.dead, and_iff_right computes, ← and_assoc, ← missing]
    refine and_congr_right fun isMissing => ?_
    obtain ⟨code, there, after, -⟩ := kept block ((missing block).1 isMissing).1 isMissing
    rw [Layout.blockWidth, Layout.blockWidth, there, after]
  case throws =>
    obtain ⟨isMissing, some_⟩ := (laidOut.dead block).1 dead
    obtain ⟨code, there, after, buried⟩ := kept block ((missing block).1 isMissing).1 isMissing
    rw [Layout.blockWidth, there] at some_
    obtain ⟨before, rfl⟩ := buried some_
    exact ⟨before, after⟩

end Assembly

open Assembly

/-- Whatever is computed, laid out code is written in one way. -/
theorem MethodBody.arranged_of_layOut {body : MethodBody} {method : MethodContext}
    {mode : ComputeMode} {before between after : Assembler.State} {laidOut : LaidMethod}
    {placed : List (Nat × BlockFrame)} {image : CodeImage}
    (run : (body.layOut method mode).run before = (.ok laidOut, between))
    (written : WrittenOut method laidOut.limits laidOut.laid laidOut.graph.handlers placed image after) :
    FlowGraph.ofItems body.items body.handlers (!mode.computesFrames) = .ok laidOut.graph ∧
      Arranged mode laidOut.graph laidOut.laid image.bytes := by
  cases computes : mode.computesFrames with
  | false =>
    obtain ⟨others, built, -, added, same⟩ := recorded_of_layOut computes run
    have sameCode := sameCode_of_recordedBlocks added
    rw [same] at written ⊢
    have isWritten : Written laidOut.graph (recordedLayout laidOut.graph.blocks others) image.bytes :=
      ⟨sameCode, rfl, rfl, written.short, written.encoded⟩
    exact ⟨built, arranged_of_written computes built isWritten (isDead_recordedLayout _ _)⟩
  | true =>
    obtain ⟨limits, frames, built, -, infer, same⟩ := computed_of_layOut computes run
    have isLaid : laidOut.laid = computedLayout laidOut.graph.blocks frames :=
      congrArg LaidMethod.laid same
    rw [isLaid] at written ⊢
    exact ⟨built, arranged_computedLayout computes (inferred_of_run built infer) written.encoded⟩

namespace Assembly

/-- A label stands at an offset. -/
def StandsAt (graph : FlowGraph) (laid : LaidCode) (label offset : Nat) : Prop :=
  ∃ block < graph.blocks.size, graph.labels[label]? = some block ∧ laid.offset block = offset

/-- The entries of a handler as it was recorded, whose labels stand at some offsets. -/
structure Covers (graph : FlowGraph) (laid : LaidCode) (handler : Handler)
    (start stop entry : Nat) (entries : List ExceptionEntry) : Prop
    extends Protects laid start stop entry (handler.catches.getD 0) entries where
  starts : StandsAt graph laid handler.start start
  stops : StandsAt graph laid handler.stop stop
  enters : StandsAt graph laid handler.entry entry
  /-- What widening adds to the protected code is protected as well. -/
  added : ∀ block ∈ laid.order, graph.blocks.size ≤ block → ∀ offset, laid.Holds block offset →
    start ≤ offset → offset < stop →
      ∃ exception ∈ entries, exception.start ≤ offset ∧ offset < exception.stop
  /-- Nothing is protected where the end is not after the start. -/
  inverted : stop ≤ start → entries = []

theorem Arranged.covers_entriesOf {mode : ComputeMode} {graph : FlowGraph} {bytes : Bytes}
    (arranged : Arranged mode graph laid bytes)
    (inside : ∀ label block : Nat, graph.labels[label]? = some block → block < graph.blocks.size)
    {recorded handler : Handler}
    (resolved : FlowGraph.resolveHandler graph.labels recorded = .ok handler) :
    Covers graph laid recorded (laid.offset handler.start) (laid.offset handler.stop)
      (laid.offset handler.entry) (entriesOf laid handler) := by
  obtain ⟨start, isStart, rest⟩ := bind_eq_ok.1 resolved
  obtain ⟨stop, isStop, rest⟩ := bind_eq_ok.1 rest
  obtain ⟨entry, isEntry, rest⟩ := bind_eq_ok.1 rest
  obtain rfl := pure_eq_ok.1 rest
  rw [FlowGraph.resolve_eq_ok] at isStart isStop isEntry
  have placed : ∀ {label block : Nat}, graph.labels[label]? = some block → block ∈ laid.order :=
    fun known => arranged.covers _ (Nat.lt_of_lt_of_le (inside _ _ known) arranged.size_le)
  let handler : Handler := ⟨start, stop, entry, recorded.catches⟩
  have isStart' : handler.start ∈ laid.order := placed isStart
  have isStop' : handler.stop ∈ laid.order := placed isStop
  have protects := protects_entriesOf arranged.toStanding isStart' isStop'
  refine ⟨protects, ⟨_, inside _ _ isStart, isStart, rfl⟩, ⟨_, inside _ _ isStop, isStop, rfl⟩,
    ⟨_, inside _ _ isEntry, isEntry, rfl⟩, ?_, protects.eq_nil⟩
  intro block isPlaced fresh offset holds low high
  refine (protects.covers offset).2 ⟨low, high, fun dead => ?_⟩
  rw [arranged.toStanding.deadAt_iff isPlaced holds, arranged.dead] at dead
  exact absurd dead.2.1 (Nat.not_lt_of_le fresh)

end Assembly

/-- The exception table of a method body as it is laid out, handler by handler in the
order they were recorded. -/
theorem MethodBody.exceptions_of_assemble {body : MethodBody} {method : MethodContext}
    {mode : ComputeMode} {wantsFrames : Bool} {before after : Assembler.State} {image : CodeImage}
    (run : (body.assemble method mode wantsFrames).run before = (.ok image, after)) :
    ∃ laidOut between tables,
      (body.layOut method mode).run before = (.ok laidOut, between) ∧
        FlowGraph.ofItems body.items body.handlers (!mode.computesFrames) = .ok laidOut.graph ∧
        Arranged mode laidOut.graph laidOut.laid image.bytes ∧
        List.Forall₂ (fun handler entries => ∃ start stop entry,
          Covers laidOut.graph laidOut.laid handler start stop entry entries) body.handlers tables ∧
        image.exceptions = tables.flatten := by
  obtain ⟨laidOut, between, laid, run⟩ := layOut_of_assemble run
  have written := writtenOut_of_run run
  obtain ⟨built, arranged⟩ := arranged_of_layOut laid written
  obtain ⟨segments, segmented⟩ := FlowGraph.segmented_of_ofItems built
  refine ⟨laidOut, between, laidOut.graph.handlers.map (entriesOf laidOut.laid), laid, built,
    arranged, ?_, ?_⟩
  · rw [List.forall₂_map_right_iff]
    exact (FlowGraph.resolved_of_ofItems built).imp fun _ _ resolved =>
      ⟨_, _, _, arranged.covers_entriesOf segmented.labels resolved⟩
  · rw [written.exceptions_eq, exceptionTable, List.flatMap_def]
    rfl

/-! ## Protected code with a dead block in the middle -/

/-- A handler that covers itself and what is before it, which holds a block that nothing
leads to. -/
def severed : MethodBody where
  items := [.label 0, .branch (.returns none), .instruction .nop, .branch (.returns none),
    .label 1, .instruction (.shuffle .pop), .branch (.returns none), .label 2]
  handlers := [⟨0, 2, 1, none⟩]
  limits := none

def severedMethod : MethodContext := ⟨"Loop", "run", ⟨[], none⟩, true⟩

def severedLabels : Std.HashMap Nat Nat :=
  (((∅ : Std.HashMap Nat Nat).insert 0 0).insert 1 2).insert 2 3

def severedGraph : FlowGraph where
  blocks := #[⟨none, #[], .returns none⟩, ⟨none, #[.nop], .returns none⟩,
    ⟨none, #[.shuffle .pop], .returns none⟩, ⟨none, #[], .stop⟩]
  handlers := [⟨0, 3, 2, none⟩]
  labels := severedLabels

def severedFrames : Array (Option BlockFrame) :=
  #[some ⟨[], []⟩, none, some ⟨[], [.object ClassName.throwable.text]⟩, none]

def severedBlocks : Array CodeBlock :=
  #[⟨some ⟨[], []⟩, #[], .returns none⟩,
    ⟨some ⟨[], [.object ClassName.throwable.text]⟩, #[.nop], .throws⟩,
    ⟨some ⟨[], [.object ClassName.throwable.text]⟩, #[.shuffle .pop], .returns none⟩,
    ⟨none, #[], .stop⟩]

def severedImage : CodeImage where
  limits := ⟨1, 0⟩
  bytes := [0xB1, 0x00, 0xBF, 0x57, 0xB1]
  exceptions := [⟨0, 1, 3, 0⟩, ⟨3, 5, 3, 0⟩]
  attributes := []

theorem severed_built :
    FlowGraph.ofItems severed.items severed.handlers false = .ok severedGraph := by
  have drafts : FlowGraph.Drafts.ofItems false severed.items =
      .ok ⟨#[⟨none, #[], some (.returns none)⟩, ⟨none, #[.nop], some (.returns none)⟩,
        ⟨none, #[.shuffle .pop], some (.returns none)⟩, .empty], severedLabels, .empty⟩ := by
    refine bind_eq_ok.2 ⟨⟨#[⟨none, #[], some (.returns none)⟩, ⟨none, #[.nop], some (.returns none)⟩,
        ⟨none, #[.shuffle .pop], some (.returns none)⟩], severedLabels, .empty⟩, ?_, rfl⟩
    refine foldlM_cons_eq_ok.2 ⟨_, FlowGraph.Drafts.addLabel_eq_ok.2
      ⟨Std.HashMap.not_mem_empty, rfl⟩, ?_⟩
    refine foldlM_cons_eq_ok.2 ⟨_, rfl, foldlM_cons_eq_ok.2 ⟨_, rfl, ?_⟩⟩
    refine foldlM_cons_eq_ok.2 ⟨_, rfl, foldlM_cons_eq_ok.2
      ⟨_, FlowGraph.Drafts.addLabel_eq_ok.2 ⟨?_, rfl⟩, ?_⟩⟩
    · change 1 ∉ (∅ : Std.HashMap Nat Nat).insert 0 0
      simp
    refine foldlM_cons_eq_ok.2 ⟨_, rfl, foldlM_cons_eq_ok.2 ⟨_, rfl, ?_⟩⟩
    refine foldlM_cons_eq_ok.2 ⟨_, FlowGraph.Drafts.addLabel_eq_ok.2 ⟨?_, rfl⟩, rfl⟩
    change 2 ∉ ((∅ : Std.HashMap Nat Nat).insert 0 0).insert 1 2
    simp
  have resolved : ∀ label block : Nat, severedLabels[label]? = some block →
      FlowGraph.resolve severedLabels label = .ok block :=
    fun _ _ known => FlowGraph.resolve_eq_ok.2 known
  have start := resolved 0 0 (by simp [severedLabels, Std.HashMap.getElem_insert])
  have entry := resolved 1 2 (by simp [severedLabels, Std.HashMap.getElem_insert])
  have stop := resolved 2 3 (by simp [severedLabels])
  refine bind_eq_ok.2 ⟨_, drafts, bind_eq_ok.2 ⟨severedGraph.blocks.toList, rfl, ?_⟩⟩
  refine bind_eq_ok.2 ⟨severedGraph.handlers, mapM_eq_ok.2 (.cons ?_ .nil), rfl⟩
  exact bind_eq_ok.2 ⟨_, start, bind_eq_ok.2 ⟨_, stop, bind_eq_ok.2 ⟨_, entry, rfl⟩⟩⟩

theorem severed_compute (pool : Pool) : Limits.compute severedGraph pool 0 = .ok ⟨1, 0⟩ := by
  have walked : Limits.walk severedGraph pool (Array.replicate severedGraph.blocks.size none) 0
      [(0, 0)] = .ok 1 := by
    rw [Limits.walk]
    change Limits.walk _ _ _ _ [(2, 1)] = _
    rw [Limits.walk]
    change Limits.walk _ _ _ _ [(2, 1)] = _
    rw [Limits.walk]
    change Limits.walk _ _ _ _ [] = _
    rw [Limits.walk]
    rfl
  rw [Limits.compute, walked]
  rfl

theorem severed_inferred (pool : Pool) (graph : ClassGraph) :
    (CodeContext.inferFrames ⟨severedGraph, severedMethod, pool⟩ 0).run (.ofGraph graph []) =
      (.ok severedFrames, .ofGraph graph []) := by
  have start : (Inference.reach 0 (severedMethod.entryFrame.resize 0)
      ⟨Array.replicate severedGraph.blocks.size none, []⟩).run (.ofGraph graph []) =
        (.ok ⟨#[some ⟨[], []⟩, none, none, none], [0]⟩, .ofGraph graph []) := rfl
  exact Inference.run_inferFrames (Nat.succ_pos 3) (Nat.zero_le 0) start fun more => rfl

/-- How `severed` is laid out with its frames. -/
def severedLaid : LaidCode :=
  ⟨severedBlocks, [0, 1, 2, 3], Layout.offsets severedBlocks [0, 1, 2, 3],
    #[false, true, false, false]⟩

theorem severed_laid : computedLayout severedGraph.blocks severedFrames = severedLaid :=
  computedLayout_eq (by decide +kernel) (widened_eq_self rfl) (by decide +kernel)

theorem severed_run (before : Assembler.State) (graph : ClassGraph)
    (isFresh : before.hierarchy = .ofGraph graph []) :
    (severed.assemble severedMethod .frames false).run before = (.ok severedImage, before) := by
  have computed : Limits.compute severedGraph before.pool severedMethod.parameterWidth =
      .ok ⟨1, 0⟩ := severed_compute before.pool
  have answered := severed_inferred before.pool graph
  rw [← isFresh] at answered
  have short : Layout.length severedLaid.blocks severedLaid.order < 65536 := by decide +kernel
  have encoded : Encoding.each (encodeBlock severedLaid) severedLaid.order =
      .ok severedImage.bytes := by
    decide +kernel
  have replaces : severedLaid.dead.contains true = true := by decide +kernel
  have exceptions : exceptionTable severedLaid severedGraph.handlers = severedImage.exceptions := by
    decide +kernel
  rw [MethodBody.run_assemble_computed severed_built computed answered,
    MethodBody.computedMethod, severed_laid, if_pos replaces, if_neg Bool.false_ne_true,
    run_writeOut_unmapped short encoded, exceptions]
  rfl

/-- The dead block in the middle is left out, so the handler has two entries. -/
theorem exceptions_of_assemble_severed :
    ∃ laidOut between tables,
      (severed.layOut severedMethod .frames).run ⟨.empty, .ofGraph .empty []⟩ =
          (.ok laidOut, between) ∧
        FlowGraph.ofItems severed.items severed.handlers (!ComputeMode.frames.computesFrames) =
          .ok laidOut.graph ∧
        Arranged .frames laidOut.graph laidOut.laid severedImage.bytes ∧
        List.Forall₂ (fun handler entries => ∃ start stop entry,
          Covers laidOut.graph laidOut.laid handler start stop entry entries) severed.handlers tables ∧
        severedImage.exceptions = tables.flatten :=
  MethodBody.exceptions_of_assemble
    (severed_run ⟨.empty, .ofGraph .empty []⟩ .empty rfl)

end ClassFile
