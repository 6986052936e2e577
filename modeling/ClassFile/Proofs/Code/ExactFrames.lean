import ClassFile.Proofs.Code.Agreement
import ClassFile.Proofs.Code.Falling

namespace ClassFile

/-!
# Supplied frames are the computed ones

Where blocks that need no frame have just the frame that comes to them, replaying finds
the computed frames again.  So the frames that are supplied and added are the computed
ones, at the same offsets, and code is written with them in just the same way.
-/

namespace Assembly

open Inference (Exact Stable)

variable {graph supplied : FlowGraph} {frames : Array (Option BlockFrame)} {laid other : LaidCode}
  {far : Finset Nat} {parts : Nat → List Nat} {method : MethodContext} {pool : Pool}
  {locals part : Nat} {frame : BlockFrame} {blocks : Array CodeBlock}

/-- A frame is the one that is computed for a part. -/
structure IsComputed (graph : FlowGraph) (frames : Array (Option BlockFrame)) (laid : LaidCode)
    (part : Nat) (frame : BlockFrame) : Prop where
  own : ∀ known, frames[part]? = some (some known) → frame = known
  added : graph.blocks.size ≤ part → frameOf? laid.blocks part = some frame

theorem Supplies.isComputed (inferred : Inferred graph frames)
    (supplies : Supplies graph frames laid part frame) : IsComputed graph frames laid part frame := by
  refine ⟨fun known isKnown => ?_, fun _ => supplies.computed⟩
  have inside := (Array.getElem?_eq_some_iff.1 isKnown).1
  rw [inferred.size] at inside
  exact Option.some.inj (Option.some.inj ((supplies.own inside).symm.trans isKnown))

section

variable (inferred : Inferred graph frames) (exact_ : Exact ⟨graph, method, pool⟩ locals frames)
  (isSupplied : graph.Supplied frames supplied)
  (lengths : ∀ (block : Nat) frame, frames[block]? = some (some frame) →
    frame.locals.length = locals)
  (fits : method.entryFrame.locals.length ≤ locals) (alive : AllLive graph frames)
  (twice : LaidTwice graph frames ⟨supplied, method, pool⟩ locals laid other far parts blocks)

include inferred exact_ isSupplied lengths fits alive twice

/-- Every frame in widened code is the one computed for its part. -/
theorem LaidTwice.isComputed (isPlaced : part ∈ laid.order)
    (found : frameOf? other.blocks part = some frame) : IsComputed graph frames laid part frame := by
  obtain ⟨laidOut, rewritten, same, given, -⟩ := twice
  rcases laidOut.frame_cases inferred isSupplied rewritten same given alive isPlaced found with
    supplies | ⟨before, inside, first, split, rfl, replayed⟩
  · exact supplies.isComputed inferred
  · obtain ⟨-, -, -, -, -, -, below, -⟩ := laidOut.split inferred inside split
    refine ⟨fun known isKnown => ?_, fun beyond => absurd below (Nat.not_lt_of_le beyond)⟩
    by_cases needs : graph.NeedsFrame (before + 1)
    · have kept := given.kept _ known
        ((own_framed inferred isSupplied rewritten below).2 ⟨needs, isKnown⟩)
      exact Option.some.inj (found.symm.trans kept)
    · have again := replay_exact exact_ inferred isSupplied lengths fits needs isKnown
      exact Except.ok.inj (replayed.symm.trans again)

omit lengths fits alive in
/-- A block without bytes passes on what is computed for the next block, unless that needs
a frame of its own. -/
theorem LaidTwice.passesOn {front back : List Nat} {next : Nat}
    (order : laid.order = front ++ part :: next :: back) :
    other.PassesOn (IsComputed graph frames laid) part next := by
  obtain ⟨laidOut, rewritten, same, given, -⟩ := twice
  intro empty unframed frame computed
  constructor
  case own =>
    intro known isKnown
    obtain ⟨rfl, unneeded, code, earlier, recorded, none, falls, found⟩ :=
      laidOut.fallen_of_empty inferred isSupplied rewritten same given order empty unframed isKnown
    rw [computed.own earlier found]
    exact (stepBlock_of_empty recorded none falls
      (exact_.fallen part earlier known unneeded found isKnown)).symm
  case added =>
    intro beyond
    rw [← (same.trans given.sameCode).blockWidth_eq] at empty
    exact absurd (laidOut.next_of_empty order empty).2.1 (Nat.not_lt_of_le beyond)

/-- Recorded frames are the computed ones of the bytes they stand at. -/
theorem LaidTwice.recordedFrames_computed :
    ∀ placed ∈ other.recordedFrames, other.FitsAt (IsComputed graph frames laid) placed := by
  refine LaidCode.recordedFrames_fit (fun part isPlaced frame found => ?_) ?_
  · exact twice.isComputed inferred exact_ isSupplied lengths fits alive (twice.order_eq ▸ isPlaced)
      found
  · rw [List.isChain_iff_forall_rel_of_append_cons_cons]
    intro part next front back order
    exact twice.passesOn inferred exact_ isSupplied (twice.order_eq ▸ order)

omit exact_ isSupplied lengths fits in
/-- Frames placed at the offsets of the needed ones are these if they are the computed ones
of the bytes they stand at. -/
theorem LaidTwice.mem_neededFrames (alike : LaidAlike graph laid other locals)
    {placed : Nat × BlockFrame} (member : placed ∈ other.recordedFrames)
    (fitsAt : other.FitsAt (IsComputed graph frames laid) placed) :
    placed ∈ laid.neededFrames graph.handlers := by
  obtain ⟨offset, frame⟩ := placed
  obtain ⟨part, isPlaced, some_, isOffset, computed⟩ := fitsAt
  rw [twice.order_eq] at isPlaced
  rw [← alike.sameCode.blockWidth_eq] at some_
  have needed := List.mem_map_of_mem (f := Prod.fst) member
  rw [alike.places, List.mem_map] at needed
  obtain ⟨⟨_, known⟩, isKnown, rfl⟩ := needed
  obtain ⟨own, added⟩ := twice.laidOut.computed_of_needed inferred alive isPlaced some_
    ((congrFun alike.offset_eq part).symm.trans isOffset) isKnown
  have same : frame = known := by
    rcases Nat.lt_or_ge part graph.blocks.size with inside | beyond
    · exact computed.own known (own inside)
    · exact Option.some.inj ((computed.added beyond).symm.trans added)
  rwa [same]

end

/-- Two rows with the same keys, all different, are the same if one has only what the other
has. -/
theorem eq_of_subset_of_keys {α β : Type} {entries others : List (α × β)}
    (distinct : (others.map Prod.fst).Nodup)
    (keys : entries.map Prod.fst = others.map Prod.fst) (inside : entries ⊆ others) :
    entries = others := by
  have lengths : entries.length = others.length := by
    simpa only [List.length_map] using congrArg List.length keys
  refine List.ext_getElem lengths fun index below below' => ?_
  have sameKey : entries[index].1 = others[index].1 := by
    have here := List.getElem_of_eq keys (by rwa [List.length_map])
    rwa [List.getElem_map, List.getElem_map] at here
  exact List.inj_on_of_nodup_map distinct (inside (List.getElem_mem below))
    (List.getElem_mem below') sameKey

/-- The frames that are supplied and added are the computed ones that a stack map needs. -/
theorem LaidTwice.recordedFrames_eq (inferred : Inferred graph frames)
    (exact_ : Exact ⟨graph, method, pool⟩ locals frames) (isSupplied : graph.Supplied frames supplied)
    (lengths : ∀ (block : Nat) frame, frames[block]? = some (some frame) →
      frame.locals.length = locals)
    (fits : method.entryFrame.locals.length ≤ locals) (alive : AllLive graph frames)
    (twice : LaidTwice graph frames ⟨supplied, method, pool⟩ locals laid other far parts blocks)
    (alike : LaidAlike graph laid other locals) :
    other.recordedFrames = laid.neededFrames graph.handlers := by
  refine eq_of_subset_of_keys alike.increasing.nodup alike.places fun placed member => ?_
  exact twice.mem_neededFrames inferred alive alike member
    (twice.recordedFrames_computed inferred exact_ isSupplied lengths fits alive placed member)

/-- Code that is laid out alike is written alike. -/
theorem LaidAlike.writeOut_eq (alike : LaidAlike graph laid other locals) (limits : Limits)
    (handlers : List Handler) (placed : List (Nat × BlockFrame)) :
    writeOut method limits other handlers placed = writeOut method limits laid handlers placed := by
  unfold writeOut
  rw [alike.length_eq, alike.encodeBlock_eq, alike.order_eq, alike.offsets_eq,
    alike.exceptionTable_eq]

end Assembly

/-! ## Code is written without questions -/

namespace Assembler

/-- What is done is the same in any hierarchy, which stays as it is. -/
def Unasking {α : Type} (action : Assembler α) : Prop :=
  ∀ pool, ∃ result after, ∀ hierarchy,
    action.run ⟨pool, hierarchy⟩ = (result, ⟨after, hierarchy⟩)

namespace Unasking

variable {α β : Type}

theorem pure (value : α) : Unasking (Pure.pure value) :=
  fun pool => ⟨.ok value, pool, fun _ => rfl⟩

theorem throw (fault : Fault) : Unasking (MonadExcept.throw fault : Assembler α) :=
  fun pool => ⟨.error fault, pool, fun _ => rfl⟩

theorem lift (answer : Except Fault α) : Unasking (liftM answer) := by
  cases answer with
  | ok value => exact pure value
  | error fault => exact throw fault

theorem symbol (request : Pool.Request α) : Unasking (Assembler.symbol request) :=
  fun pool => ⟨(request.run pool).1, (request.run pool).2, fun _ => rfl⟩

theorem bind {action : Assembler α} {next : α → Assembler β} (first : Unasking action)
    (second : ∀ value, Unasking (next value)) : Unasking (action >>= next) := by
  intro pool
  obtain ⟨result, between, run⟩ := first pool
  cases result with
  | ok value =>
    obtain ⟨result, after, run'⟩ := second value between
    exact ⟨result, after, fun hierarchy => (run_bind_of_ok (run hierarchy)).trans (run' hierarchy)⟩
  | error fault => exact ⟨.error fault, between, fun hierarchy => run_bind_of_error (run hierarchy)⟩

/-- Only the pool is looked at. -/
theorem reading (next : Pool → Assembler α) (after : ∀ pool, Unasking (next pool)) :
    Unasking (MonadState.get >>= fun state => next state.pool) := by
  intro pool
  obtain ⟨result, last, run⟩ := after pool pool
  exact ⟨result, last, fun hierarchy => run_get_bind.trans (run hierarchy)⟩

theorem mapM {step : α → Assembler β} (unasking : ∀ value, Unasking (step value))
    (values : List α) : Unasking (values.mapM step) := by
  induction values with
  | nil => exact pure []
  | cons value values ih =>
    rw [List.mapM_cons]
    exact (unasking value).bind fun _ => ih.bind fun _ => pure _

end Unasking

theorem unasking_written (offsets : Array Nat) (frame : BlockFrame) :
    Unasking (StackMap.written offsets frame) := by
  have type : ∀ type : BlockType, Unasking (type.mapM
      (fun name => symbol (Pool.addClass name)) fun site => StackMap.siteOffset offsets site) := by
    intro type
    cases type with
    | object name => exact (Unasking.symbol _).bind fun _ => .pure _
    | uninitialized site => exact (Unasking.lift _).bind fun _ => .pure _
    | _ => exact .pure _
  exact (Unasking.mapM type _).bind fun _ => (Unasking.mapM type _).bind fun _ => .pure _

theorem unasking_ofFrames (method : MethodContext) (offsets : Array Nat)
    (frames : List (Nat × BlockFrame)) : Unasking (StackMap.ofFrames method offsets frames) := by
  refine (Unasking.mapM (fun frame => ?_) frames).bind fun _ => ?_
  · exact (unasking_written offsets frame.2).bind fun _ => .pure _
  · refine Unasking.reading (fun pool => do
      let entry ← StackMap.compared pool offsets method.entryFrame
      return (← StackMap.entriesAfter #[] none entry _).toList) fun pool => ?_
    exact (Unasking.lift _).bind fun _ => (Unasking.lift _).bind fun _ => .pure _

theorem unasking_writeOut (method : MethodContext) (limits : Limits) (laid : LaidCode)
    (handlers : List Handler) (frames : List (Nat × BlockFrame)) :
    Unasking (Assembly.writeOut method limits laid handlers frames) := by
  have written : Unasking (do
      let bytes ← Encoding.each (Assembly.encodeBlock laid) laid.order
      let attributes ←
        if !frames.isEmpty then
          pure [← Assembly.stackMapAttribute (← StackMap.ofFrames method laid.offsets frames)]
        else pure []
      return CodeImage.mk limits bytes (Assembly.exceptionTable laid handlers) attributes) := by
    refine (Unasking.lift _).bind fun bytes => ?_
    split
    · refine (unasking_ofFrames _ _ _).bind fun entries => ?_
      refine Unasking.bind ?_ fun _ => (Unasking.pure _).bind fun _ => .pure _
      exact (Unasking.symbol _).bind fun _ => (Unasking.lift _).bind fun _ => .pure _
    · exact (Unasking.pure _).bind fun _ => .pure _
  unfold Assembly.writeOut
  dsimp only
  split
  · exact (Unasking.throw _).bind fun _ => written
  · exact written

end Assembler
end ClassFile
