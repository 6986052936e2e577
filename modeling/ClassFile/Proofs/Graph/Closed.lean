import Mathlib.Logic.Relation
import ClassFile.Proofs.Graph.Segments

namespace ClassFile
namespace FlowGraph

/-!
# Where control goes

Control goes from a block to its successors and to the handlers that cover it.
In a graph that was cut from items all of these are there.
-/

/-- All blocks that control may go to are there. -/
structure Closed (graph : FlowGraph) : Prop where
  some_ : 0 < graph.blocks.size
  successors : ∀ block, ∀ target ∈ graph.successors block, target < graph.blocks.size
  handlers : ∀ handler ∈ graph.handlers, handler.entry < graph.blocks.size

/-- Control may go from one block to another, by an exception or not. -/
def Edge (graph : FlowGraph) (block target : Nat) : Prop :=
  target ∈ graph.successors block ∨ ∃ handler ∈ graph.handlersOf block, handler.entry = target

/-- Control may reach a block from the start of the method. -/
def Reachable (graph : FlowGraph) (block : Nat) : Prop :=
  Relation.ReflTransGen graph.Edge 0 block

theorem Closed.edge {graph : FlowGraph} (closed : graph.Closed) {block target : Nat}
    (edge : graph.Edge block target) : target < graph.blocks.size := by
  rcases edge with successor | ⟨handler, covers, rfl⟩
  · exact closed.successors block target successor
  · exact closed.handlers handler (List.mem_of_mem_filter covers)

theorem Closed.reachable {graph : FlowGraph} (closed : graph.Closed) {block : Nat}
    (reachable : graph.Reachable block) : block < graph.blocks.size := by
  cases reachable with
  | refl => exact closed.some_
  | tail _ edge => exact closed.edge edge

theorem Ends.inside {labels : Std.HashMap Nat Nat} {block count : Nat}
    {branch? : Option (Branch Nat Nat Unit)} {branch : Branch Nat Nat Nat}
    (ends : Ends labels block count branch? branch)
    (labelsInside : ∀ label target : Nat, labels[label]? = some target → target < count) :
    ∀ target ∈ branch.targets ++ branch.next?.toList, target < count := by
  intro target member
  cases ends with
  | @recorded recorded resolved inner renamed =>
    rcases List.mem_append.1 member with taken | after
    · obtain ⟨label, -, placed⟩ := forall₂_mem renamed.targets taken
      exact labelsInside label target placed
    · have isNext := renamed.next?
      rw [Option.mem_toList] at after
      rw [after] at isNext
      generalize recorded.next? = next? at isNext
      cases isNext with
      | some same => exact same ▸ inner
  | through inner => exact List.mem_singleton.1 member ▸ inner
  | stops => cases member

theorem closed_of_ofItems {items : List Item} {handlers : List Handler} {subroutines : Bool}
    {graph : FlowGraph} (built : ofItems items handlers subroutines = .ok graph) :
    graph.Closed := by
  obtain ⟨segments, segmented⟩ := segmented_of_ofItems built
  refine ⟨segmented.some_, fun block target successor => ?_, segmented.handlers⟩
  rw [successors] at successor
  split at successor
  · next code isCode =>
    have inside := (Array.getElem?_eq_some_iff.1 isCode).1
    rw [← segmented.length_eq] at inside
    obtain ⟨marks, branch?, -, -, ends⟩ := segmented.each block code segments[block] isCode
      (List.getElem?_eq_getElem inside)
    exact ends.inside segmented.labels target successor
  · cases successor

end FlowGraph
end ClassFile
