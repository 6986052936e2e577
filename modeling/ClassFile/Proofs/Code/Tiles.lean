import ClassFile.Code.Operation
import ClassFile.Proofs.Bytes.Reads

namespace ClassFile
namespace Operation

/-!
# Code cut into operations

Decoding reads one operation after the other, so it gives back any cut of the
code into pieces that are each read as one operation.  What is said of the code
before a position and of the code from there on adds up.
-/

/-- Pieces of code, each of which is read as the operation at its offset. -/
inductive Tiles : Nat → Bytes → List (Nat × Operation) → Prop
  | nil (start : Nat) : Tiles start [] []
  | cons {start : Nat} {piece rest : Bytes} {operation : Operation}
      {operations : List (Nat × Operation)} (some_ : piece ≠ [])
      (here : Reads read start piece operation)
      (after : Tiles (start + piece.length) rest operations) :
      Tiles start (piece ++ rest) ((start, operation) :: operations)

/-- The offset of the first operation, or where the code stops without one. -/
def firstOffset (stop : Nat) (operations : List (Nat × Operation)) : Nat :=
  (operations.head?.map Prod.fst).getD stop

theorem firstOffset_append (stop : Nat) (front back : List (Nat × Operation)) :
    firstOffset stop (front ++ back) = firstOffset (firstOffset stop back) front := by
  cases front with
  | nil => rfl
  | cons operation front => rfl

namespace Tiles

variable {start : Nat} {bytes : Bytes} {operations : List (Nat × Operation)}

theorem single {piece : Bytes} {operation : Operation} (some_ : piece ≠ [])
    (here : Reads read start piece operation) : Tiles start piece [(start, operation)] := by
  have one := Tiles.cons some_ here (.nil _)
  rwa [List.append_nil] at one

theorem append {front back : Bytes} {first second : List (Nat × Operation)}
    (before : Tiles start front first) (after : Tiles (start + front.length) back second) :
    Tiles start (front ++ back) (first ++ second) := by
  induction before with
  | nil start => exact after
  | cons some_ here _ ih =>
    rw [List.append_assoc]
    refine .cons some_ here (ih ?_)
    rwa [Nat.add_assoc, ← List.length_append]

/-- Tiles start where the code does. -/
theorem firstOffset_eq (tiles : Tiles start bytes operations) :
    firstOffset (start + bytes.length) operations = start := by
  cases tiles with
  | nil => rfl
  | cons => rfl

theorem readOnto_done {already : Array (Nat × Operation)} {cursor : Cursor} (fuel : Nat)
    (done : cursor.atEnd = true) : (readOnto already fuel).run cursor = .ok (already, cursor) := by
  cases fuel with
  | zero => rfl
  | succ fuel =>
    unfold readOnto
    rw [StateT.run_bind, StateT.run_get, pure_bind, if_pos done]
    rfl

theorem readOnto_more {already : Array (Nat × Operation)} {cursor : Cursor} (fuel : Nat)
    (more : cursor.atEnd = false) :
    (readOnto already (fuel + 1)).run cursor = (do
      let next ← read.run cursor
      (readOnto (already.push (cursor.position, next.1)) fuel).run next.2) := by
  conv_lhs => unfold readOnto
  rw [StateT.run_bind, StateT.run_get, pure_bind, if_neg (by rw [more]; exact Bool.false_ne_true)]
  rfl

theorem readOnto_step {already : Array (Nat × Operation)} {cursor after : Cursor}
    {operation : Operation} (fuel : Nat) (more : cursor.atEnd = false)
    (run : read.run cursor = .ok (operation, after)) :
    (readOnto already (fuel + 1)).run cursor =
      (readOnto (already.push (cursor.position, operation)) fuel).run after := by
  rw [readOnto_more fuel more, run]
  rfl

theorem readOnto_eq (tiles : Tiles start bytes operations) (already : Array (Nat × Operation))
    {fuel : Nat} (enough : bytes.length ≤ fuel) {cursor : Cursor}
    (standing : cursor.At start bytes) :
    ∃ after, (readOnto already fuel).run cursor = .ok (already ++ operations.toArray, after) := by
  induction tiles generalizing already fuel cursor with
  | nil start =>
    rw [Array.append_empty]
    refine ⟨cursor, readOnto_done fuel ?_⟩
    rw [standing.atEnd_eq]
    rfl
  | @cons start piece rest operation operations some_ here _ ih =>
    have positive := List.length_pos_iff.2 some_
    rw [List.length_append] at enough
    have more : cursor.atEnd = false := by
      rw [standing.atEnd_eq, List.isEmpty_eq_false_iff]
      exact List.append_ne_nil_of_left_ne_nil some_ rest
    rcases here cursor rest standing with ⟨middle, run, there⟩
    have split : fuel = (fuel - 1) + 1 := by omega
    have fewer : rest.length ≤ fuel - 1 := by omega
    rcases ih (already.push (start, operation)) fewer there with ⟨after, others⟩
    refine ⟨after, ?_⟩
    rw [split, readOnto_step _ more run, standing.position_eq, others,
      List.push_append_toArray]

/-- Tiles are what the code decodes to. -/
theorem decode_eq {code : Bytes} (tiles : Tiles 0 code operations) :
    decode code = .ok operations := by
  rcases tiles.readOnto_eq #[] (Nat.le_refl _) (Cursor.at_ofBytes code) with ⟨after, run⟩
  rw [decode, Reader.runOn, run, Array.empty_append]
  rfl

end Tiles
end Operation
end ClassFile
