import ClassFile.Code.Decoded
import ClassFile.Proofs.Code.Operands

namespace ClassFile

/-!
# Offsets of decoded operations

Every operation takes at least its opcode.  So operations that are decoded stand at
increasing offsets, all of them before the end of the code, and an offset with an
operation is never the end.
-/

namespace Operation

/-- Operations that stand one behind the other between two offsets. -/
inductive Spaced (stop : Nat) : Nat → List (Nat × Operation) → Prop
  | nil {start : Nat} : Spaced stop start []
  | cons {start offset : Nat} {operation : Operation} {operations : List (Nat × Operation)}
      (behind : start ≤ offset) (inside : offset < stop) (solid : operation.Solid)
      (rest : Spaced stop (offset + 1) operations) :
      Spaced stop start ((offset, operation) :: operations)

theorem Spaced.mono {stop start lower : Nat} {operations : List (Nat × Operation)}
    (spaced : Spaced stop start operations) (below : lower ≤ start) :
    Spaced stop lower operations := by
  cases spaced with
  | nil => exact .nil
  | cons behind inside solid rest => exact .cons (Nat.le_trans below behind) inside solid rest

namespace Spaced

variable {stop start : Nat} {operations : List (Nat × Operation)}

theorem solid (spaced : Spaced stop start operations) : ∀ entry ∈ operations, entry.2.Solid := by
  induction spaced with
  | nil => exact List.forall_mem_nil _
  | cons _ _ solid _ ih => exact List.forall_mem_cons.2 ⟨solid, ih⟩

theorem start_le (spaced : Spaced stop start operations) :
    ∀ offset ∈ operations.map Prod.fst, start ≤ offset := by
  induction spaced with
  | nil => exact List.forall_mem_nil _
  | cons behind _ _ _ ih =>
    refine List.forall_mem_cons.2 ⟨behind, fun offset member => ?_⟩
    have later := ih offset member
    omega

/-- Offsets increase up to the end. -/
theorem increasing (spaced : Spaced stop start operations) :
    (operations.map Prod.fst ++ [stop]).Pairwise (· < ·) := by
  induction spaced with
  | nil => exact List.pairwise_singleton _ _
  | cons _ inside _ rest ih =>
    refine List.Pairwise.cons (fun offset member => ?_) ih
    rcases List.mem_append.1 member with member | member
    · exact rest.start_le offset member
    · rw [List.mem_singleton.1 member]
      exact inside

end Spaced

theorem Cut.spaced {start : Nat} {code : Bytes} {operations : List (Nat × Operation)}
    (cut : Cut start code operations) : Spaced (start + code.length) start operations := by
  induction cut with
  | nil => exact .nil
  | cons here _ ih =>
    have positive := List.length_pos_iff.2 here.ne_nil
    rw [List.length_append]
    rw [Nat.add_assoc] at ih
    exact .cons (Nat.le_refl _) (by omega) here.solid (ih.mono (by omega))

theorem spaced_decode {code : Bytes} {operations : List (Nat × Operation)}
    (run : decode code = .ok operations) : Spaced code.length 0 operations := by
  have spaced := (cut_decode run).spaced
  rwa [Nat.zero_add] at spaced

end Operation

/-- The operations of code that was read stand at offsets within it. -/
theorem DecodedCode.spaced_of_read {pool : Pool} {method : MethodContext} {wantsFrames : Bool}
    {info : Bytes} {code : DecodedCode}
    (run : (DecodedCode.read pool method wantsFrames).runOn info = .ok code) :
    Operation.Spaced code.length 0 code.operations := by
  rcases map_eq_ok.1 run with ⟨⟨_, after⟩, ran, rfl⟩
  rcases bind_eq_ok.1 ran with ⟨⟨stack, _⟩, -, ran⟩
  rcases bind_eq_ok.1 ran with ⟨⟨locals, _⟩, -, ran⟩
  rcases bind_eq_ok.1 ran with ⟨⟨length, _⟩, -, ran⟩
  rcases bind_eq_ok.1 ran with ⟨⟨bytes, _⟩, taken, ran⟩
  rcases bind_eq_ok.1 ran with ⟨⟨operations, _⟩, decoded, ran⟩
  rcases bind_eq_ok.1 ran with ⟨⟨count, _⟩, -, ran⟩
  rcases bind_eq_ok.1 ran with ⟨⟨handlers, _⟩, -, ran⟩
  rcases bind_eq_ok.1 ran with ⟨⟨count', _⟩, -, ran⟩
  rcases bind_eq_ok.1 ran with ⟨⟨frames, _⟩, -, ran⟩
  cases ran
  rcases Takes.take length _ _ _ taken with ⟨_, -, -, -, rfl, counted⟩
  have lifted : Takes (liftM (Operation.decode bytes) : Reader _) fun _ known =>
      Operation.decode bytes = .ok known := Takes.lift fun _ known => known
  rcases lifted _ _ _ decoded with ⟨_, -, -, -, known⟩
  rw [← counted]
  exact Operation.spaced_decode known

end ClassFile
