import ClassFile.Proofs.Bytes.Sequences
import ClassFile.Proofs.Code.Laying

namespace ClassFile
namespace Operation

/-!
# Code as a row of operations

Laid out blocks are written as one row of operations, each with the offset that it
stands at.  Whatever has been written is such a row, also a switch with an empty
table, which no reader takes.  All other code decodes to its row.
-/

/-- The bytes of an operation at an offset.  A branch has the distances of its
targets, and a switch the padding that the offset asks for. -/
inductive Encodes (start : Nat) : Operation → Bytes → Prop
  | instruction {found : Instruction} {bytes : Bytes} (written : found.encode = .ok bytes) :
      Encodes start (.instruction found) bytes
  | branch {absolute : Branch Nat Nat Unit} {relative : Branch Int16 Int32 Unit} {bytes : Bytes}
      (visible : absolute.opcode? ≠ none)
      (padded : absolute.withPadding (Branch.paddingAt start) = absolute)
      (leads : Branch.Renamed
        (fun (distance : Int16) target => Branch.Leads start distance.toInt target)
        (fun (distance : Int32) target => Branch.Leads start distance.toInt target)
        (fun _ _ => True) relative absolute)
      (written : relative.encode = .ok bytes) : Encodes start (.branch absolute) bytes

/-- Code from an offset on that is a row of operations. -/
inductive Emits : Nat → Bytes → List (Nat × Operation) → Prop
  | nil (start : Nat) : Emits start [] []
  | cons {start : Nat} {piece rest : Bytes} {operation : Operation}
      {operations : List (Nat × Operation)} (here : operation.Encodes start piece)
      (after : Emits (start + piece.length) rest operations) :
      Emits start (piece ++ rest) ((start, operation) :: operations)

/-- A branch to an offset. -/
def JumpsTo (operations : List (Nat × Operation)) (offset : Nat) : Prop :=
  ∃ start branch, (start, .branch branch) ∈ operations ∧ offset ∈ branch.targets

end Operation

namespace Branch

variable {σ ω ν : Type}

/-- Control never goes on after the branch, and does not return there. -/
def neverFallsThrough : Branch σ ω ν → Bool
  | goto _ | gotoWide _ | tableSwitch .. | lookupSwitch .. | returns _ | throws => true
  | _ => false

end Branch

namespace Operation

/-- A branch that ends at an offset and after which control never goes on. -/
def StopsAt (operations : List (Nat × Operation)) (offset : Nat) : Prop :=
  ∃ start branch, (start, .branch branch) ∈ operations ∧ branch.neverFallsThrough = true ∧
    start + branch.width = offset

section

variable {start : Nat} {bytes : Bytes} {operations : List (Nat × Operation)}

theorem Emits.single {operation : Operation} (here : operation.Encodes start bytes) :
    Emits start bytes [(start, operation)] := by
  have one := Emits.cons here (.nil _)
  rwa [List.append_nil] at one

theorem Emits.append {front back : Bytes} {first second : List (Nat × Operation)}
    (before : Emits start front first) (after : Emits (start + front.length) back second) :
    Emits start (front ++ back) (first ++ second) := by
  induction before with
  | nil start => exact after
  | cons here _ ih =>
    rw [List.append_assoc]
    refine .cons here (ih ?_)
    rwa [Nat.add_assoc, ← List.length_append]

/-! ## Decoding -/

theorem isReadable_of_padded {branch : Branch Nat Nat Unit} (visible : branch.opcode? ≠ none)
    (padded : branch.withPadding (Branch.paddingAt start) = branch)
    (filled : ∀ padding otherwise low targets,
      branch = .tableSwitch padding otherwise low targets → targets ≠ [])
    (short : branch.width < 65536) : branch.IsReadable start := by
  cases branch with
  | tableSwitch padding otherwise low targets =>
    exact ⟨(Branch.tableSwitch.inj padded).1.symm, filled _ _ _ _ rfl⟩
  | lookupSwitch padding otherwise pairs =>
    refine ⟨(Branch.lookupSwitch.inj padded).1.symm, ?_⟩
    rw [Branch.width] at short
    omega
  | fallThrough | stop => exact absurd rfl visible
  | _ => trivial

/-- A table without targets, which no reader takes. -/
def IsEmptyTable (operation : Operation) : Prop :=
  ∃ padding otherwise low, operation = .branch (.tableSwitch padding otherwise low [])

theorem width_pos_of_visible {branch : Branch Nat Nat Unit} (visible : branch.opcode? ≠ none) :
    0 < branch.width := by
  cases branch with
  | ret slot =>
    rw [Branch.width]
    split <;> decide
  | fallThrough | stop => exact absurd rfl visible
  | _ =>
    rw [Branch.width]
    omega

/-- Every operation takes up some bytes. -/
theorem Encodes.ne_nil {piece : Bytes} {operation : Operation}
    (here : operation.Encodes start piece) : piece ≠ [] := by
  cases here with
  | instruction written => exact encode_ne_nil written
  | branch visible padded leads written =>
    rw [← List.length_pos_iff, Branch.length_encode written, leads.width]
    exact width_pos_of_visible visible

/-- All other operations are read back from the bytes that they are written as. -/
theorem Encodes.reads {piece : Bytes} {operation : Operation}
    (here : operation.Encodes start piece) (short : piece.length < 65536)
    (filled : ¬operation.IsEmptyTable) : Reads read start piece operation := by
  cases here with
  | instruction written => exact Instruction.reads_encode written _
  | branch visible padded leads written =>
    have width := Branch.length_encode written
    rw [leads.width] at width
    have readable := isReadable_of_padded visible padded
      (fun padding otherwise low targets same none =>
        filled ⟨padding, otherwise, low, by rw [same, none]⟩) (by omega)
    exact Branch.reads_encode written (leads.flip.isReadable readable) leads

/-- A row without empty tables is what its code decodes to. -/
theorem Emits.tiles (emits : Emits start bytes operations) (short : bytes.length < 65536)
    (filled : ∀ place padding otherwise low targets,
      (place, .branch (.tableSwitch padding otherwise low targets)) ∈ operations → targets ≠ []) :
    Tiles start bytes operations := by
  induction emits with
  | nil start => exact .nil start
  | cons here _ ih =>
    rw [List.length_append] at short
    have after := ih (by omega) fun place padding otherwise low targets member =>
      filled place padding otherwise low targets (List.mem_cons_of_mem _ member)
    refine .cons here.ne_nil (here.reads (by omega) ?_) after
    rintro ⟨padding, otherwise, low, rfl⟩
    exact filled _ padding otherwise low [] List.mem_cons_self rfl

/-! ## Blocks -/

/-- Instructions one after the other. -/
def instructionsFrom : Nat → List Instruction → List (Nat × Operation)
  | _, [] => []
  | start, found :: rest =>
    (start, .instruction found) :: instructionsFrom (start + found.width) rest

theorem emits_instructions {instructions : List Instruction}
    (written : Encoding.each Instruction.encode instructions = .ok bytes) :
    Emits start bytes (instructionsFrom start instructions) := by
  induction instructions generalizing start bytes with
  | nil =>
    cases written
    exact .nil start
  | cons found rest ih =>
    rcases Encoding.each_cons_eq_ok.mp written with ⟨front, back, isFront, isBack, rfl⟩
    refine .cons (.instruction isFront) ?_
    rw [Instruction.length_encode isFront]
    exact ih isBack

theorem not_branch_of_mem_instructionsFrom {instructions : List Instruction} {place : Nat}
    {branch : Branch Nat Nat Unit} :
    (place, .branch branch) ∉ instructionsFrom start instructions := by
  induction instructions generalizing start with
  | nil => exact List.not_mem_nil
  | cons found rest ih =>
    rintro (_ | ⟨_, later⟩)
    exact ih later

end

end Operation

namespace LaidCode

open Assembly (placed relative encodeBlock)
open Operation (Emits instructionsFrom)

variable {laid : LaidCode}

/-- The branch of a block, unless it writes nothing. -/
def branchOf (laid : LaidCode) (start : Nat) (branch : Branch Nat Nat Nat) :
    List (Nat × Operation) :=
  if branch.opcode? = none then [] else [(start, .branch (placed laid branch))]

/-- The operations of a block. -/
def operationsOf (laid : LaidCode) (block : Nat) : List (Nat × Operation) :=
  match laid.blocks[block]? with
  | none => []
  | some code =>
    instructionsFrom (laid.offset block) code.instructions.toList ++
      laid.branchOf (laid.offset block + code.bodyWidth) code.branch

/-- The operations of all blocks. -/
def operations (laid : LaidCode) : List (Nat × Operation) :=
  laid.order.flatMap laid.operationsOf

/-- The branches in the code are those of the blocks. -/
theorem mem_operations {start : Nat} {branch : Branch Nat Nat Unit} :
    (start, .branch branch) ∈ laid.operations ↔
      ∃ block ∈ laid.order, ∃ code, laid.blocks[block]? = some code ∧ code.branch.opcode? ≠ none ∧
        start = laid.offset block + code.bodyWidth ∧ branch = placed laid code.branch := by
  rw [operations, List.mem_flatMap]
  refine exists_congr fun block => and_congr_right fun _ => ?_
  rw [operationsOf]
  cases laid.blocks[block]? with
  | none => exact iff_of_false List.not_mem_nil fun ⟨_, there, _⟩ => by cases there
  | some code =>
    simp only [List.mem_append, Operation.not_branch_of_mem_instructionsFrom, false_or, branchOf,
      Option.some.injEq, exists_eq_left']
    split
    · next silent => exact iff_of_false List.not_mem_nil fun ⟨visible, _⟩ => visible silent
    · next visible => simp [visible]

/-- The switches of a layout are padded where they stand. -/
def Padded (laid : LaidCode) : Prop :=
  ∀ block ∈ laid.order, ∀ code, laid.blocks[block]? = some code →
    code.branch.withPadding (Branch.paddingAt (laid.offset block + code.bodyWidth)) = code.branch

theorem placed_withPadding (branch : Branch Nat Nat Nat) (padding : Nat) :
    (placed laid branch).withPadding padding = placed laid (branch.withPadding padding) := by
  cases branch <;> rfl

theorem placed_opcode? (branch : Branch Nat Nat Nat) :
    (placed laid branch).opcode? = branch.opcode? := by
  cases branch with
  | returns kind => cases kind <;> rfl
  | _ => rfl

theorem emits_branchOf {start : Nat} {branch : Branch Nat Nat Nat}
    {written : Branch Int16 Int32 Unit} {bytes : Bytes}
    (padded : branch.withPadding (Branch.paddingAt start) = branch)
    (run : relative laid start branch = .ok written) (encoded : written.encode = .ok bytes) :
    Emits start bytes (laid.branchOf start branch) := by
  rw [branchOf]
  split
  · next silent =>
    rw [Assembly.nil_of_silent run encoded silent]
    exact .nil start
  · next visible =>
    refine .single (.branch ?_ ?_ (Assembly.leads_placed run) encoded)
    · rwa [placed_opcode?]
    · rw [placed_withPadding, padded]

theorem emits_operationsOf {block : Nat} {bytes : Bytes}
    (padded : ∀ code, laid.blocks[block]? = some code →
      code.branch.withPadding (Branch.paddingAt (laid.offset block + code.bodyWidth)) = code.branch)
    (run : encodeBlock laid block = .ok bytes) :
    Emits (laid.offset block) bytes (laid.operationsOf block) := by
  rw [operationsOf]
  cases there : laid.blocks[block]? with
  | none =>
    rw [encodeBlock, there] at run
    cases run
    exact .nil _
  | some code =>
    rcases Assembly.encodeBlock_eq_ok there run with
      ⟨front, back, written, each, renamed, encoded, rfl⟩
    have length : front.length = code.bodyWidth := Operation.length_each each
    refine (Operation.emits_instructions each).append ?_
    rw [length]
    exact emits_branchOf (padded code there) renamed encoded

/-- Blocks that stand where the ones before them end are written as the row of
their operations. -/
theorem emits_flatMap {order : List Nat} {start : Nat} {bytes : Bytes}
    (starts : ∀ place ∈ Layout.startsFrom laid.blocks start order, laid.offset place.1 = place.2)
    (padded : ∀ block ∈ order, ∀ code, laid.blocks[block]? = some code →
      code.branch.withPadding (Branch.paddingAt (laid.offset block + code.bodyWidth)) = code.branch)
    (run : Encoding.each (encodeBlock laid) order = .ok bytes) :
    Emits start bytes (order.flatMap laid.operationsOf) := by
  induction order generalizing start bytes with
  | nil =>
    cases run
    exact .nil start
  | cons block order ih =>
    rcases Encoding.each_cons_eq_ok.mp run with ⟨front, back, isFront, isBack, rfl⟩
    rw [Layout.startsFrom, List.forall_mem_cons] at starts
    rw [List.forall_mem_cons] at padded
    have here := emits_operationsOf padded.1 isFront
    rw [starts.1] at here
    refine here.append (ih ?_ padded.2 isBack)
    rw [Assembly.length_encodeBlock isFront]
    exact starts.2

end LaidCode
end ClassFile
