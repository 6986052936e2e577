import ClassFile.Code.FlowGraph
import ClassFile.Proofs.Code.BranchReading
import ClassFile.Proofs.Code.Tiles

namespace ClassFile
namespace Operation

/-!
# What recorded items decode to

An instruction decodes to itself.  A branch decodes to itself with offsets for
labels, or, when it had to be widened, to a wide jump with what goes around it.
Labels stand at the first operation that comes after them, and frames leave
nothing in the code.
-/

/-- The operations that a branch is written as, which start at an offset.  What
comes after the branch starts at `next`. -/
inductive BranchImage (place : Nat → Option Nat) (start next : Nat) :
    Branch Nat Nat Unit → List (Nat × Operation) → Prop
  /-- A branch as it is, with the padding that its offset asks for. -/
  | same {recorded written : Branch Nat Nat Unit} (visible : written.opcode? ≠ none)
      (renamed : Branch.Renamed (fun label target => place label = some target)
        (fun label target => place label = some target) (fun _ _ => True)
        (recorded.withPadding (Branch.paddingAt start)) written) :
      BranchImage place start next recorded [(start, branch written)]
  /-- Control falls through or the code stops. -/
  | silent {recorded : Branch Nat Nat Unit} (silent : recorded.opcode? = none) :
      BranchImage place start next recorded []
  /-- A wide jump behind two instructions that do nothing. -/
  | goto {label target : Nat} (there : place label = some target) :
      BranchImage place start next (.goto label)
        [(start, instruction .nop), (start + 1, instruction .nop),
          (start + 2, branch (.gotoWide target))]
  /-- A wide call behind two instructions that do nothing. -/
  | jsr {label target : Nat} (there : place label = some target) :
      BranchImage place start next (.jsr label ())
        [(start, instruction .nop), (start + 1, instruction .nop),
          (start + 2, branch (.jsrWide target ()))]
  /-- A branch to a wide jump to the old target, and before that a jump to what
  comes next. -/
  | conditional {condition : Condition} {label target : Nat} (there : place label = some target) :
      BranchImage place start next (.conditional condition label ())
        [(start, branch (.conditional condition (start + 6) ())), (start + 3, branch (.goto next)),
          (start + 6, branch (.gotoWide target))]

/-- Operations are the images of items in order, and every label is placed at the
first operation after it, or where the code stops. -/
inductive Images (place : Nat → Option Nat) (stop : Nat) :
    List Item → List (Nat × Operation) → Prop
  | nil : Images place stop [] []
  | label {label : Nat} {items : List Item} {operations : List (Nat × Operation)}
      (here : place label = some (firstOffset stop operations))
      (rest : Images place stop items operations) :
      Images place stop (.label label :: items) operations
  | frame (frame : Frame String Nat) {items : List Item} {operations : List (Nat × Operation)}
      (rest : Images place stop items operations) :
      Images place stop (.frame frame :: items) operations
  | instruction (found : Instruction) (start : Nat) {items : List Item}
      {operations : List (Nat × Operation)} (rest : Images place stop items operations) :
      Images place stop (.instruction found :: items) ((start, instruction found) :: operations)
  | branch {recorded : Branch Nat Nat Unit} {start : Nat} {items : List Item}
      {image operations : List (Nat × Operation)}
      (here : BranchImage place start (firstOffset stop operations) recorded image)
      (rest : Images place stop items operations) :
      Images place stop (.branch recorded :: items) (image ++ operations)

theorem Images.append {place : Nat → Option Nat} {stop : Nat} {items others : List Item}
    {front back : List (Nat × Operation)}
    (before : Images place (firstOffset stop back) items front)
    (after : Images place stop others back) : Images place stop (items ++ others) (front ++ back) := by
  induction before with
  | nil => exact after
  | label here _ ih =>
    rw [← firstOffset_append] at here
    exact .label here ih
  | frame frame _ ih => exact .frame frame ih
  | instruction found start _ ih => exact .instruction found start ih
  | branch here _ ih =>
    rw [← firstOffset_append] at here
    rw [List.append_assoc]
    exact .branch here ih

/-! ## Code that decodes to items -/

/-- The code from an offset on decodes to the images of some items. -/
def Decodes (place : Nat → Option Nat) (start : Nat) (bytes : Bytes) (items : List Item) : Prop :=
  ∃ operations, Tiles start bytes operations ∧
    Images place (start + bytes.length) items operations

section

variable {place : Nat → Option Nat} {start : Nat}

theorem Decodes.nil (start : Nat) : Decodes place start [] [] :=
  ⟨[], .nil start, .nil⟩

theorem Decodes.append {front back : Bytes} {items others : List Item}
    (before : Decodes place start front items)
    (after : Decodes place (start + front.length) back others) :
    Decodes place start (front ++ back) (items ++ others) := by
  rcases before with ⟨first, tiles, images⟩
  rcases after with ⟨second, tiles', images'⟩
  refine ⟨first ++ second, tiles.append tiles', ?_⟩
  rw [List.length_append, ← Nat.add_assoc]
  apply Images.append _ images'
  rwa [tiles'.firstOffset_eq]

/-- Code decodes to all items if each piece of it does where it stands. -/
theorem Decodes.flatten {pieces : List Bytes} {segments : List (List Item)}
    (same : pieces.length = segments.length)
    (each : ∀ (index : Nat) (piece : Bytes) (segment : List Item), pieces[index]? = some piece →
      segments[index]? = some segment →
      Decodes place (start + (pieces.take index).flatten.length) piece segment) :
    Decodes place start pieces.flatten segments.flatten := by
  induction pieces generalizing start segments with
  | nil =>
    cases segments with
    | nil => exact .nil start
    | cons segment segments => cases same
  | cons piece pieces ih =>
    cases segments with
    | nil => cases same
    | cons segment segments =>
      refine (each 0 piece segment rfl rfl).append (ih (Nat.succ.inj same) ?_)
      intro index other others isPiece isSegment
      have there := each (index + 1) other others isPiece isSegment
      rwa [List.take_succ_cons, List.flatten_cons, List.length_append, ← Nat.add_assoc] at there

/-- Labels and frames leave nothing. -/
theorem decodes_marks {marks : List Item}
    (areMarks : ∀ mark ∈ marks, (∃ label, mark = .label label ∧ place label = some start) ∨
      ∃ frame, mark = .frame frame) : Decodes place start [] marks := by
  refine ⟨[], .nil start, ?_⟩
  induction marks with
  | nil => exact .nil
  | cons mark marks ih =>
    have rest := ih fun other member => areMarks other (List.mem_cons_of_mem _ member)
    rcases areMarks mark List.mem_cons_self with ⟨label, rfl, there⟩ | ⟨frame, rfl⟩
    · exact .label there rest
    · exact .frame frame rest

theorem encode_ne_nil {found : Instruction} {bytes : Bytes} (written : found.encode = .ok bytes) :
    bytes ≠ [] := by
  rw [← List.length_pos_iff, Instruction.length_encode written, Instruction.width]
  omega

theorem tiles_instruction {found : Instruction} {bytes : Bytes} (written : found.encode = .ok bytes)
    (start : Nat) : Tiles start bytes [(start, instruction found)] :=
  .single (encode_ne_nil written) (Instruction.reads_encode written start)

theorem decodes_instructions {instructions : List Instruction} {bytes : Bytes}
    (written : Encoding.each Instruction.encode instructions = .ok bytes) :
    Decodes place start bytes (instructions.map Item.instruction) := by
  rcases map_eq_ok.1 written with ⟨pieces, encoded, rfl⟩
  have each := mapM_eq_ok.1 encoded
  clear encoded written
  induction each generalizing start with
  | nil => exact .nil start
  | cons here _ ih =>
    rw [List.flatten_cons, List.map_cons, ← List.singleton_append (l := List.map _ _)]
    refine Decodes.append ⟨_, tiles_instruction here start, ?_⟩ ih
    exact .instruction _ _ .nil

/-- Instructions are as wide together as their encodings are long. -/
theorem length_each {instructions : List Instruction} {bytes : Bytes}
    (written : Encoding.each Instruction.encode instructions = .ok bytes) :
    bytes.length = Wide.total instructions := by
  rcases map_eq_ok.1 written with ⟨pieces, encoded, rfl⟩
  have each := mapM_eq_ok.1 encoded
  clear encoded written
  induction each with
  | nil => rfl
  | cons here _ ih =>
    rw [List.flatten_cons, List.length_append, ih, Instruction.length_encode here, Wide.total_cons]
    rfl

theorem decodes_branch {recorded : Branch Nat Nat Unit} {bytes : Bytes}
    {image : List (Nat × Operation)} (tiles : Tiles start bytes image)
    (here : BranchImage place start (start + bytes.length) recorded image) :
    Decodes place start bytes [.branch recorded] := by
  refine ⟨image, tiles, ?_⟩
  rw [← List.append_nil image]
  exact .branch here .nil

end

end Operation
end ClassFile
