import ClassFile.Proofs.Code.Recording
import ClassFile.Proofs.Code.WritingOut
import ClassFile.Proofs.Frame.Renumbering

namespace ClassFile

/-!
# Rows of written code

What is written for laid out code depends on where its blocks are and not on their
numbers.  `LaidCode.rows` is the code without them, where all that refers to a block refers
to its offset.  The bytes, the exception table and the stack map can be told from the rows.
-/

open Assembly

/-! ## Renaming twice -/

section

variable {m : Type → Type} [Monad m] [LawfulMonad m] {κ υ υ' κ' : Type}

theorem mapM_congr_of_mem {α β : Type} {f g : α → m β} {values : List α}
    (same : ∀ value ∈ values, f value = g value) : values.mapM f = values.mapM g := by
  induction values with
  | nil => rfl
  | cons value values ih =>
    rw [List.forall_mem_cons] at same
    rw [List.mapM_cons, List.mapM_cons, same.1, ih same.2]

/-- Renaming sites to numbers and then renaming those. -/
theorem Frame.mapM_of_renumber (frame : BlockFrame) (number : Nat → Nat) (cls : String → m κ')
    (site : Nat → m υ') : (frame.renumber number).mapM cls site = frame.mapM cls (site ∘ number) := by
  have types : (fun type : BlockType => type.mapM cls site) ∘ VerificationType.renumber number =
      fun type => type.mapM cls (site ∘ number) := by
    funext type
    cases type <;> rfl
  rw [mapM, mapM, operands, operands, renumber, ← List.map_reverse, List.mapM_map, List.mapM_map, types]

theorem Frame.mapM_congr {frame : BlockFrame} {cls : String → m κ'} {site site' : Nat → m υ'}
    (same : ∀ block, frame.Mentions block → site block = site' block) :
    frame.mapM cls site = frame.mapM cls site' := by
  have types : ∀ type, type ∈ frame.locals ∨ type ∈ frame.stack →
      type.mapM cls site = type.mapM cls site' := by
    intro type member
    cases type with
    | uninitialized block => exact congrArg (· >>= _) (same block member)
    | _ => rfl
  have locals := mapM_congr_of_mem fun type member => types type (.inl member)
  have stack : frame.operands.mapM _ = frame.operands.mapM _ :=
    mapM_congr_of_mem fun type member => types type (.inr (List.mem_reverse.1 member))
  rw [mapM, mapM, locals, stack]

end

/-- One part is written before the others. -/
theorem Encoding.each_cons {α : Type} (one : α → Except Fault Bytes) (part : α) (parts : List α) :
    each one (part :: parts) = one part >>= fun front => (front ++ ·) <$> each one parts := by
  rw [each, List.mapM_cons]
  cases one part with
  | error fault => rfl
  | ok front =>
    rw [each]
    cases parts.mapM one <;> rfl

/-! ## Rows -/

/-- A block as it is written from an offset on, where other blocks stand for their offsets. -/
structure Row where
  offset : Nat
  frame : Option BlockFrame
  instructions : List Instruction
  branch : Branch Nat Nat Nat

namespace Row

def width (row : Row) : Nat :=
  Wide.total row.instructions + row.branch.width

/-- Bytes from a branch to an offset, if it is within range. -/
def reach (origin : Nat) (range : Widening.Range) (offset : Nat) : Except Fault Int :=
  let bytes : Int := offset - origin
  if range.contains bytes then .ok bytes else .error (.codeOverflow origin)

/-- A branch at an offset with relative targets. -/
def relative (origin : Nat) (branch : Branch Nat Nat Nat) : Except Fault (Branch Int16 Int32 Unit) :=
  branch.mapM (fun offset => Int16.ofInt <$> reach origin .short offset)
    (fun offset => Int32.ofInt <$> reach origin .wide offset) fun _ => return ()

def encode (row : Row) : Except Fault Bytes := do
  let instructions ← Encoding.each Instruction.encode row.instructions
  let branch ← relative (row.offset + Wide.total row.instructions) row.branch
  return instructions ++ (← branch.encode)

/-- Place the frame of a row, or keep it for the next row with bytes. -/
def place (recorded : LaidCode.Recorded) (row : Row) : LaidCode.Recorded :=
  let frame? := row.frame.or recorded.pending
  if row.width = 0 then { recorded with pending := frame? }
  else
    let placed := match frame? with
      | some frame => recorded.placed.push (row.offset, frame)
      | none => recorded.placed
    ⟨placed, none⟩

/-- The frames of rows, one for every offset. -/
def frames (rows : List Row) : List (Nat × BlockFrame) :=
  (rows.foldl place ⟨#[], none⟩).placed.toList

/-- Add a row between two offsets to runs of code. -/
def cover (start stop : Nat) (runs : LiveRuns) (row : Row) : LiveRuns :=
  if row.offset < start ∨ stop < row.offset + row.width ∨ row.width = 0 then runs
  else runs.add row.offset (row.offset + row.width)

/-- The exception table of rows, for handlers by offsets. -/
def exceptions (rows : List Row) (handlers : List Handler) : List ExceptionEntry :=
  handlers.flatMap fun handler =>
    (rows.foldl (cover handler.start handler.stop) ⟨#[], none⟩).cut.complete.toList.map
      fun (start, stop) => ⟨start, stop, handler.entry, handler.catches.getD 0⟩

end Row

namespace LaidCode

variable {laid : LaidCode} {block : Nat} {row : Row}

def row? (laid : LaidCode) (block : Nat) : Option Row :=
  laid.blocks[block]?.map fun code =>
    ⟨laid.offset block, code.frame.map (Frame.renumber laid.offset), code.instructions.toList,
      code.branch.renumber laid.offset⟩

def rows (laid : LaidCode) : List Row :=
  laid.order.filterMap laid.row?

/-- What does nothing where there is no block goes over the rows instead. -/
theorem foldl_rows {α : Type} {step : α → Nat → α} {step' : α → Row → α}
    (absent : ∀ block, laid.row? block = none → ∀ before, step before block = before)
    (there : ∀ block row, laid.row? block = some row → ∀ before, step before block = step' before row)
    (start : α) : laid.order.foldl step start = laid.rows.foldl step' start := by
  unfold rows
  induction laid.order generalizing start with
  | nil => rfl
  | cons block order ih =>
    rw [List.foldl_cons, ih]
    cases isRow : laid.row? block with
    | none => rw [List.filterMap_cons_none isRow, absent block isRow]
    | some row => rw [List.filterMap_cons_some isRow, List.foldl_cons, there block row isRow]

/-! ## Bytes -/

theorem relative_eq (laid : LaidCode) (origin : Nat) (branch : Branch Nat Nat Nat) :
    relative laid origin branch = Row.relative origin (branch.renumber laid.offset) := by
  cases branch with
  | tableSwitch padding otherwise low targets =>
    unfold Row.relative Branch.renumber
    simp only [Branch.map, Branch.mapM, List.mapM_map]
    rfl
  | lookupSwitch padding otherwise targets =>
    unfold Row.relative Branch.renumber
    simp only [Branch.map, Branch.mapM, List.mapM_map]
    rfl
  | _ => rfl

theorem encodeBlock_of_some (isRow : laid.row? block = some row) :
    encodeBlock laid block = row.encode := by
  obtain ⟨code, there, rfl⟩ := Option.map_eq_some_iff.1 isRow
  rw [encodeBlock, there]
  dsimp only
  simp only [relative_eq]
  rfl

theorem encodeBlock_of_none (missing : laid.row? block = none) : encodeBlock laid block = .ok [] := by
  rw [row?, Option.map_eq_none_iff] at missing
  rw [encodeBlock, missing]
  rfl

theorem blockWidth_of_some (isRow : laid.row? block = some row) :
    Layout.blockWidth laid.blocks block = row.width := by
  obtain ⟨code, there, rfl⟩ := Option.map_eq_some_iff.1 isRow
  rw [Layout.blockWidth, there]
  exact congrArg (Wide.total _ + ·) (Branch.width_renumber laid.offset code.branch).symm

theorem blockWidth_of_none (missing : laid.row? block = none) :
    Layout.blockWidth laid.blocks block = 0 := by
  rw [row?, Option.map_eq_none_iff] at missing
  rw [Layout.blockWidth, missing]

/-- The bytes of laid out code are those of its rows. -/
theorem each_rows (laid : LaidCode) :
    Encoding.each (encodeBlock laid) laid.order = Encoding.each Row.encode laid.rows := by
  unfold rows
  induction laid.order with
  | nil => rfl
  | cons block order ih =>
    rw [Encoding.each_cons, ih]
    cases isRow : laid.row? block with
    | none =>
      have same : ∀ rest : Except Fault Bytes, ([] ++ ·) <$> rest = rest := fun rest => id_map rest
      rw [List.filterMap_cons_none isRow, encodeBlock_of_none isRow]
      exact same _
    | some row =>
      rw [List.filterMap_cons_some isRow, Encoding.each_cons, encodeBlock_of_some isRow]

theorem length_rows (laid : LaidCode) :
    Layout.length laid.blocks laid.order = Wide.total (laid.rows.map Row.width) := by
  rw [Layout.length_eq_sum, Layout.total_eq_sum]
  unfold rows
  induction laid.order with
  | nil => rfl
  | cons block order ih =>
    rw [List.map_cons, List.sum_cons, ih]
    cases isRow : laid.row? block with
    | none => rw [List.filterMap_cons_none isRow, blockWidth_of_none isRow, Nat.zero_add]
    | some row =>
      rw [List.filterMap_cons_some isRow, List.map_cons, List.sum_cons, blockWidth_of_some isRow]

/-! ## Exceptions -/

theorem liveRuns_rows (alive : ∀ block, laid.isDead block = false) (start stop : Nat) :
    liveRuns laid start stop =
      (laid.rows.foldl (Row.cover start stop) ⟨#[], none⟩).cut.complete.toList := by
  unfold liveRuns
  dsimp only
  rw [foldl_rows]
  · intro block missing runs
    rw [blockWidth_of_none missing, Nat.add_zero, decide_eq_true rfl, Bool.or_true, if_pos rfl]
  · intro block row isRow runs
    have place : laid.offset block = row.offset := by
      obtain ⟨code, -, rfl⟩ := Option.map_eq_some_iff.1 isRow
      rfl
    rw [alive block, if_neg Bool.false_ne_true, blockWidth_of_some isRow, place, Row.cover]
    simp only [Bool.or_eq_true, decide_eq_true_eq, Nat.left_eq_add, or_assoc]

/-- Where no code is dead, the exception table is that of the rows. -/
theorem exceptionTable_rows (alive : ∀ block, laid.isDead block = false) (handlers : List Handler) :
    exceptionTable laid handlers =
      Row.exceptions laid.rows (handlers.map (Handler.renumber laid.offset)) := by
  rw [Row.exceptions, List.flatMap_map]
  refine List.flatMap_congr fun handler _ => ?_
  rw [liveRuns_rows alive]
  rfl

/-! ## Frames -/

/-- What was recorded, with sites as offsets. -/
def Recorded.renumber (number : Nat → Nat) (recorded : Recorded) : Recorded :=
  ⟨recorded.placed.map fun placed => (placed.1, placed.2.renumber number),
    recorded.pending.map (Frame.renumber number)⟩

theorem placeRecorded_of_some (isRow : laid.row? block = some row) (recorded : Recorded) :
    (laid.placeRecorded recorded block).renumber laid.offset =
      Row.place (recorded.renumber laid.offset) row := by
  have width := blockWidth_of_some isRow
  obtain ⟨code, there, rfl⟩ := Option.map_eq_some_iff.1 isRow
  rw [Layout.blockWidth, there] at width
  dsimp only at width
  rw [placeRecorded, there, Row.place]
  dsimp only
  rw [← width, Recorded.renumber, Recorded.renumber, ← Option.map_or]
  split
  · rfl
  · cases code.frame.or recorded.pending with
    | none => rfl
    | some frame =>
      dsimp only
      rw [Array.map_push]
      rfl

theorem placeRecorded_of_none (missing : laid.row? block = none) (recorded : Recorded) :
    laid.placeRecorded recorded block = recorded := by
  rw [row?, Option.map_eq_none_iff] at missing
  rw [placeRecorded, missing]

/-- The frames of laid out code are those of its rows. -/
theorem recordedFrames_rows (laid : LaidCode) :
    laid.recordedFrames.map (fun placed => (placed.1, placed.2.renumber laid.offset)) =
      Row.frames laid.rows := by
  have onward : ∀ recorded : Recorded,
      (laid.order.foldl laid.placeRecorded recorded).renumber laid.offset =
        laid.rows.foldl Row.place (recorded.renumber laid.offset) := by
    unfold rows
    induction laid.order with
    | nil => exact fun _ => rfl
    | cons block order ih =>
      intro recorded
      rw [List.foldl_cons, ih]
      cases isRow : laid.row? block with
      | none => rw [List.filterMap_cons_none isRow, placeRecorded_of_none isRow]
      | some row =>
        rw [List.filterMap_cons_some isRow, List.foldl_cons, placeRecorded_of_some isRow]
  have whole := congrArg (fun recorded => recorded.placed.toList) (onward ⟨#[], none⟩)
  simpa [recordedFrames, Row.frames, Recorded.renumber] using whole

/-- What is true of the frames of all blocks is true of those that were recorded. -/
theorem forall_recordedFrames {Fits : BlockFrame → Prop}
    (fits : ∀ block frame, frameOf? laid.blocks block = some frame → Fits frame) :
    ∀ placed ∈ laid.recordedFrames, Fits placed.2 := by
  intro placed member
  have passes : ∀ block next, laid.PassesOn (fun _ => Fits) block next :=
    fun _ _ _ _ _ fits => fits
  obtain ⟨_, -, -, -, here⟩ := @recordedFrames_fit laid (fun _ => Fits)
    (fun block _ => fits block) (List.pairwise_of_forall passes).isChain placed member
  exact here

end LaidCode

/-! ## Stack maps -/

namespace StackMap

variable {offsets : Array Nat} {offset : Nat → Nat}

/-- The offset of a site, if it can be written. -/
def standing (offset : Nat) : Except Fault Nat :=
  if offset < 65536 then .ok offset else .error (.codeOverflow offset)

/-- A frame as it is compared with, whose sites are offsets. -/
def comparedAt (pool : Pool) (frame : BlockFrame) : Except Fault WrittenFrame :=
  frame.mapM (fun name => return (pool.classOf? name).getD 0) standing

/-- A stack map of frames whose sites are offsets. -/
def ofPlaced (method : MethodContext) (frames : List (Nat × BlockFrame)) :
    Assembler (List StackMapEntry) := do
  let placed ← frames.mapM fun (offset, frame) => return (offset, ← frame.mapM
    (fun name => Assembler.symbol (Pool.addClass name)) fun site => standing site)
  let entry ← comparedAt (← get).pool method.entryFrame
  return (← entriesAfter #[] none entry placed).toList

theorem siteOffset_eq {site : Nat} (stands : offsets[site]? = some (offset site)) :
    siteOffset offsets site = standing (offset site) := by
  rw [siteOffset, stands, standing]

theorem compared_eq (method : MethodContext) (pool : Pool) (offsets : Array Nat) :
    compared pool offsets method.entryFrame = comparedAt pool method.entryFrame := by
  refine Frame.mapM_congr fun site mentions => ?_
  rcases mentions with inside | inside
  · exact absurd rfl (MethodContext.ne_uninitialized_of_mem inside site)
  · cases inside

theorem ofFrames_eq {method : MethodContext} {frames : List (Nat × BlockFrame)}
    (stands : ∀ placed ∈ frames, ∀ site, placed.2.Mentions site →
      offsets[site]? = some (offset site)) :
    ofFrames method offsets frames =
      ofPlaced method (frames.map fun placed => (placed.1, placed.2.renumber offset)) := by
  unfold ofFrames ofPlaced
  simp only [compared_eq]
  rw [List.mapM_map]
  congr 1
  refine mapM_congr_of_mem fun placed member => ?_
  have same : (written offsets placed.2 : Assembler WrittenFrame) =
      (placed.2.renumber offset).mapM (fun name => Assembler.symbol (Pool.addClass name))
        fun site => standing site := by
    rw [Frame.mapM_of_renumber]
    exact Frame.mapM_congr fun site mentions =>
      congrArg liftM (siteOffset_eq (stands placed member site mentions))
  exact congrArg (· >>= fun frame => pure (placed.1, frame)) same

end StackMap

namespace Assembly

/-- Write rows, of which the handlers are given by offsets. -/
def writeRows (method : MethodContext) (limits : Limits) (rows : List Row) (handlers : List Handler) :
    Assembler CodeImage := do
  let length := Wide.total (rows.map Row.width)
  if 65536 ≤ length then throw (.codeOverflow length)
  let bytes ← Encoding.each Row.encode rows
  let attributes ←
    if !(Row.frames rows).isEmpty then
      pure [← stackMapAttribute (← StackMap.ofPlaced method (Row.frames rows))]
    else pure []
  return ⟨limits, bytes, Row.exceptions rows handlers, attributes⟩

/-- Laid out code is written as its rows are. -/
theorem writeOut_eq {method : MethodContext} {limits : Limits} {laid : LaidCode}
    {handlers : List Handler} (alive : ∀ block, laid.isDead block = false)
    (stands : ∀ block frame, frameOf? laid.blocks block = some frame → ∀ site, frame.Mentions site →
      site < laid.offsets.size) :
    writeOut method limits laid handlers laid.recordedFrames =
      writeRows method limits laid.rows (handlers.map (Handler.renumber laid.offset)) := by
  have placed : ∀ placed ∈ laid.recordedFrames, ∀ site, placed.2.Mentions site →
      laid.offsets[site]? = some (laid.offset site) := by
    intro placed member site mentions
    have inside := laid.forall_recordedFrames stands placed member site mentions
    rw [LaidCode.offset, Array.getD_eq_getD_getElem?, Array.getElem?_eq_getElem inside,
      Option.getD_some]
  have some_ : laid.recordedFrames.isEmpty = (Row.frames laid.rows).isEmpty := by
    rw [← LaidCode.recordedFrames_rows, List.isEmpty_map]
  unfold writeOut writeRows
  rw [LaidCode.length_rows, LaidCode.each_rows, LaidCode.exceptionTable_rows alive, some_,
    StackMap.ofFrames_eq placed, LaidCode.recordedFrames_rows]

end Assembly
end ClassFile
