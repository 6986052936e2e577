import ClassFile.Proofs.Code.Rows

namespace ClassFile

/-!
# A row in two

A row can be written as two, one behind the other: the first half has the frame and falls
into the second one, which has the branch.  The bytes are the same, the one frame is placed
where it was, and a run of code that covers one half covers both, as long as it neither
begins nor ends between them.
-/

theorem Encoding.each_append {α : Type} (one : α → Except Fault Bytes) (front back : List α) :
    each one (front ++ back) = each one front >>= fun bytes => (bytes ++ ·) <$> each one back := by
  induction front with
  | nil => exact (id_map (each one back)).symm
  | cons part front ih =>
    rw [List.cons_append, each_cons, each_cons, ih, bind_assoc]
    refine bind_congr fun bytes => ?_
    rw [map_bind, bind_map_left]
    refine bind_congr fun more => ?_
    rw [Functor.map_map]
    exact congrArg (· <$> each one back) (funext fun _ => (List.append_assoc _ _ _).symm)

open Assembly

/-- A run that was prolonged is prolonged once more. -/
theorem Assembly.LiveRuns.add_add (runs : LiveRuns) (start middle stop : Nat) :
    (runs.add start middle).add middle stop = runs.add start stop := by
  rcases runs with ⟨complete, _ | ⟨first, last⟩⟩
  · exact if_pos rfl
  · have prolonged : ∀ stop, add ⟨complete, some (first, last)⟩ start stop =
        if last = start then ⟨complete, some (first, stop)⟩
        else ⟨complete.push (first, last), some (start, stop)⟩ := fun _ => rfl
    rw [prolonged, prolonged]
    split
    · exact if_pos rfl
    · exact if_pos rfl

namespace Row

/-- A row, and the two that it becomes when it is cut behind some of its instructions. -/
inductive Halves : Row → Row → Row → Prop
  | mk (offset : Nat) (frame : Option BlockFrame) (head tail : List Instruction)
      (branch : Branch Nat Nat Nat) (some_ : 0 < Wide.total head) :
      Halves ⟨offset, frame, head ++ tail, branch⟩
        ⟨offset, frame, head, .fallThrough (offset + Wide.total head)⟩
        ⟨offset + Wide.total head, none, tail, branch⟩

/-- An offset is not between the ends of a row. -/
def Spares (row : Row) (offset : Nat) : Prop :=
  offset ≤ row.offset ∨ row.offset + row.width ≤ offset

variable {whole first second : Row} (halves : Halves whole first second)
include halves

theorem Halves.width : whole.width = first.width + second.width := by
  cases halves with
  | mk offset frame head tail branch =>
    unfold Row.width
    dsimp only
    rw [Wide.total_append, Branch.width, Nat.add_zero, Nat.add_assoc]

omit halves in
/-- A row that falls into the next one is written as its instructions. -/
theorem encode_fallThrough (offset next : Nat) (frame : Option BlockFrame)
    (instructions : List Instruction) : encode ⟨offset, frame, instructions, .fallThrough next⟩ =
      Encoding.each Instruction.encode instructions := by
  have ends : ∀ bytes : Bytes, (pure (bytes ++ []) : Except Fault Bytes) = pure bytes :=
    fun bytes => congrArg pure (List.append_nil bytes)
  exact (bind_congr ends).trans (bind_pure _)

theorem Halves.encode : whole.encode =
    first.encode >>= fun bytes => (bytes ++ ·) <$> second.encode := by
  cases halves with
  | mk offset frame head tail branch =>
    have origin : offset + Wide.total (head ++ tail) = offset + Wide.total head + Wide.total tail := by
      rw [Wide.total_append, Nat.add_assoc]
    rw [encode_fallThrough]
    unfold Row.encode
    dsimp only
    rw [Encoding.each_append, origin, bind_assoc]
    refine bind_congr fun bytes => ?_
    rw [bind_map_left, map_bind]
    refine bind_congr fun more => ?_
    rw [map_bind]
    refine bind_congr fun branch => ?_
    rw [map_bind]
    exact bind_congr fun last => congrArg pure (List.append_assoc _ _ _)

/-- The second half has no frame of its own, and the first one lets none pass. -/
theorem Halves.place (recorded : LaidCode.Recorded) :
    Row.place (Row.place recorded first) second = Row.place recorded whole := by
  have width := halves.width
  cases halves with
  | mk offset frame head tail branch some_ =>
    have first : 0 < Row.width ⟨offset, frame, head, .fallThrough (offset + Wide.total head)⟩ :=
      Nat.lt_of_lt_of_le some_ (Nat.le_add_right _ _)
    rw [Row.place, Row.place, Row.place, if_neg (Nat.ne_of_gt first),
      if_neg (by omega : ¬Row.width ⟨offset, frame, head ++ tail, branch⟩ = 0)]
    dsimp only
    split <;> rfl

/-- A run that begins and ends elsewhere goes over both halves or over none. -/
theorem Halves.cover {start stop : Nat} (spares : whole.Spares start) (spares' : whole.Spares stop)
    (runs : LiveRuns) : Row.cover start stop (Row.cover start stop runs first) second =
      Row.cover start stop runs whole := by
  have width := halves.width
  obtain ⟨place, place', some_⟩ : first.offset = whole.offset ∧
      second.offset = whole.offset + first.width ∧ 0 < first.width := by
    cases halves with
    | mk offset frame head tail branch some_ => exact ⟨rfl, rfl, some_⟩
  unfold Spares at spares spares'
  unfold Row.cover
  rw [place, place']
  by_cases outside : whole.offset < start ∨ stop < whole.offset + whole.width
  · rw [if_pos (by omega), if_pos (by omega), if_pos (by omega)]
  · rw [if_neg (by omega : ¬(whole.offset < start ∨ stop < whole.offset + first.width ∨ first.width = 0)),
      if_neg (by omega : ¬(whole.offset < start ∨ stop < whole.offset + whole.width ∨ whole.width = 0)),
      width]
    by_cases empty : second.width = 0
    · rw [if_pos (.inr (.inr empty)), empty]
      rfl
    · rw [if_neg (by omega), LiveRuns.add_add, Nat.add_assoc]

end Row

namespace Assembly

variable {whole first second : Row} (halves : Row.Halves whole first second) (front back : List Row)
include halves

theorem frames_halves : Row.frames (front ++ first :: second :: back) =
    Row.frames (front ++ whole :: back) := by
  rw [Row.frames, Row.frames, List.foldl_append, List.foldl_append, List.foldl_cons, List.foldl_cons,
    List.foldl_cons, halves.place]

theorem exceptions_halves {handlers : List Handler}
    (spares : ∀ handler ∈ handlers, whole.Spares handler.start ∧ whole.Spares handler.stop) :
    Row.exceptions (front ++ first :: second :: back) handlers =
      Row.exceptions (front ++ whole :: back) handlers := by
  refine List.flatMap_congr fun handler member => ?_
  rw [List.foldl_append, List.foldl_append, List.foldl_cons, List.foldl_cons, List.foldl_cons,
    halves.cover (spares handler member).1 (spares handler member).2]

theorem each_halves : Encoding.each Row.encode (front ++ first :: second :: back) =
    Encoding.each Row.encode (front ++ whole :: back) := by
  have here : Encoding.each Row.encode (first :: second :: back) =
      Encoding.each Row.encode (whole :: back) := by
    rw [Encoding.each_cons, Encoding.each_cons, Encoding.each_cons, halves.encode, bind_assoc]
    refine bind_congr fun bytes => ?_
    rw [map_bind, bind_map_left]
    refine bind_congr fun more => ?_
    rw [Functor.map_map]
    exact congrArg (· <$> Encoding.each Row.encode back)
      (funext fun _ => (List.append_assoc _ _ _).symm)
  rw [Encoding.each_append, Encoding.each_append, here]

theorem total_halves : Wide.total ((front ++ first :: second :: back).map Row.width) =
    Wide.total ((front ++ whole :: back).map Row.width) := by
  rw [List.map_append, List.map_append, Wide.total_append, Wide.total_append, List.map_cons,
    List.map_cons, List.map_cons, Wide.total_cons, Wide.total_cons, Wide.total_cons, halves.width]
  exact congrArg _ (Nat.add_assoc first.width second.width _).symm

/-- A row is written as its halves are. -/
theorem writeRows_halves (method : MethodContext) (limits : Limits) {handlers : List Handler}
    (spares : ∀ handler ∈ handlers, whole.Spares handler.start ∧ whole.Spares handler.stop) :
    writeRows method limits (front ++ first :: second :: back) handlers =
      writeRows method limits (front ++ whole :: back) handlers := by
  unfold writeRows
  rw [total_halves halves, each_halves halves, frames_halves halves,
    exceptions_halves halves front back spares]

end Assembly
end ClassFile
