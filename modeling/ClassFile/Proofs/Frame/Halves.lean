import ClassFile.Frame.Transfer

namespace ClassFile

/-!
# The slots of operands

Instructions that rearrange the stack are defined on slots, of which a `long` or
a `double` takes two, and say nothing about values.  Inference keeps operands by
value and picks the form of such an instruction from the widths that it finds.
Here both are put side by side: a form fits the values exactly where moving slots
about leaves every half beside its other half, and then it leaves the same slots.
-/

/-- A slot of the operand stack: a whole value, or one half of a wide one. -/
inductive OperandSlot
  | single (type : BlockType)
  /-- The lower of two slots. -/
  | first (type : BlockType)
  /-- The upper of two slots. -/
  | second (type : BlockType)

namespace OperandSlot

/-- The slots of a value, the top first. -/
def ofType (type : BlockType) : List OperandSlot :=
  if type.width = 2 then [second type, first type] else [single type]

/-- The slots of operands, the top first. -/
def ofStack (stack : List BlockType) : List OperandSlot :=
  stack.flatMap ofType

/-- From the top down, every second half lies on the first half of the same value
and every first half under a second one. -/
inductive Whole : List OperandSlot → Prop
  | nil : Whole []
  | single {type : BlockType} {below : List OperandSlot} :
      Whole below → Whole (single type :: below)
  | halves {type : BlockType} {below : List OperandSlot} :
      Whole below → Whole (second type :: first type :: below)

end OperandSlot

/-- What an instruction does to slots, the top first.  It is missing when there
are too few of them. -/
def Shuffle.onSlots? : Shuffle → List OperandSlot → Option (List OperandSlot)
  | pop, _ :: below => some below
  | pop2, _ :: _ :: below => some below
  | dup, a :: below => some (a :: a :: below)
  | dupX1, a :: b :: below => some (a :: b :: a :: below)
  | dupX2, a :: b :: c :: below => some (a :: b :: c :: a :: below)
  | dup2, a :: b :: below => some (a :: b :: a :: b :: below)
  | dup2X1, a :: b :: c :: below => some (a :: b :: c :: a :: b :: below)
  | dup2X2, a :: b :: c :: d :: below => some (a :: b :: c :: d :: a :: b :: below)
  | swap, a :: b :: below => some (b :: a :: below)
  | _, _ => none

namespace OperandSlot

variable {type : BlockType} {stack result : List BlockType} {slot : OperandSlot}
  {below slots : List OperandSlot}

/-! ## Slots of values -/

@[simp] theorem ofStack_nil : ofStack [] = [] :=
  rfl

theorem ofStack_narrow (narrow : type.width ≠ 2) :
    ofStack (type :: stack) = single type :: ofStack stack := by
  rw [ofStack, List.flatMap_cons, ofType, if_neg narrow]
  rfl

theorem ofStack_wide (wide : type.width = 2) :
    ofStack (type :: stack) = second type :: first type :: ofStack stack := by
  rw [ofStack, List.flatMap_cons, ofType, if_pos wide]
  rfl

@[simp] theorem whole_ofStack (stack : List BlockType) : Whole (ofStack stack) := by
  induction stack with
  | nil => exact .nil
  | cons type stack ih =>
    by_cases wide : type.width = 2
    · rw [ofStack_wide wide]
      exact .halves ih
    · rw [ofStack_narrow wide]
      exact .single ih

@[simp] theorem whole_single : Whole (single type :: below) ↔ Whole below :=
  ⟨fun | .single whole => whole, .single⟩

@[simp] theorem whole_second :
    Whole (second type :: slot :: below) ↔ slot = first type ∧ Whole below := by
  constructor
  · intro whole
    cases whole with
    | halves whole => exact ⟨rfl, whole⟩
  · rintro ⟨rfl, whole⟩
    exact .halves whole

@[simp] theorem not_whole_first : ¬ Whole (first type :: below) :=
  fun whole => nomatch whole

@[simp] theorem not_whole_lone : ¬ Whole [second type] :=
  fun whole => nomatch whole

/-- No value starts with a first half. -/
@[simp] theorem not_whole_second : ¬ Whole (second type :: ofStack stack) := by
  intro whole
  cases stack with
  | nil => cases whole
  | cons other stack =>
    by_cases wide : other.width = 2
    · rw [ofStack_wide wide] at whole
      cases whole
    · rw [ofStack_narrow wide] at whole
      cases whole

theorem isNarrow_iff : Shuffle.isNarrow type = true ↔ type.width ≠ 2 := by
  cases type <;> simp [Shuffle.isNarrow, VerificationType.width]

theorem ofStack_cons (type : BlockType) (stack : List BlockType) :
    ofStack (type :: stack) =
      if Shuffle.isNarrow type then single type :: ofStack stack
      else second type :: first type :: ofStack stack := by
  by_cases wide : type.width = 2
  · rw [ofStack_wide wide, if_neg fun narrow => isNarrow_iff.1 narrow wide]
  · rw [ofStack_narrow wide, if_pos (isNarrow_iff.2 wide)]

/-- Slots tell which values they are of. -/
theorem ofStack_injective (same : ofStack stack = ofStack result) : stack = result := by
  induction stack generalizing result with
  | nil =>
    cases result with
    | nil => rfl
    | cons other result =>
      rw [ofStack_cons] at same
      split at same <;> cases same
  | cons type stack ih =>
    cases result with
    | nil =>
      rw [ofStack_cons] at same
      split at same <;> cases same
    | cons other result =>
      rw [ofStack_cons, ofStack_cons] at same
      split at same <;> split at same <;> injection same with top below
      · rw [ih below, single.inj top]
      · cases top
      · cases top
      · rw [ih (List.cons.inj below).2, second.inj top]

end OperandSlot

namespace Shuffle
open OperandSlot
variable {op : Shuffle} {stack result : List BlockType} {slots : List OperandSlot}

/-- Every form of an instruction moves the slots as the instruction does. -/
theorem onSlots_of_rearrange (run : op.rearrange? stack = some result) :
    op.onSlots? (ofStack stack) = some (ofStack result) := by
  unfold rearrange? at run
  split at run
  all_goals repeat' split at run
  all_goals cases run
  all_goals simp_all [onSlots?, ofStack_cons]

/-- Slots that are whole after the instruction moved them have widths that one of
its forms is for.  Only as many values count as the instruction moves slots. -/
theorem exists_rearrange (moved : op.onSlots? (ofStack stack) = some slots)
    (whole : Whole slots) : ∃ result, op.rearrange? stack = some result := by
  revert slots
  cases op with
  | pop | dup =>
    rcases stack with _ | ⟨a, rest⟩
    · simp [onSlots?]
    · cases widthA : isNarrow a <;> simp [rearrange?, onSlots?, ofStack_cons, widthA]
  | pop2 | dup2 =>
    rcases stack with _ | ⟨a, _ | ⟨b, rest⟩⟩
    · simp [onSlots?]
    · cases widthA : isNarrow a <;> simp [rearrange?, onSlots?, ofStack_cons, widthA]
    · cases widthA : isNarrow a <;> cases widthB : isNarrow b <;>
        simp [rearrange?, onSlots?, ofStack_cons, widthA, widthB]
  | dupX1 | swap =>
    rcases stack with _ | ⟨a, _ | ⟨b, rest⟩⟩
    · simp [onSlots?]
    · cases widthA : isNarrow a <;> simp [onSlots?, ofStack_cons, widthA]
    · cases widthA : isNarrow a <;> cases widthB : isNarrow b <;>
        simp [rearrange?, onSlots?, ofStack_cons, widthA, widthB]
  | dupX2 | dup2X1 =>
    rcases stack with _ | ⟨a, _ | ⟨b, _ | ⟨c, rest⟩⟩⟩
    · simp [onSlots?]
    · cases widthA : isNarrow a <;> simp [onSlots?, ofStack_cons, widthA]
    · cases widthA : isNarrow a <;> cases widthB : isNarrow b <;>
        simp [rearrange?, onSlots?, ofStack_cons, widthA, widthB]
    · cases widthA : isNarrow a <;> cases widthB : isNarrow b <;> cases widthC : isNarrow c <;>
        simp [rearrange?, onSlots?, ofStack_cons, widthA, widthB, widthC]
  | dup2X2 =>
    rcases stack with _ | ⟨a, _ | ⟨b, _ | ⟨c, _ | ⟨d, rest⟩⟩⟩⟩
    · simp [onSlots?]
    · cases widthA : isNarrow a <;> simp [onSlots?, ofStack_cons, widthA]
    · cases widthA : isNarrow a <;> cases widthB : isNarrow b <;>
        simp [rearrange?, onSlots?, ofStack_cons, widthA, widthB]
    · cases widthA : isNarrow a <;> cases widthB : isNarrow b <;> cases widthC : isNarrow c <;>
        simp [rearrange?, onSlots?, ofStack_cons, widthA, widthB, widthC]
    · cases widthA : isNarrow a <;> cases widthB : isNarrow b <;> cases widthC : isNarrow c <;>
        cases widthD : isNarrow d <;>
        simp [rearrange?, onSlots?, ofStack_cons, widthA, widthB, widthC, widthD]

/-- The forms of an instruction together are the instruction on slots, where that
leaves whole values. -/
theorem exists_rearrange_iff : (∃ result, op.rearrange? stack = some result) ↔
    ∃ slots, op.onSlots? (ofStack stack) = some slots ∧ Whole slots := by
  constructor
  · rintro ⟨result, run⟩
    exact ⟨ofStack result, onSlots_of_rearrange run, whole_ofStack result⟩
  · rintro ⟨slots, moved, whole⟩
    exact exists_rearrange moved whole

theorem rearrange_eq_some : op.rearrange? stack = some result ↔
    op.onSlots? (ofStack stack) = some (ofStack result) := by
  constructor
  · exact onSlots_of_rearrange
  · intro moved
    rcases exists_rearrange moved (whole_ofStack result) with ⟨other, run⟩
    rw [run, ofStack_injective (Option.some.inj ((onSlots_of_rearrange run).symm.trans moved))]

end Shuffle

namespace CodeContext

variable (context : CodeContext) (block : Nat) (frame : BlockFrame) (op : Shuffle)

theorem step_shuffle_eq_ok (next : BlockFrame) :
    context.step block frame (.shuffle op) = .ok next ↔
      op.rearrange? frame.stack = some next.stack ∧ next.locals = frame.locals := by
  rw [step]
  cases op.rearrange? frame.stack with
  | none => simp
  | some stack =>
    constructor
    · intro run
      cases run
      exact ⟨rfl, rfl⟩
    · rintro ⟨same, kept⟩
      cases same
      rw [← kept]

/-- An instruction that rearranges the stack succeeds where its action on the
slots of the operands has enough of them and leaves whole values.  The operands
after it are then the ones with those slots, and the locals are as before. -/
theorem step_shuffle_on_slots :
    ((∃ next, context.step block frame (.shuffle op) = .ok next) ↔
      ∃ slots, op.onSlots? (OperandSlot.ofStack frame.stack) = some slots ∧
        OperandSlot.Whole slots) ∧
    ∀ next, context.step block frame (.shuffle op) = .ok next ↔
      op.onSlots? (OperandSlot.ofStack frame.stack) = some (OperandSlot.ofStack next.stack) ∧
        next.locals = frame.locals := by
  simp only [step_shuffle_eq_ok, ← Shuffle.exists_rearrange_iff, ← Shuffle.rearrange_eq_some,
    implies_true, and_true]
  constructor
  · rintro ⟨next, run, -⟩
    exact ⟨next.stack, run⟩
  · rintro ⟨result, run⟩
    exact ⟨⟨frame.locals, result⟩, run, rfl⟩

end CodeContext
end ClassFile
