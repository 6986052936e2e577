import ClassFile.Code.StackEffect
import ClassFile.Proofs.Frame.Effects
import ClassFile.Proofs.Frame.Worklist
import ClassFile.Proofs.Layout

namespace ClassFile

/-!
# Heights of inferred frames

Inference counts operands by value, and the table of stack effects counts slots.
The two agree on every instruction whose operands have the widths that it is for,
which is what `Fits` asks of a frame.  Nothing here depends on what types stand
for, so it holds whatever is known of classes.
-/

/-! ## What instructions are for -/

namespace Instruction

/-- Slots of the operands that an instruction is for, the top first.  Those that
rearrange the stack look at the slots themselves. -/
def operandWidths (pool : Pool) : Instruction → Except Fault (List Nat)
  | store kind _ => .ok [kind.width]
  | arrayLoad _ => .ok [1, 1]
  | arrayStore kind => .ok [kind.width, 1, 1]
  | arithmetic _ kind => .ok [kind.width, kind.width]
  | bitwise _ kind => .ok [kind.width, kind.width]
  | shift _ kind => .ok [1, kind.width]
  | negate kind => .ok [kind.width]
  | convert conversion => .ok [conversion.source.width]
  | compareLongs | compareDoubles _ => .ok [2, 2]
  | compareFloats _ => .ok [1, 1]
  | accessField .putStatic field => return [← pool.fieldWidth field]
  | accessField .getField _ => .ok [1]
  | accessField .putField field => return [← pool.fieldWidth field, 1]
  | invoke mode method => do
    let descriptor ← MethodDescriptor.parse (← pool.member method).descriptor
    return (descriptor.parameters.map FieldType.width).reverse ++
      List.replicate mode.hasReceiver.toNat 1
  | invokeDynamic callSite => do
    let descriptor ← MethodDescriptor.parse (← pool.dynamicSignature callSite).descriptor
    return (descriptor.parameters.map FieldType.width).reverse
  | withClass .newArray _ | withClass .checkCast _ | withClass .instanceOf _ => .ok [1]
  | newArray _ | arrayLength | monitorEnter | monitorExit => .ok [1]
  | newMultiArray _ dimensions => .ok (List.replicate dimensions.toNat 1)
  | _ => .ok []

end Instruction

/-- Slots of the operands that a branch is for, the top first. -/
def Branch.operandWidths {σ ω ν : Type} : Branch σ ω ν → List Nat
  | .conditional (.zero _) _ _ | .conditional (.null _) _ _ => [1]
  | .conditional (.ints _) _ _ | .conditional (.references _) _ _ => [1, 1]
  | .tableSwitch .. | .lookupSwitch .. => [1]
  | .returns (some kind) => [kind.width]
  | .throws => [1]
  | _ => []

namespace Frame

/-- Slots of the operands, the top first. -/
def widths (frame : BlockFrame) : List Nat :=
  frame.stack.map VerificationType.width

/-- The operands at the top have the widths that an instruction is for, and what
it loads as a reference takes one slot. -/
structure Fits (pool : Pool) (frame : BlockFrame) (instruction : Instruction) : Prop where
  operands : ∀ widths, instruction.operandWidths pool = .ok widths → widths <+: frame.widths
  reference : ∀ slot type, instruction = .load .reference slot →
    frame.locals[slot.toNat]? = some type → type.width = 1

end Frame

/-! ## Pushing and dropping -/

section

variable {frame out : BlockFrame} {type : BlockType} {site : UnderflowSite} {widths more : List Nat}

theorem Frame.height_eq (frame : BlockFrame) : frame.height = frame.widths.sum := by
  rw [Frame.height, Frame.widths]
  induction frame.stack with
  | nil => rfl
  | cons type rest ih =>
    rw [Wide.total_cons, ih, List.map_cons, List.sum_cons]
    rfl

@[simp] theorem Frame.height_push (frame : BlockFrame) (type : BlockType) :
    (frame.push type).height = type.width + frame.height :=
  Wide.total_cons type frame.stack

theorem Frame.height_of_stack {frame out : BlockFrame} (same : out.stack = frame.stack) :
    out.height = frame.height :=
  congrArg Wide.total same

theorem Frame.height_drop (fits : widths ++ more <+: frame.widths)
    (run : frame.drop widths.length site = .ok out) :
    out.height + widths.sum = frame.height ∧ more <+: out.widths := by
  rw [Frame.drop] at run
  split at run
  · obtain rfl := Except.ok.inj run
    obtain ⟨rest, whole⟩ := fits
    have dropped : Frame.widths { frame with stack := frame.stack.drop widths.length } =
        more ++ rest := by
      rw [Frame.widths, List.map_drop, ← Frame.widths, ← whole, List.append_assoc, List.drop_left]
    rw [Frame.height_eq, Frame.height_eq, dropped, ← whole]
    refine ⟨?_, List.prefix_append more rest⟩
    rw [List.append_assoc, List.sum_append, List.sum_append, List.sum_append]
    omega
  · cases run

/-- Dropping all operands of an instruction. -/
theorem Frame.height_dropAll (fits : widths <+: frame.widths)
    (run : frame.drop widths.length site = .ok out) : out.height + widths.sum = frame.height := by
  have whole : widths ++ [] <+: frame.widths := by rwa [List.append_nil]
  exact (Frame.height_drop whole run).1

theorem Frame.height_pop (run : frame.pop site = .ok (type, out)) :
    frame.height = type.width + out.height ∧ frame.widths = type.width :: out.widths := by
  rw [Frame.pop] at run
  split at run
  · next first rest there =>
    obtain ⟨rfl, rfl⟩ := Prod.mk.inj (Except.ok.inj run)
    rw [Frame.height, there, Wide.total_cons, Frame.widths, there]
    exact ⟨rfl, rfl⟩
  · cases run

/-- Operands stay as wide when one type is replaced by another of its width. -/
theorem Frame.widths_replace {old new : BlockType} (same : new.width = old.width) :
    (frame.replace old new).widths = frame.widths := by
  rw [Frame.widths, Frame.replace, Frame.widths, List.map_map]
  refine List.map_congr_left fun type _ => ?_
  rw [Function.comp_apply]
  split
  · next here => rw [here, same]
  · rfl

/-! ## Widths of types -/

@[simp] theorem width_ofFieldType (type : FieldType) :
    (VerificationType.ofFieldType type : BlockType).width = type.width := by
  cases type with
  | base type => cases type <;> rfl
  | object name => rfl
  | array element => rfl

@[simp] theorem NumericKind.width_type (kind : NumericKind) : kind.type.width = kind.width := by
  cases kind <;> rfl

@[simp] theorem IntegralKind.width_type (kind : IntegralKind) : kind.type.width = kind.width := by
  cases kind <;> rfl

theorem width_elementType (type : BlockType) : (CodeContext.elementType type).width = 1 := by
  unfold CodeContext.elementType
  split
  · rfl
  · cases found : type.arrayElement? with
    | none => rfl
    | some element =>
      obtain ⟨name, inner, -, -, reference, rfl⟩ := VerificationType.arrayElement?_eq_some found
      rw [Option.getD_some, width_ofFieldType]
      cases inner with
      | base => cases reference
      | object | array => rfl

theorem Shuffle.width_eq (type : BlockType) :
    Wide.width type = if isNarrow type then 1 else 2 := by
  cases type <;> rfl

/-- Rearranging takes and leaves the slots that it is said to, however they are
shared out among values. -/
theorem Shuffle.total_rearrange {op : Shuffle} {stack rearranged : List BlockType}
    (run : op.rearrange? stack = some rearranged) :
    Wide.total rearranged + op.effect.pops = Wide.total stack + op.effect.pushes := by
  revert run
  fun_cases rearrange? op stack <;> intro run <;> cases run <;>
    simp_all only [effect, Wide.total_cons, Shuffle.width_eq, Bool.and_eq_true, if_true,
      Bool.false_eq_true, if_false] <;> omega

/-! ## Instructions -/

/-- The height of the stack changes by an effect. -/
def Frame.Changes (frame : BlockFrame) (effect : StackEffect) (out : BlockFrame) : Prop :=
  out.height + effect.pops = frame.height + effect.pushes

theorem Frame.changes_push (frame : BlockFrame) (type : BlockType) :
    frame.Changes ⟨0, type.width⟩ (frame.push type) := by
  rw [Frame.Changes, Frame.height_push, Nat.add_zero, Nat.add_comm]

theorem Frame.changes_drop (fits : widths <+: frame.widths)
    (run : frame.drop widths.length site = .ok out) : frame.Changes ⟨widths.sum, 0⟩ out :=
  Frame.height_dropAll fits run

theorem Frame.changes_replace {dropped : BlockFrame} (fits : widths <+: frame.widths)
    (run : frame.drop widths.length site = .ok dropped) (type : BlockType) :
    frame.Changes ⟨widths.sum, type.width⟩ (dropped.push type) := by
  have height := Frame.height_dropAll fits run
  rw [Frame.Changes, Frame.height_push]
  dsimp only
  omega

theorem Frame.changes_dropPush (fits : widths <+: frame.widths)
    (run : (do return (← frame.drop widths.length site).push type) = Except.ok out) :
    frame.Changes ⟨widths.sum, type.width⟩ out := by
  obtain ⟨dropped, isDropped, run⟩ := bind_eq_ok.1 run
  obtain rfl := pure_eq_ok.1 run
  exact Frame.changes_replace fits isDropped type

theorem CodeContext.height_pushResult (frame : BlockFrame) (descriptor : MethodDescriptor) :
    (pushResult frame descriptor.result).height = frame.height + descriptor.resultWidth := by
  rw [MethodDescriptor.resultWidth]
  cases descriptor.result with
  | none => rfl
  | some type =>
    rw [pushResult, Frame.height_push, width_ofFieldType, Nat.add_comm]
    rfl

variable {context : CodeContext}

/-- Only an object that has no constructor call behind it is replaced, by one as
wide. -/
theorem CodeContext.width_of_initializedClass {cls : String}
    (found : context.initializedClass type = .ok (some cls)) : type.width = 1 := by
  cases type with
  | uninitializedThis | uninitialized => rfl
  | _ => cases found

theorem CodeContext.height_callReceiver {mode : InvokeMode} {name : String}
    (fits : List.replicate mode.hasReceiver.toNat 1 <+: frame.widths)
    (run : context.callReceiver mode name site frame = .ok out) :
    out.height + mode.hasReceiver.toNat = frame.height := by
  unfold callReceiver at run
  by_cases static : mode = .static
  · rw [if_pos static] at run
    obtain rfl := pure_eq_ok.1 run
    rw [static]
    rfl
  · rw [if_neg static] at run
    have has : mode.hasReceiver = true := by
      cases mode <;> first | rfl | exact absurd rfl static
    obtain ⟨⟨receiver, popped⟩, isPopped, run⟩ := bind_eq_ok.1 run
    obtain ⟨height, isWidths⟩ := Frame.height_pop isPopped
    rw [has, isWidths] at fits
    have narrow : receiver.width = 1 := ((List.cons_prefix_cons.1 fits).1).symm
    have same : out.height = popped.height := by
      dsimp only at run
      split at run
      · obtain ⟨cls?, found, run⟩ := bind_eq_ok.1 run
        cases cls? with
        | some cls =>
          obtain rfl := pure_eq_ok.1 run
          rw [Frame.height_eq, Frame.widths_replace, ← Frame.height_eq]
          exact (width_of_initializedClass found).symm
        | none => rw [pure_eq_ok.1 run]
      · rw [pure_eq_ok.1 run]
    rw [same, height, narrow, has, Nat.add_comm]
    rfl

theorem CodeContext.width_constantType {index : PoolIndex} {width : Nat}
    (found : context.pool.constantWidth index = .ok width)
    (typed : context.constantType index = .ok type) : type.width = width := by
  obtain ⟨constant, isConstant, found⟩ := bind_eq_ok.1 found
  obtain ⟨other, isOther, typed⟩ := bind_eq_ok.1 typed
  obtain rfl := Except.ok.inj (isConstant.symm.trans isOther)
  cases constant with
  | dynamic =>
    obtain ⟨signature, isSignature, found⟩ := bind_eq_ok.1 found
    obtain ⟨other, isOther, typed⟩ := bind_eq_ok.1 typed
    obtain rfl := Except.ok.inj (isSignature.symm.trans isOther)
    obtain ⟨parsed, isParsed, found⟩ := bind_eq_ok.1 found
    obtain ⟨other, isOther, typed⟩ := bind_eq_ok.1 typed
    obtain rfl := Except.ok.inj (isParsed.symm.trans isOther)
    rw [← pure_eq_ok.1 found, ← pure_eq_ok.1 typed, width_ofFieldType]
  | integer | float | long | double | string | cls | methodType | methodHandle =>
    rw [← pure_eq_ok.1 found, ← pure_eq_ok.1 typed]
    rfl
  | _ => cases typed

theorem CodeContext.width_fieldType {field : PoolIndex} {width : Nat}
    (found : context.pool.fieldWidth field = .ok width)
    (typed : context.fieldType field = .ok type) : type.width = width := by
  obtain ⟨member, isMember, found⟩ := bind_eq_ok.1 found
  obtain ⟨other, isOther, typed⟩ := bind_eq_ok.1 typed
  obtain rfl := Except.ok.inj (isMember.symm.trans isOther)
  obtain ⟨parsed, isParsed, found⟩ := bind_eq_ok.1 found
  obtain ⟨other, isOther, typed⟩ := bind_eq_ok.1 typed
  obtain rfl := Except.ok.inj (isParsed.symm.trans isOther)
  rw [← pure_eq_ok.1 found, ← pure_eq_ok.1 typed, width_ofFieldType]

theorem sum_parameters (descriptor : MethodDescriptor) :
    (descriptor.parameters.map FieldType.width).reverse.sum =
      Wide.total descriptor.parameters := by
  rw [List.sum_reverse]
  induction descriptor.parameters with
  | nil => rfl
  | cons type rest ih =>
    rw [List.map_cons, List.sum_cons, ih, Wide.total_cons]
    rfl

end

section

variable {context : CodeContext} {block : Nat} {frame out : BlockFrame} {effect : StackEffect}

/-- Field accesses change the height of the stack by their effect. -/
theorem CodeContext.step_changes_field {access : FieldAccess} {field : PoolIndex}
    (fits : frame.Fits context.pool (.accessField access field))
    (counted : (Instruction.accessField access field).stackEffect context.pool = .ok effect)
    (run : context.step block frame (.accessField access field) = .ok out) :
    frame.Changes effect out := by
  obtain ⟨width, found, same⟩ := bind_eq_ok.1 counted
  obtain rfl := pure_eq_ok.1 same
  cases access with
  | getStatic =>
    obtain ⟨type, typed, pushed⟩ := bind_eq_ok.1 run
    obtain rfl := pure_eq_ok.1 pushed
    rw [← width_fieldType found typed]
    exact frame.changes_push type
  | putStatic => exact Frame.changes_drop (fits.operands [width] (bind_eq_ok.2 ⟨width, found, rfl⟩)) run
  | getField =>
    obtain ⟨dropped, isDropped, run⟩ := bind_eq_ok.1 run
    obtain ⟨type, typed, pushed⟩ := bind_eq_ok.1 run
    obtain rfl := pure_eq_ok.1 pushed
    rw [← width_fieldType found typed]
    exact Frame.changes_replace (fits.operands [1] rfl) isDropped type
  | putField =>
    have dropped := Frame.changes_drop
      (fits.operands [width, 1] (bind_eq_ok.2 ⟨width, found, rfl⟩)) run
    rw [List.sum_cons, List.sum_singleton, Nat.add_comm] at dropped
    exact dropped

theorem CodeContext.step_changes_invoke {mode : InvokeMode} {method : PoolIndex}
    (fits : frame.Fits context.pool (.invoke mode method))
    (counted : (Instruction.invoke mode method).stackEffect context.pool = .ok effect)
    (run : context.step block frame (.invoke mode method) = .ok out) :
    frame.Changes effect out := by
  obtain ⟨member, isMember, counted⟩ := bind_eq_ok.1 counted
  obtain ⟨descriptor, isDescriptor, counted⟩ := bind_eq_ok.1 counted
  obtain rfl := pure_eq_ok.1 counted
  obtain ⟨other, isOther, run⟩ := bind_eq_ok.1 run
  obtain rfl := Except.ok.inj (isMember.symm.trans isOther)
  obtain ⟨other, isOther, run⟩ := bind_eq_ok.1 run
  obtain rfl := Except.ok.inj (isDescriptor.symm.trans isOther)
  obtain ⟨dropped, isDropped, run⟩ := bind_eq_ok.1 run
  obtain ⟨called, isCalled, run⟩ := bind_eq_ok.1 run
  obtain rfl := pure_eq_ok.1 run
  have operands := fits.operands _ (bind_eq_ok.2 ⟨_, isMember, bind_eq_ok.2 ⟨_, isDescriptor, rfl⟩⟩)
  have count : descriptor.parameters.length =
      (descriptor.parameters.map FieldType.width).reverse.length := by simp
  rw [count] at isDropped
  obtain ⟨arguments, receiver⟩ := Frame.height_drop operands isDropped
  have called := height_callReceiver receiver isCalled
  rw [Frame.Changes, height_pushResult, MethodDescriptor.parameterWidth, ← sum_parameters]
  dsimp only
  omega

theorem CodeContext.step_changes_invokeDynamic {callSite : PoolIndex}
    (fits : frame.Fits context.pool (.invokeDynamic callSite))
    (counted : (Instruction.invokeDynamic callSite).stackEffect context.pool = .ok effect)
    (run : context.step block frame (.invokeDynamic callSite) = .ok out) :
    frame.Changes effect out := by
  obtain ⟨signature, isSignature, counted⟩ := bind_eq_ok.1 counted
  obtain ⟨descriptor, isDescriptor, counted⟩ := bind_eq_ok.1 counted
  obtain rfl := pure_eq_ok.1 counted
  obtain ⟨other, isOther, run⟩ := bind_eq_ok.1 run
  obtain rfl := Except.ok.inj (isSignature.symm.trans isOther)
  obtain ⟨other, isOther, run⟩ := bind_eq_ok.1 run
  obtain rfl := Except.ok.inj (isDescriptor.symm.trans isOther)
  obtain ⟨dropped, isDropped, run⟩ := bind_eq_ok.1 run
  obtain rfl := pure_eq_ok.1 run
  have operands := fits.operands _
    (bind_eq_ok.2 ⟨_, isSignature, bind_eq_ok.2 ⟨_, isDescriptor, rfl⟩⟩)
  have count : descriptor.parameters.length =
      (descriptor.parameters.map FieldType.width).reverse.length := by simp
  rw [count] at isDropped
  have arguments := Frame.height_dropAll operands isDropped
  rw [Frame.Changes, height_pushResult, MethodDescriptor.parameterWidth, ← sum_parameters]
  dsimp only
  rw [Bool.toNat_false]
  omega

/-- What is loaded from a variable is as wide as its kind says. -/
theorem CodeContext.step_changes_load {kind : ValueKind} {slot : UInt16}
    (fits : frame.Fits context.pool (.load kind slot))
    (counted : (Instruction.load kind slot).stackEffect context.pool = .ok effect)
    (run : context.step block frame (.load kind slot) = .ok out) : frame.Changes effect out := by
  obtain rfl := Except.ok.inj counted
  cases kind with
  | reference =>
    obtain ⟨type, loaded, pushed⟩ := bind_eq_ok.1 run
    obtain rfl := pure_eq_ok.1 pushed
    have changes := frame.changes_push type
    rwa [fits.reference slot type rfl (Frame.local_eq_ok_iff.1 loaded)] at changes
  | int | long | float | double =>
    obtain rfl := Except.ok.inj run
    exact frame.changes_push _

theorem CodeContext.step_changes_store {kind : ValueKind} {slot : UInt16}
    (fits : frame.Fits context.pool (.store kind slot))
    (counted : (Instruction.store kind slot).stackEffect context.pool = .ok effect)
    (run : context.step block frame (.store kind slot) = .ok out) : frame.Changes effect out := by
  obtain rfl := Except.ok.inj counted
  obtain ⟨⟨type, popped⟩, isPopped, stored⟩ := bind_eq_ok.1 run
  obtain ⟨height, widths⟩ := Frame.height_pop isPopped
  have taken := fits.operands _ rfl
  rw [widths] at taken
  have width : kind.width = type.width := (List.cons_prefix_cons.1 taken).1
  rw [Frame.Changes, Frame.height_of_stack (Frame.storeLocal_stack stored), height, width,
    Nat.add_comm, Nat.add_zero]

/-- The element of an array of references is told by the array, which is popped for
this after the index. -/
theorem CodeContext.step_changes_arrayLoad {kind : ElementKind}
    (fits : frame.Fits context.pool (.arrayLoad kind))
    (counted : (Instruction.arrayLoad kind).stackEffect context.pool = .ok effect)
    (run : context.step block frame (.arrayLoad kind) = .ok out) : frame.Changes effect out := by
  obtain rfl := Except.ok.inj counted
  cases kind with
  | reference =>
    obtain ⟨dropped, isDropped, run⟩ := bind_eq_ok.1 run
    obtain ⟨⟨array, popped⟩, isPopped, run⟩ := bind_eq_ok.1 run
    obtain rfl := pure_eq_ok.1 run
    have both : [1] ++ [1] <+: frame.widths := fits.operands _ rfl
    obtain ⟨height, left⟩ := Frame.height_drop both isDropped
    obtain ⟨height', isWidths⟩ := Frame.height_pop isPopped
    rw [isWidths] at left
    have narrow : 1 = array.width := (List.cons_prefix_cons.1 left).1
    rw [List.sum_singleton] at height
    have changes := popped.changes_push (elementType array)
    rw [width_elementType] at changes
    change _ + 2 = _ + 1
    change _ + 0 = _ + 1 at changes
    omega
  | _ => exact Frame.changes_dropPush (fits.operands _ rfl) run

/-- A class is made, or what is on the stack becomes something of this class. -/
theorem CodeContext.step_changes_withClass {op : ClassOp} {cls : PoolIndex}
    (fits : frame.Fits context.pool (.withClass op cls))
    (counted : (Instruction.withClass op cls).stackEffect context.pool = .ok effect)
    (run : context.step block frame (.withClass op cls) = .ok out) :
    frame.Changes effect out := by
  obtain rfl := Except.ok.inj counted
  have operands := fits.operands
  cases op with
  | new =>
    obtain rfl := Except.ok.inj run
    exact frame.changes_push _
  | newArray =>
    obtain ⟨dropped, isDropped, run⟩ := bind_eq_ok.1 run
    obtain ⟨name, -, run⟩ := bind_eq_ok.1 run
    obtain ⟨element, -, run⟩ := bind_eq_ok.1 run
    obtain rfl := pure_eq_ok.1 run
    exact Frame.changes_replace (operands [1] rfl) isDropped _
  | checkCast =>
    obtain ⟨dropped, isDropped, run⟩ := bind_eq_ok.1 run
    obtain ⟨name, -, run⟩ := bind_eq_ok.1 run
    obtain rfl := pure_eq_ok.1 run
    exact Frame.changes_replace (operands [1] rfl) isDropped _
  | instanceOf => exact Frame.changes_dropPush (operands [1] rfl) run

/-- A multi-dimensional array takes one length for each of its dimensions. -/
theorem CodeContext.step_changes_newMultiArray {cls : PoolIndex} {dimensions : UInt8}
    (fits : frame.Fits context.pool (.newMultiArray cls dimensions))
    (counted : (Instruction.newMultiArray cls dimensions).stackEffect context.pool = .ok effect)
    (run : context.step block frame (.newMultiArray cls dimensions) = .ok out) :
    frame.Changes effect out := by
  obtain rfl := Except.ok.inj counted
  obtain ⟨dropped, isDropped, run⟩ := bind_eq_ok.1 run
  obtain ⟨name, -, run⟩ := bind_eq_ok.1 run
  obtain rfl := pure_eq_ok.1 run
  rw [← List.length_replicate (n := dimensions.toNat) (a := 1)] at isDropped
  have changes := Frame.changes_replace (fits.operands _ rfl) isDropped (.object name)
  rwa [List.sum_replicate_nat, Nat.mul_one] at changes

/-- An instruction changes the height of the stack by its effect. -/
theorem CodeContext.step_changes {instruction : Instruction}
    (fits : frame.Fits context.pool instruction)
    (counted : instruction.stackEffect context.pool = .ok effect)
    (run : context.step block frame instruction = .ok out) : frame.Changes effect out := by
  have operands := fits.operands
  cases instruction with
  | nop =>
    obtain rfl := Except.ok.inj counted
    obtain rfl := Except.ok.inj run
    rfl
  | increment slot amount =>
    obtain rfl := Except.ok.inj counted
    obtain ⟨type, -, run⟩ := bind_eq_ok.1 run
    obtain rfl := pure_eq_ok.1 run
    rfl
  | pushNull | pushInt | pushFloat | pushByte | pushShort | pushLong | pushDouble =>
    obtain rfl := Except.ok.inj counted
    obtain rfl := Except.ok.inj run
    exact frame.changes_push _
  | loadConstant index | loadWideConstant index =>
    obtain ⟨width, found, same⟩ := bind_eq_ok.1 counted
    obtain rfl := pure_eq_ok.1 same
    obtain ⟨type, typed, pushed⟩ := bind_eq_ok.1 run
    obtain rfl := pure_eq_ok.1 pushed
    rw [← width_constantType found typed]
    exact frame.changes_push type
  | load kind slot => exact step_changes_load fits counted run
  | store kind slot => exact step_changes_store fits counted run
  | arrayLoad kind => exact step_changes_arrayLoad fits counted run
  | arrayStore kind =>
    obtain rfl := Except.ok.inj counted
    cases kind <;> exact Frame.changes_drop (operands _ rfl) run
  | shuffle op =>
    obtain rfl := Except.ok.inj counted
    simp only [step] at run
    split at run
    · next stack rearranged =>
      obtain rfl := Except.ok.inj run
      exact Shuffle.total_rearrange rearranged
    · cases run
  | arithmetic op kind | bitwise op kind | shift op kind | negate kind | convert kind =>
    obtain rfl := Except.ok.inj counted
    cases kind <;> exact Frame.changes_dropPush (operands _ rfl) run
  | compareLongs | compareFloats | compareDoubles | newArray | arrayLength =>
    obtain rfl := Except.ok.inj counted
    exact Frame.changes_dropPush (operands _ rfl) run
  | accessField access field => exact step_changes_field fits counted run
  | invoke mode method => exact step_changes_invoke fits counted run
  | invokeDynamic callSite => exact step_changes_invokeDynamic fits counted run
  | withClass op cls => exact step_changes_withClass fits counted run
  | monitorEnter | monitorExit =>
    obtain rfl := Except.ok.inj counted
    exact Frame.changes_drop (operands _ rfl) run
  | newMultiArray cls dimensions => exact step_changes_newMultiArray fits counted run

/-! ## Branches -/

variable {branch : Branch Nat Nat Nat}

/-- Where control goes on, the operands of a branch are gone. -/
theorem CodeContext.stepBranch_height (fits : branch.operandWidths <+: frame.widths)
    (run : stepBranch frame branch = .ok out) {target : Nat}
    (successor : target ∈ branch.targets ++ branch.next?.toList) :
    out.height + branch.pops = frame.height := by
  cases branch with
  | conditional condition =>
    cases condition <;> exact Frame.height_dropAll fits run
  | tableSwitch | lookupSwitch => exact Frame.height_dropAll fits run
  | goto | gotoWide | fallThrough =>
    obtain rfl := Except.ok.inj run
    rfl
  | jsr | jsrWide | ret => cases run
  | returns | throws | stop => cases successor

theorem CodeContext.stepBranch_height_le (fits : branch.operandWidths <+: frame.widths)
    (run : stepBranch frame branch = .ok out) : out.height ≤ frame.height := by
  by_cases leads : ∃ target, target ∈ branch.targets ++ branch.next?.toList
  · obtain ⟨target, successor⟩ := leads
    exact Nat.le.intro (stepBranch_height fits run successor)
  · cases branch with
    | returns | throws | stop => rw [Except.ok.inj run]
    | jsr | jsrWide | ret => cases run
    | fallThrough next => exact absurd ⟨next, List.mem_cons_self⟩ leads
    | _ => exact absurd ⟨_, List.mem_append_left _ List.mem_cons_self⟩ leads

end

/-! ## Joins -/

section

variable {first second : BlockType}

/-- Whatever a hierarchy answers. -/
theorem Hierarchy.Query.answers_any {α : Type} (query : Hierarchy.Query α) :
    Hierarchy.Query.Answers (fun _ => True) query fun _ => True :=
  fun hierarchy _ => ⟨(query.run hierarchy).1, (query.run hierarchy).2, rfl, trivial, fun _ _ => trivial⟩

theorem VerificationType.one_le_width (type : BlockType) : 1 ≤ type.width := by
  cases type with
  | double | long => exact Nat.le_succ 1
  | _ => exact Nat.le_refl 1

/-- Joining types never gives a wider one. -/
theorem Hierarchy.joinTypes_width (first second : BlockType) :
    Hierarchy.Query.Answers (fun _ => True) (joinTypes first second) fun joined =>
      joined.width ≤ first.width ∧ joined.width ≤ second.width := by
  have narrow : ∀ joined : BlockType, joined.width = 1 →
      Query.Answers (fun _ => True) (pure joined : Query BlockType) fun joined =>
        joined.width ≤ first.width ∧ joined.width ≤ second.width := by
    intro joined one
    refine (Query.succeeds_pure ?_).answers
    rw [one]
    exact ⟨first.one_le_width, second.one_le_width⟩
  unfold joinTypes
  split
  · next same => exact (Query.succeeds_pure ⟨Nat.le_refl _, same ▸ Nat.le_refl _⟩).answers
  · split
    · exact narrow _ rfl
    · exact narrow _ rfl
    · exact (Query.answers_any _).bind fun _ _ => narrow _ rfl
    · exact narrow _ rfl

theorem sum_le_of_forall₂ {firsts seconds joined : List BlockType}
    (same : firsts.length = seconds.length)
    (each : List.Forall₂ (fun pair (join : BlockType) =>
      join.width ≤ pair.1.width ∧ join.width ≤ pair.2.width) (firsts.zip seconds) joined) :
    (joined.map VerificationType.width).sum ≤ (firsts.map VerificationType.width).sum ∧
      (joined.map VerificationType.width).sum ≤ (seconds.map VerificationType.width).sum := by
  have sums : ∀ {types : List BlockType},
      List.Forall₂ (fun type join => join.width ≤ type.width) types joined →
        (joined.map VerificationType.width).sum ≤ (types.map VerificationType.width).sum :=
    fun narrow => (List.forall₂_map_left_iff.2 (List.forall₂_map_right_iff.2 narrow.flip)).sum_le_sum
  exact ⟨sums (forall₂_of_zip_fst same (each.imp fun _ _ => And.left)),
    sums (forall₂_of_zip_snd same (each.imp fun _ _ => And.right))⟩

theorem Hierarchy.joinFrames_height (block : Nat) (known incoming : BlockFrame) :
    Hierarchy.Query.Answers (fun _ => True) (joinFrames block known incoming) fun joined =>
      joined.height ≤ known.height ∧ joined.height ≤ incoming.height := by
  rw [joinFrames]
  dsimp only
  split
  · exact Query.answers_throw
  · next sameHeight =>
    have same : known.operands.length = incoming.operands.length := by
      rw [Frame.operands, Frame.operands, List.length_reverse, List.length_reverse]
      exact Decidable.not_not.1 sameHeight
    have onOperands : ∀ pair ∈ known.operands.zip incoming.operands,
        Query.Answers (fun _ => True)
          (if pair.1.width = pair.2.width then joinTypes pair.1 pair.2
            else throw (.incompatibleHeights block known.height incoming.height))
          fun joined => joined.width ≤ pair.1.width ∧ joined.width ≤ pair.2.width := by
      intro pair _
      split
      · exact joinTypes_width pair.1 pair.2
      · exact Query.answers_throw
    refine (Query.answers_mapM onOperands).bind fun operands each => ?_
    refine (Query.answers_any _).bind fun locals _ => (Query.succeeds_pure ?_).answers
    have sums := sum_le_of_forall₂ same each
    simp only [Frame.operands, List.map_reverse, List.sum_reverse] at sums
    simpa only [Frame.height_eq, Frame.widths, List.map_reverse, List.sum_reverse] using sums

/-- Heights of frames at blocks that control may reach, which joining frames
never raises. -/
theorem Inference.discipline_heights (context : CodeContext) :
    Discipline context (fun _ => True) (fun lower upper => upper.height ≤ lower.height)
      fun block _ => context.graph.Reachable block where
  refl _ := Nat.le_refl _
  trans _ _ _ first second := Nat.le_trans second first
  join block known incoming reachable _ :=
    (Hierarchy.joinFrames_height block known incoming).mono fun _ lower =>
      ⟨lower.1, lower.2, reachable⟩
  passed _ _ _ _ reachable passed := reachable.tail passed.edge

end

end ClassFile
