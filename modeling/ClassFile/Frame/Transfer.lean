import ClassFile.Code.FlowGraph
import ClassFile.Frame.Entry
import ClassFile.Pool.Lookup

namespace ClassFile

/-!
# What instructions do to frames

Every instruction takes a frame to the frame after it, or fails when the stack
lacks an operand, a local variable lies outside the frame or a constant has the
wrong kind.  Operands are counted by value here, and only the rearranging
instructions look at the slots a value takes.  A branch takes its operands, where
it has successors that could see them.
-/

/-- A verification type during inference: classes by name, sites by block. -/
abbrev BlockType := VerificationType String Nat

namespace Shuffle

def isNarrow (type : BlockType) : Bool :=
  type.width = 1

/-- The rearranged stack, the top first.  It is missing when there are too few
values, or when the instruction would cut one of two slots apart. -/
def rearrange? : Shuffle → List BlockType → Option (List BlockType)
  | pop, a :: rest => if isNarrow a then some rest else none
  | pop2, a :: rest =>
    if isNarrow a then
      match rest with
      | b :: rest => if isNarrow b then some rest else none
      | [] => none
    else some rest
  | dup, a :: rest => if isNarrow a then some (a :: a :: rest) else none
  | dupX1, a :: b :: rest =>
    if isNarrow a && isNarrow b then some (a :: b :: a :: rest) else none
  | dupX2, a :: b :: rest =>
    if isNarrow a then
      if isNarrow b then
        match rest with
        | c :: rest => if isNarrow c then some (a :: b :: c :: a :: rest) else none
        | [] => none
      else some (a :: b :: a :: rest)
    else none
  | dup2, a :: rest =>
    if isNarrow a then
      match rest with
      | b :: rest => if isNarrow b then some (a :: b :: a :: b :: rest) else none
      | [] => none
    else some (a :: a :: rest)
  | dup2X1, a :: b :: rest =>
    if isNarrow b then
      if isNarrow a then
        match rest with
        | c :: rest => if isNarrow c then some (a :: b :: c :: a :: b :: rest) else none
        | [] => none
      else some (a :: b :: a :: rest)
    else none
  | dup2X2, a :: b :: rest =>
    if isNarrow a then
      if isNarrow b then
        match rest with
        | c :: rest =>
          if isNarrow c then
            match rest with
            | d :: rest =>
              if isNarrow d then some (a :: b :: c :: d :: a :: b :: rest) else none
            | [] => none
          else some (a :: b :: c :: a :: b :: rest)
        | [] => none
      else none
    else if isNarrow b then
      match rest with
      | c :: rest => if isNarrow c then some (a :: b :: c :: a :: rest) else none
      | [] => none
    else some (a :: b :: a :: rest)
  | swap, a :: b :: rest =>
    if isNarrow a && isNarrow b then some (b :: a :: rest) else none
  | _, _ => none

end Shuffle

namespace NumericKind

/-- The type of a value of the kind. -/
def type : NumericKind → BlockType
  | int => .integer
  | long => .long
  | float => .float
  | double => .double

end NumericKind

namespace IntegralKind

def type : IntegralKind → BlockType
  | int => .integer
  | long => .long

end IntegralKind

namespace Frame

/-- The type of a local variable. -/
def local_ (frame : BlockFrame) (slot : Nat) : Except Fault BlockType :=
  match frame.locals[slot]? with
  | some type => .ok type
  | none => .error (.invalidLocal slot)

/-- Store into a local variable.  A wide value whose second slot is overwritten
becomes unusable. -/
def storeLocal (frame : BlockFrame) (slot : Nat) (type : BlockType) :
    Except Fault BlockFrame :=
  if slot + type.width ≤ frame.locals.length then
    let clobbered :=
      if 0 < slot ∧ (frame.locals[slot - 1]?.map VerificationType.width) = some 2 then
        frame.locals.set (slot - 1) .top
      else frame.locals
    let stored := clobbered.set slot type
    .ok { frame with locals := if type.width = 2 then stored.set (slot + 1) .top else stored }
  else .error (.invalidLocal slot)

def push (frame : BlockFrame) (type : BlockType) : BlockFrame :=
  { frame with stack := type :: frame.stack }

/-- Take a number of values off the stack. -/
def drop (frame : BlockFrame) (count : Nat) (site : UnderflowSite) : Except Fault BlockFrame :=
  if count ≤ frame.stack.length then .ok { frame with stack := frame.stack.drop count }
  else .error (.stackUnderflow site)

/-- Take the top value off the stack. -/
def pop (frame : BlockFrame) (site : UnderflowSite) : Except Fault (BlockType × BlockFrame) :=
  match frame.stack with
  | type :: rest => .ok (type, { frame with stack := rest })
  | [] => .error (.stackUnderflow site)

/-- Change every occurrence of a type. -/
def replace (frame : BlockFrame) (old new : BlockType) : BlockFrame :=
  let change := fun type => if type = old then new else type
  ⟨frame.locals.map change, frame.stack.map change⟩

end Frame

/-- What instructions of a method refer to. -/
structure CodeContext where
  graph : FlowGraph
  method : MethodContext
  pool : Pool

namespace CodeContext

/-- The type of a loaded constant. -/
def constantType (context : CodeContext) (index : PoolIndex) : Except Fault BlockType := do
  match ← context.pool.entry index with
  | .integer _ => return .integer
  | .float _ => return .float
  | .long _ => return .long
  | .double _ => return .double
  | .string _ => return .object "java/lang/String"
  | .cls _ => return .object "java/lang/Class"
  | .methodType _ => return .object "java/lang/invoke/MethodType"
  | .methodHandle .. => return .object "java/lang/invoke/MethodHandle"
  | .dynamic .. =>
    let signature ← context.pool.dynamicSignature index
    return .ofFieldType (← FieldType.parse signature.descriptor)
  | _ => throw (.unexpectedConstant index "loadable constant")

def fieldType (context : CodeContext) (field : PoolIndex) : Except Fault BlockType := do
  return .ofFieldType (← FieldType.parse (← context.pool.member field).descriptor)

/-- The class of the objects made by the `new` at the start of a block. -/
def siteClass (context : CodeContext) (site : Nat) : Except Fault String :=
  let first? : Option Instruction :=
    context.graph.blocks[site]?.bind fun block => block.instructions[0]?
  match first? with
  | some (.withClass .new cls) => context.pool.className cls
  | _ => .error (.malformed (.notFromNew site))

/-- The class of an object once its constructor was called, if the type is that
of one before. -/
def initializedClass (context : CodeContext) : BlockType → Except Fault (Option String)
  | .uninitializedThis => .ok (some context.method.thisClass)
  | .uninitialized site => some <$> context.siteClass site
  | _ => .ok none

/-- The frame after the arguments of a call were taken. -/
def callReceiver (context : CodeContext) (mode : InvokeMode) (name : String)
    (site : UnderflowSite) (frame : BlockFrame) : Except Fault BlockFrame := do
  if mode = .static then return frame
  let (receiver, frame) ← frame.pop site
  if mode = .special ∧ name = MethodContext.constructor then
    match ← context.initializedClass receiver with
    | some cls => return frame.replace receiver (.object cls)
    | none => return frame
  else return frame

def pushResult (frame : BlockFrame) (result : Option FieldType) : BlockFrame :=
  match result with
  | some type => frame.push (.ofFieldType type)
  | none => frame

/-- The type of what is loaded from an array of references. -/
def elementType : BlockType → BlockType
  | .null => .null
  | type => type.arrayElement?.getD (.object ClassName.object.text)

/-- The frame after an instruction of a block. -/
def step (context : CodeContext) (block : Nat) (frame : BlockFrame) (instruction : Instruction) :
    Except Fault BlockFrame :=
  let site := UnderflowSite.instruction instruction
  match instruction with
  | .nop => .ok frame
  | .pushNull => .ok (frame.push .null)
  | .pushInt _ | .pushByte _ | .pushShort _ => .ok (frame.push .integer)
  | .pushLong _ => .ok (frame.push .long)
  | .pushFloat _ => .ok (frame.push .float)
  | .pushDouble _ => .ok (frame.push .double)
  | .loadConstant index | .loadWideConstant index =>
    return frame.push (← context.constantType index)
  | .load .int _ => .ok (frame.push .integer)
  | .load .long _ => .ok (frame.push .long)
  | .load .float _ => .ok (frame.push .float)
  | .load .double _ => .ok (frame.push .double)
  | .load .reference slot => return frame.push (← frame.local_ slot.toNat)
  | .store _ slot => do
    let (type, frame) ← frame.pop site
    frame.storeLocal slot.toNat type
  | .arrayLoad .reference => do
    let (array, frame) ← (← frame.drop 1 site).pop site
    return frame.push (elementType array)
  | .arrayLoad .long => return (← frame.drop 2 site).push .long
  | .arrayLoad .float => return (← frame.drop 2 site).push .float
  | .arrayLoad .double => return (← frame.drop 2 site).push .double
  | .arrayLoad _ => return (← frame.drop 2 site).push .integer
  | .arrayStore _ => frame.drop 3 site
  | .shuffle op =>
    match op.rearrange? frame.stack with
    | some stack => .ok { frame with stack }
    | none => .error (.stackUnderflow site)
  | .arithmetic _ kind => return (← frame.drop 2 site).push kind.type
  | .negate kind => return (← frame.drop 1 site).push kind.type
  | .shift _ kind | .bitwise _ kind => return (← frame.drop 2 site).push kind.type
  | .increment slot _ => do
    let _ ← frame.local_ slot.toNat
    return frame
  | .convert conversion => return (← frame.drop 1 site).push conversion.target.type
  | .compareLongs | .compareFloats _ | .compareDoubles _ =>
    return (← frame.drop 2 site).push .integer
  | .accessField .getStatic field => return frame.push (← context.fieldType field)
  | .accessField .putStatic _ => frame.drop 1 site
  | .accessField .getField field => do
    let frame ← frame.drop 1 site
    return frame.push (← context.fieldType field)
  | .accessField .putField _ => frame.drop 2 site
  | .invoke mode method => do
    let member ← context.pool.member method
    let descriptor ← MethodDescriptor.parse member.descriptor
    let frame ← frame.drop descriptor.parameters.length site
    let frame ← context.callReceiver mode member.name site frame
    return pushResult frame descriptor.result
  | .invokeDynamic callSite => do
    let signature ← context.pool.dynamicSignature callSite
    let descriptor ← MethodDescriptor.parse signature.descriptor
    let frame ← frame.drop descriptor.parameters.length site
    return pushResult frame descriptor.result
  | .withClass .new _ => .ok (frame.push (.uninitialized block))
  | .withClass .newArray cls => do
    let frame ← frame.drop 1 site
    let element ← FieldType.ofInternalName (← context.pool.className cls)
    return frame.push (.ofFieldType (.array element))
  | .withClass .checkCast cls => do
    let frame ← frame.drop 1 site
    return frame.push (.object (← context.pool.className cls))
  | .withClass .instanceOf _ | .arrayLength => return (← frame.drop 1 site).push .integer
  | .newArray element => return (← frame.drop 1 site).push (.ofFieldType (.array (.base element)))
  | .monitorEnter | .monitorExit => frame.drop 1 site
  | .newMultiArray cls dimensions => do
    let frame ← frame.drop dimensions.toNat site
    return frame.push (.object (← context.pool.className cls))

/-- The frame that a branch passes on. -/
def stepBranch (frame : BlockFrame) (branch : Branch Nat Nat Nat) : Except Fault BlockFrame :=
  match branch with
  | .conditional (.zero _) _ _ | .conditional (.null _) _ _ | .tableSwitch .. | .lookupSwitch .. =>
    frame.drop 1 (.branch branch)
  | .conditional (.ints _) _ _ | .conditional (.references _) _ _ => frame.drop 2 (.branch branch)
  | .jsr .. | .jsrWide .. | .ret _ => .error .subroutineWithFrames
  | _ => .ok frame

end CodeContext
end ClassFile
