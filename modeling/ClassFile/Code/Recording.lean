import ClassFile.Code.Assembly
import ClassFile.Pool.Request

namespace ClassFile

/-!
# Recording a method

A method is recorded piece by piece.  Each piece adds the constants it needs to
the pool of the class at once, and laying out the code is left to the end, so
labels can be used before they are placed.  A piece that fails adds nothing to
the method.  A method without any code stays without it.
-/

/-- A method of which more is to come. -/
structure MethodDraft where
  access : Access .method
  name : PoolIndex
  descriptor : PoolIndex
  context : MethodContext
  items : Array Item
  handlers : Array Handler
  limits : Option Limits
  hasCode : Bool
  /-- The first label that was not given out. -/
  nextLabel : Nat
  attributes : Array Attribute

namespace MethodDraft

def empty (access : Access .method) (name descriptor : PoolIndex) (context : MethodContext) :
    MethodDraft :=
  ⟨access, name, descriptor, context, #[], #[], none, false, 0, #[]⟩

def add : MethodDraft → Item → MethodDraft
  | ⟨access, name, descriptor, context, items, handlers, limits, _, nextLabel, attributes⟩, item =>
    ⟨access, name, descriptor, context, items.push item, handlers, limits, true, nextLabel,
      attributes⟩

def addHandler : MethodDraft → Handler → MethodDraft
  | ⟨access, name, descriptor, context, items, handlers, limits, _, nextLabel, attributes⟩,
    handler =>
    ⟨access, name, descriptor, context, items, handlers.push handler, limits, true, nextLabel,
      attributes⟩

/-- The code, if there is any. -/
def body? (draft : MethodDraft) : Option MethodBody :=
  if draft.hasCode then some ⟨draft.items.toList, draft.handlers.toList, draft.limits⟩ else none

end MethodDraft

/-- A method beside the pool of its class. -/
structure Record.State where
  pool : Pool
  draft : MethodDraft

/-- What was recorded remains when recording fails. -/
abbrev Record := ExceptT Fault (StateM Record.State)

/-- How a method is called, where the arguments of an interface call are not
counted yet. -/
inductive CallKind
  | virtual | special | static | interface
deriving DecidableEq, Repr

namespace CallKind

/-- The call of a method, which may fail for an interface since arguments of more
than 255 slots cannot be stated. -/
def mode? (kind : CallKind) (method : MethodDescriptor) : Option InvokeMode :=
  match kind with
  | virtual => some .virtual
  | special => some .special
  | static => some .static
  | interface =>
    let count := method.parameterWidth true
    if count < 256 then some (.interface (.ofNat count)) else none

end CallKind

def InvokeMode.kind : InvokeMode → CallKind
  | virtual => .virtual
  | special => .special
  | static => .static
  | interface _ => .interface

/-- The kind of the values of a type. -/
def FieldType.kind : FieldType → ValueKind
  | base .long => .long
  | base .float => .float
  | base .double => .double
  | base _ => .int
  | object _ | array _ => .reference

namespace Record

variable {α : Type}

def symbol (request : Pool.Request α) : Record α := fun ⟨pool, draft⟩ =>
  let (answer, pool) := request.run pool
  (answer, ⟨pool, draft⟩)

def update (change : MethodDraft → MethodDraft) : Record Unit :=
  modify fun ⟨pool, draft⟩ => ⟨pool, change draft⟩

def item (item : Item) : Record Unit :=
  update fun draft => draft.add item

/-- Place a label here. -/
def label (label : Nat) : Record Unit :=
  item (.label label)

/-- The frame that holds here, with locals by value and operands from the bottom
up. -/
def frame (locals operands : List BlockType) : Record Unit :=
  item (.frame (.ofEntries locals operands))

def instruction (instruction : Instruction) : Record Unit :=
  item (.instruction instruction)

def branch (branch : Branch Nat Nat Unit) : Record Unit :=
  item (.branch branch)

/-- The shortest instruction that pushes a number without the pool. -/
def shortPush? (value : Int32) : Option Instruction :=
  let number := value.toInt
  if -1 ≤ number ∧ number ≤ 5 then some (.pushInt (Fin.ofNat 7 (number + 1).toNat))
  else if -128 ≤ number ∧ number < 128 then some (.pushByte (.ofInt number))
  else if -32768 ≤ number ∧ number < 32768 then some (.pushShort (.ofInt number))
  else none

def pushInt (value : Int32) : Record Unit := do
  match shortPush? value with
  | some push => instruction push
  | none => instruction (.loadConstant (← symbol (Pool.addInteger value)))

def accessField (access : FieldAccess) (owner name descriptor : String) : Record Unit := do
  let _ ← FieldType.parse descriptor
  instruction (.accessField access (← symbol (Pool.addFieldRef owner name descriptor)))

def invoke (kind : CallKind) (owner name descriptor : String) (ownerIsInterface : Bool) :
    Record Unit := do
  let parsed ← MethodDescriptor.parse descriptor
  let method ← symbol (Pool.addMethodRef owner name descriptor ownerIsInterface)
  match kind.mode? parsed with
  | some mode => instruction (.invoke mode method)
  | none => throw (.invalidDescriptor descriptor)

def invokeDynamic (name descriptor : String) (bootstrap : Handle) (arguments : List Loadable) :
    Record Unit := do
  let _ ← MethodDescriptor.parse descriptor
  instruction (.invokeDynamic
    (← symbol (Pool.addInvokeDynamic name descriptor bootstrap arguments)))

/-- An instruction on a class, or on an array type by its descriptor. -/
def withClass (op : ClassOp) (name : String) : Record Unit := do
  instruction (.withClass op (← symbol (Pool.addClass name)))

def newMultiArray (descriptor : String) (dimensions : UInt8) : Record Unit := do
  let _ ← FieldType.parse descriptor
  instruction (.newMultiArray (← symbol (Pool.addClass descriptor)) dimensions)

/-- Slots that a loaded value takes. -/
def loadedWidth : Loadable → Except Fault Nat
  | .long _ | .double _ => return 2
  | .dynamic _ descriptor _ _ => return (← FieldType.parse descriptor).width
  | _ => return 1

def load (value : Loadable) : Record Unit := do
  let width ← loadedWidth value
  let constant ← symbol (Pool.addLoadable value)
  instruction (if width = 2 then .loadWideConstant constant else .loadConstant constant)

/-- A switch by keys in any order. -/
def lookupSwitch (otherwise : Nat) (pairs : List (Int32 × Nat)) : Record Unit :=
  branch (.lookupSwitch 0 otherwise (pairs.mergeSort fun a b => a.1.toInt ≤ b.1.toInt))

/-- Return what the descriptor of the method says. -/
def returnResult : Record Unit := do
  let descriptor := (← get).draft.context.descriptor
  branch (.returns (descriptor.result.map FieldType.kind))

/-- A handler from one label up to another, for exceptions of a class or for all
of them. -/
def handler (start stop entry : Nat) (catches : Option String) : Record Unit := do
  let catches ← catches.mapM fun name => symbol (Pool.addClass name)
  update fun draft => draft.addHandler ⟨start, stop, entry, catches⟩

/-- Limits, which count where they are not computed. -/
def limits (limits : Limits) : Record Unit :=
  update fun draft => { draft with limits := some limits }

/-- Attach an attribute beside the code. -/
def attach (name : String) (info : Bytes) : Record Unit := do
  let name ← symbol (Pool.addUtf8 name)
  update fun draft => { draft with attributes := draft.attributes.push ⟨name, info⟩ }

/-- A number of labels that were not used before, of which the first is the
answer. -/
def newLabels (count : Nat) : Record Nat := do
  let first := (← get).draft.nextLabel
  update fun draft => { draft with nextLabel := first + count }
  return first

end Record
end ClassFile
