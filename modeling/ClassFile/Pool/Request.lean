import ClassFile.Descriptor.Checked
import ClassFile.Pool.Basic

namespace ClassFile

/-!
# Asking a pool for symbols

Entries are asked for by the texts and values they stand for, and the entries
they are made of are interned first.  Such a request cannot fail because the
pool is full: its size is checked when it is written.  A loadable value fails
when a type in it is no descriptor, which is found out before anything is
added, or when the bootstrap table has no position left.
-/

/-- A field or method used as a method handle. -/
structure Handle where
  kind : HandleKind
  owner : String
  name : String
  descriptor : String
  ownerIsInterface : Bool
deriving DecidableEq, Repr

/-- A value that an instruction can load or a bootstrap method can be given. -/
inductive Loadable
  | integer (value : Int32)
  | byte (value : Int8)
  | char (unit : UInt16)
  | short (value : Int16)
  | boolean (value : Bool)
  | float (bits : UInt32)
  | long (value : Int64)
  | double (bits : UInt64)
  | string (text : String)
  /-- The class of an object or array type, or a method type. -/
  | type (descriptor : String)
  | handle (handle : Handle)
  /-- A constant computed by a bootstrap method. -/
  | dynamic (name descriptor : String) (bootstrap : Handle) (arguments : List Loadable)
deriving Repr

namespace Loadable

def isMethodDescriptor (descriptor : String) : Bool :=
  descriptor.toList.head? = some '('

/-- A type must be the descriptor of a method or of a reference. -/
def checkType (descriptor : String) : Except Fault Unit :=
  let valid :=
    if isMethodDescriptor descriptor then (MethodDescriptor.parse? descriptor).isSome
    else (FieldType.parseReference? descriptor).isSome
  if valid then .ok () else .error (.invalidConstant descriptor)

mutual

/-- Every type in a value has an entry that stands for it. -/
def check : Loadable → Except Fault Unit
  | type descriptor => checkType descriptor
  | dynamic _ _ _ arguments => checkAll arguments
  | _ => .ok ()

def checkAll : List Loadable → Except Fault Unit
  | [] => .ok ()
  | value :: rest => do
    check value
    checkAll rest

end

end Loadable

namespace Pool

/-- A request leaves the pool as far as it got, even when it fails. -/
abbrev Request := ExceptT Fault (StateM Pool)

def addUtf8 (text : String) : StateM Pool PoolIndex :=
  intern (.utf8 text)

def addInteger (value : Int32) : StateM Pool PoolIndex :=
  intern (.integer value)

/-- The class constant of a class name or an array descriptor. -/
def addClass (name : String) : StateM Pool PoolIndex := do
  intern (.cls (← addUtf8 name))

def addString (text : String) : StateM Pool PoolIndex := do
  intern (.string (← addUtf8 text))

def addNameAndType (name descriptor : String) : StateM Pool PoolIndex := do
  intern (.nameAndType (← addUtf8 name) (← addUtf8 descriptor))

def addFieldRef (owner name descriptor : String) : StateM Pool PoolIndex := do
  intern (.fieldRef (← addClass owner) (← addNameAndType name descriptor))

def addMethodRef (owner name descriptor : String) (ownerIsInterface : Bool) :
    StateM Pool PoolIndex := do
  intern (.methodRef (← addClass owner) (← addNameAndType name descriptor) ownerIsInterface)

def addHandle (handle : Handle) : StateM Pool PoolIndex := do
  let member ←
    if handle.kind.isField then addFieldRef handle.owner handle.name handle.descriptor
    else addMethodRef handle.owner handle.name handle.descriptor handle.ownerIsInterface
  intern (.methodHandle handle.kind member)

def addMethodType (descriptor : String) : StateM Pool PoolIndex := do
  intern (.methodType (← addUtf8 descriptor))

def addModule (name : String) : StateM Pool PoolIndex := do
  intern (.module (← addUtf8 name))

def addPackage (name : String) : StateM Pool PoolIndex := do
  intern (.package (← addUtf8 name))

/-- The constant of a type whose descriptor has been checked. -/
def addType (descriptor : String) : Request PoolIndex := do
  if Loadable.isMethodDescriptor descriptor then addMethodType descriptor
  else
    match FieldType.parseReference? descriptor with
    | some type => addClass type.internalName
    | none => throw (.invalidConstant descriptor)

/-- The position of a bootstrap method, appended unless there is one equal to
it.  Positions are words of 16 bits, and the last one that is given out is
65535. -/
def internBootstrap (method : BootstrapMethod) : Request Nat := do
  match (← get).positions[method]? with
  | some position => return position % 65536
  | none =>
    let position := (← get).bootstraps.size
    if position < 65536 then
      modify fun pool => pool.appendBootstrap method
      return position
    else throw (.invalidConstant "more than 65535 bootstrap methods")

mutual

/-- The entries of a value whose types have been checked. -/
def addChecked : Loadable → Request PoolIndex
  | .integer value => addInteger value
  | .byte value => addInteger value.toInt32
  | .char unit => addInteger unit.toUInt32.toInt32
  | .short value => addInteger value.toInt32
  | .boolean value => addInteger (if value then 1 else 0)
  | .float bits => intern (.float bits)
  | .long value => intern (.long value)
  | .double bits => intern (.double bits)
  | .string text => addString text
  | .type descriptor => addType descriptor
  | .handle handle => addHandle handle
  | .dynamic name descriptor bootstrap arguments => do
    let handle ← addHandle bootstrap
    let position ← internBootstrap ⟨handle, ← addAllChecked arguments⟩
    intern (.dynamic position (← addNameAndType name descriptor))

def addAllChecked : List Loadable → Request (List PoolIndex)
  | [] => return []
  | value :: rest => return (← addChecked value) :: (← addAllChecked rest)

end

/-- The position of a loadable value. -/
def addLoadable (value : Loadable) : Request PoolIndex := do
  value.check
  addChecked value

/-- The position of a bootstrap method in its table. -/
def addBootstrap (bootstrap : Handle) (arguments : List Loadable) : Request Nat := do
  Loadable.checkAll arguments
  let handle ← addHandle bootstrap
  internBootstrap ⟨handle, ← addAllChecked arguments⟩

def addDynamic (name descriptor : String) (bootstrap : Handle) (arguments : List Loadable) :
    Request PoolIndex := do
  let position ← addBootstrap bootstrap arguments
  intern (.dynamic position (← addNameAndType name descriptor))

/-- The position of a call site. -/
def addInvokeDynamic (name descriptor : String) (bootstrap : Handle)
    (arguments : List Loadable) : Request PoolIndex := do
  let position ← addBootstrap bootstrap arguments
  intern (.invokeDynamic position (← addNameAndType name descriptor))

end Pool
end ClassFile
