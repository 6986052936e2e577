import ClassFile.Pool.Basic

namespace ClassFile
namespace Pool

/-!
# Looking entries up

An entry is asked for by position together with the kind it must have.  What
the entry refers to is resolved to text on the way, and the first reference that
leads nowhere, or to an entry of another kind, is the fault.
-/

/-- A field or method by the texts it is made of. -/
structure Member where
  owner : String
  name : String
  descriptor : String
deriving DecidableEq, Repr

/-- A name beside a descriptor. -/
structure Signature where
  name : String
  descriptor : String
deriving DecidableEq, Repr

def entry (pool : Pool) (index : PoolIndex) : Except Fault Constant :=
  match pool.constants.find? index with
  | some constant => .ok constant
  | none => .error (.missingConstant index)

def utf8 (pool : Pool) (index : PoolIndex) : Except Fault String := do
  match ← pool.entry index with
  | .utf8 text => return text
  | _ => throw (.unexpectedConstant index "Utf8")

/-- The name of a class, or the descriptor of an array type. -/
def className (pool : Pool) (index : PoolIndex) : Except Fault String := do
  match ← pool.entry index with
  | .cls name => pool.utf8 name
  | _ => throw (.unexpectedConstant index "Class")

def signature (pool : Pool) (index : PoolIndex) : Except Fault Signature := do
  match ← pool.entry index with
  | .nameAndType name descriptor => return ⟨← pool.utf8 name, ← pool.utf8 descriptor⟩
  | _ => throw (.unexpectedConstant index "NameAndType")

/-- The parts of a field or method reference, the signature resolved first. -/
def member (pool : Pool) (index : PoolIndex) : Except Fault Member := do
  match ← pool.entry index with
  | .fieldRef owner signature | .methodRef owner signature _ =>
    let ⟨name, descriptor⟩ ← pool.signature signature
    return ⟨← pool.className owner, name, descriptor⟩
  | _ => throw (.unexpectedConstant index "member reference")

/-- The signature of a computed constant or a call site. -/
def dynamicSignature (pool : Pool) (index : PoolIndex) : Except Fault Signature := do
  match ← pool.entry index with
  | .dynamic _ signature | .invokeDynamic _ signature => pool.signature signature
  | _ => throw (.unexpectedConstant index "InvokeDynamic")

/-- The class constant of a name, if the pool has one already. -/
def classOf? (pool : Pool) (name : String) : Option PoolIndex := do
  let text ← pool.slots[Constant.utf8 name]?
  pool.slots[Constant.cls text]?

end Pool
end ClassFile
