import ClassFile.Pool.Lookup
import ClassFile.Pool.Request

namespace ClassFile
namespace Pool

/-!
# Values of entries

A loadable entry is read back as the value that was asked for.  The arguments of
a bootstrap method may be computed by bootstrap methods in turn.  Going down
through more of them than there are means that one of them needs itself.
-/

/-- A method reference says whether its owner is an interface. -/
def ownerIsInterface (pool : Pool) (member : PoolIndex) : Except Fault Bool := do
  match ← pool.entry member with
  | .methodRef _ _ ownerIsInterface => return ownerIsInterface
  | _ => return false

def handle (pool : Pool) (index : PoolIndex) : Except Fault Handle := do
  match ← pool.entry index with
  | .methodHandle kind member =>
    let ownerIsInterface ← pool.ownerIsInterface member
    let ⟨owner, name, descriptor⟩ ← pool.member member
    return ⟨kind, owner, name, descriptor, ownerIsInterface⟩
  | _ => throw (.unexpectedConstant index "MethodHandle")

/-- The descriptor of the type that a class constant names. -/
def typeDescriptor (name : String) : String :=
  if name.toList.head? = some '[' then name else "L" ++ name ++ ";"

/-- The bootstrap method at a position of the table, given how to read its
arguments. -/
def bootstrapWith (pool : Pool) (argument : PoolIndex → Except Fault Loadable)
    (position : Nat) : Except Fault (Handle × List Loadable) := do
  match pool.bootstraps[position]? with
  | some method =>
    let arguments ← method.arguments.mapM argument
    return (← pool.handle method.handle, arguments)
  | none => throw (.malformed (.noBootstrap position))

/-- The value of a loadable entry that is computed through less than `depth`
bootstrap methods. -/
def valueWithin (pool : Pool) : (depth : Nat) → PoolIndex → Except Fault Loadable
  | 0, index => throw (.endless s!"constant {index}")
  | depth + 1, index => do
    match ← pool.entry index with
    | .integer value => return .integer value
    | .float bits => return .float bits
    | .long value => return .long value
    | .double bits => return .double bits
    | .string text => return .string (← pool.utf8 text)
    | .cls name => return .type (typeDescriptor (← pool.utf8 name))
    | .methodType descriptor => return .type (← pool.utf8 descriptor)
    | .methodHandle .. => return .handle (← pool.handle index)
    | .dynamic position signature =>
      let ⟨name, descriptor⟩ ← pool.signature signature
      let (bootstrap, arguments) ← pool.bootstrapWith (pool.valueWithin depth) position
      return .dynamic name descriptor bootstrap arguments
    | _ => throw (.unexpectedConstant index "loadable constant")

/-- The value of a loadable entry. -/
def value (pool : Pool) : PoolIndex → Except Fault Loadable :=
  pool.valueWithin (pool.bootstraps.size + 1)

/-- The handle and the arguments of the bootstrap method at a position. -/
def bootstrap (pool : Pool) : (position : Nat) → Except Fault (Handle × List Loadable) :=
  pool.bootstrapWith pool.value

end Pool
end ClassFile
