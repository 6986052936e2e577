import ClassFile.Frame.Basic

namespace ClassFile

/-!
# Methods and their first frames

The frame at the start of a method follows from its descriptor alone.  A
constructor starts without an initialized receiver, unless its class is the root
of all classes and so has no other constructor to call.
-/

/-- The method that code belongs to. -/
structure MethodContext where
  thisClass : String
  name : String
  descriptor : MethodDescriptor
  isStatic : Bool

namespace MethodContext

/-- The name of constructors. -/
def constructor : String := "<init>"

/-- Local variable slots of the parameters, the receiver included. -/
def parameterWidth (method : MethodContext) : Nat :=
  method.descriptor.parameterWidth (!method.isStatic)

/-- The type of the receiver, unless there is none. -/
def receiver (method : MethodContext) : List (VerificationType String Nat) :=
  if method.isStatic then []
  else if method.name = constructor ∧ method.thisClass ≠ ClassName.object.text then
    [.uninitializedThis]
  else [.object method.thisClass]

/-- The frame at the start of the method, whose locals are exactly its
parameters. -/
def entryFrame (method : MethodContext) : BlockFrame :=
  .ofEntries (method.receiver ++ method.descriptor.parameters.map .ofFieldType) []

end MethodContext
end ClassFile
