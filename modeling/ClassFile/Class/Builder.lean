import ClassFile.Class.Image
import ClassFile.Code.Recording

namespace ClassFile

/-!
# Building a class

A class is built from its header, fields, methods and attributes in turn.  Each
adds its constants to the pool at once.  What fails leaves the constants that
were added before it failed and nothing else.  Whether the pool is too large is
only found out when the class is written.
-/

/-- The attribute of an initial value at a position of the pool, its name added
to the pool. -/
def Attribute.ofConstant (constant : PoolIndex) : Pool.Request Attribute := do
  let name ← Pool.addUtf8 constantValue
  return ⟨name, ← Encoding.index constant⟩

structure Header where
  version : Version
  access : Access .cls
  name : String
  thisClass : PoolIndex
  superClass : Option PoolIndex
  interfaces : List PoolIndex

structure ClassBuilder where
  mode : ComputeMode
  pool : Pool
  hierarchy : Hierarchy
  header : Option Header
  fields : Array Field
  methods : Array Method
  attributes : Array Attribute
  /-- The number of attributes before the table of bootstrap methods. -/
  bootstrapPlace : Nat

namespace ClassBuilder

/-- A class to be built onto a pool. -/
def ofPool (mode : ComputeMode) (hierarchy : Hierarchy) (pool : Pool) : ClassBuilder :=
  ⟨mode, pool, hierarchy, none, #[], #[], #[], 0⟩

/-- The attributes of the class.  The bootstrap methods stand among them, unless
there are none, and their name joins the pool. -/
def finish (builder : ClassBuilder) : Except Fault (List Attribute × Pool) := do
  let attributes := builder.attributes.toList
  let bootstraps := builder.pool.bootstraps
  if bootstraps.isEmpty then return (attributes, builder.pool)
  let info ← BootstrapMethod.encodeTable bootstraps.toList
  let (name, pool) := Pool.addUtf8 Attribute.bootstrapMethods |>.run builder.pool
  let place := builder.bootstrapPlace
  return (attributes.take place ++ ⟨name, info⟩ :: attributes.drop place, pool)

/-- The finished class, which must have a header. -/
def image (builder : ClassBuilder) : Except Fault ClassImage := do
  match builder.header with
  | some header =>
    let (attributes, pool) ← builder.finish
    pool.checkCapacity
    return {
      version := header.version
      pool
      access := header.access
      thisClass := header.thisClass
      superClass := header.superClass
      interfaces := header.interfaces
      fields := builder.fields.toList
      methods := builder.methods.toList
      attributes }
  | none => throw (.malformed .noHeader)

def encode (builder : ClassBuilder) : Except Fault Bytes := do
  (← builder.image).encode

end ClassBuilder

/-- What was built remains when a part fails. -/
abbrev Build := ExceptT Fault (StateM ClassBuilder)

namespace Build

variable {α : Type}

def symbol (request : Pool.Request α) : Build α :=
  fun ⟨mode, pool, hierarchy, header, fields, methods, attributes, place⟩ =>
    let (answer, pool) := request.run pool
    (answer, ⟨mode, pool, hierarchy, header, fields, methods, attributes, place⟩)

def assembling (action : Assembler α) : Build α :=
  fun ⟨mode, pool, hierarchy, header, fields, methods, attributes, place⟩ =>
    let (answer, ⟨pool, hierarchy⟩) := action.run ⟨pool, hierarchy⟩
    (answer, ⟨mode, pool, hierarchy, header, fields, methods, attributes, place⟩)

/-- Record more of a method.  The answer has the method too, as far as it got. -/
def recording (draft : MethodDraft) (action : Record α) :
    Build (Except Fault α × MethodDraft) :=
  fun ⟨mode, pool, hierarchy, header, fields, methods, attributes, place⟩ =>
    let (answer, ⟨pool, draft⟩) := action.run ⟨pool, draft⟩
    (.ok (answer, draft), ⟨mode, pool, hierarchy, header, fields, methods, attributes, place⟩)

/-- Set the header.  The superclass is missing only for the root of all
classes. -/
def setHeader (version : Version) (access : Access .cls) (name : String)
    (superName : Option String) (interfaceNames : List String) : Build Unit := do
  let thisClass ← symbol (Pool.addClass name)
  let superClass ← superName.mapM fun name => symbol (Pool.addClass name)
  let interfaces ← interfaceNames.mapM fun name => symbol (Pool.addClass name)
  modify fun builder => { builder with
    header := some ⟨version, access, name, thisClass, superClass, interfaces⟩ }

def pushField (field : Field) : Build Unit :=
  modify fun builder => { builder with fields := builder.fields.push field }

def pushMethod (method : Method) : Build Unit :=
  modify fun builder => { builder with methods := builder.methods.push method }

/-- The attribute of an initial value. -/
def initialValue (value : Loadable) : Build Attribute := do
  symbol (Attribute.ofConstant (← symbol (Pool.addLoadable value)))

/-- Add a field, with an initial value if it is a constant. -/
def addField (access : Access .field) (name descriptor : String) (value : Option Loadable) :
    Build Unit := do
  MemberName.require name
  let _ ← FieldType.parse descriptor
  let attr ← value.mapM initialValue
  let name ← symbol (Pool.addUtf8 name)
  let descriptor ← symbol (Pool.addUtf8 descriptor)
  pushField ⟨access, name, descriptor, attr.toList⟩

/-- Begin a method of the class whose header was set. -/
def beginMethod (access : Access .method) (name descriptor : String) : Build MethodDraft := do
  match (← get).header with
  | none => throw (.malformed .noHeader)
  | some header =>
    MemberName.require name
    let parsed ← MethodDescriptor.parse descriptor
    let nameIndex ← symbol (Pool.addUtf8 name)
    let descriptorIndex ← symbol (Pool.addUtf8 descriptor)
    return .empty access nameIndex descriptorIndex ⟨header.name, name, parsed, access.isStatic⟩

/-- The attribute of the code of a method. -/
def codeAttribute (context : MethodContext) (body : MethodBody) : Build Attribute := do
  let builder ← get
  let version := builder.header.elim Version.standard Header.version
  let mode := builder.mode
  let code ← assembling (body.assemble context mode version.supportsFrames)
  let name ← symbol (Pool.addUtf8 Attribute.code)
  return ⟨name, ← code.encode⟩

/-- Lay out the code of a method and add the method to the class. -/
def endMethod (draft : MethodDraft) : Build Unit := do
  let code ← draft.body?.mapM (codeAttribute draft.context)
  pushMethod ⟨draft.access, draft.name, draft.descriptor, code.toList ++ draft.attributes.toList⟩

/-- Add an attribute whose bytes are not looked into.  Bootstrap methods come
from the pool, so theirs only says where they go. -/
def addAttribute (name : String) (info : Bytes) : Build Unit := do
  if name = Attribute.bootstrapMethods then
    modify fun builder => { builder with bootstrapPlace := builder.attributes.size }
  else
    let name ← symbol (Pool.addUtf8 name)
    modify fun builder => { builder with attributes := builder.attributes.push ⟨name, info⟩ }

end Build
end ClassFile
