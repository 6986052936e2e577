import ClassFile.Class.Builder
import ClassFile.Code.Decoded

namespace ClassFile
namespace ClassImage

/-!
# Building a class again

A class image is replayed into a builder.  When the builder started from the
pool of the image, fields and attributes keep their bytes, and so do methods of
which nothing is computed anew.  Otherwise only what is understood survives: the
constants of fields, the code of methods and the bootstrap methods.
-/

/-- The initial value of a field: that of its last attribute for it. -/
def fieldValue (image : ClassImage) (field : Field) : Except Fault (Option Loadable) :=
  field.attributes.foldlM (fun value attr => do
    if (← image.pool.utf8 attr.name) = Attribute.constantValue then
      some <$> image.pool.value (← Constant.readIndex.runOn attr.info)
    else return value) none

def replayField (image : ClassImage) (sharesPool : Bool) (field : Field) : Build Unit := do
  if sharesPool then Build.pushField field
  else
    let name ← image.pool.utf8 field.name
    let value ← image.fieldValue field
    let descriptor ← image.pool.utf8 field.descriptor
    Build.addField field.access name descriptor value

/-- Record the attributes of a method. -/
def recordMethod (image : ClassImage) (sharesPool wantsFrames : Bool) (context : MethodContext)
    (attributes : List Attribute) : Record Unit := do
  for attr in attributes do
    let name ← image.pool.utf8 attr.name
    if name = Attribute.code then
      let code ← (DecodedCode.read image.pool context wantsFrames).runOn attr.info
      code.record image.pool
    else if sharesPool then Record.attach name attr.info

/-- Build a method again from its decoded code. -/
def rebuildMethod (image : ClassImage) (sharesPool wantsFrames : Bool) (method : Method) :
    Build Unit := do
  let name ← image.pool.utf8 method.name
  let descriptor ← image.pool.utf8 method.descriptor
  let _ ← MethodDescriptor.parse descriptor
  let draft ← Build.beginMethod method.access name descriptor
  let recording := image.recordMethod sharesPool wantsFrames draft.context method.attributes
  let (answer, draft) ← Build.recording draft recording
  answer
  Build.endMethod draft

def replayMethod (image : ClassImage) (sharesPool : Bool) (method : Method) : Build Unit := do
  let mode := (← get).mode
  if sharesPool && mode == .nothing then Build.pushMethod method
  else image.rebuildMethod sharesPool (!mode.computesFrames) method

def replayAttribute (image : ClassImage) (sharesPool : Bool) (attr : Attribute) : Build Unit := do
  let name ← image.pool.utf8 attr.name
  if sharesPool || name == Attribute.bootstrapMethods then Build.addAttribute name attr.info

/-- Build the class again.  Whether the builder started from the pool of this
image has to be said. -/
def replay (image : ClassImage) (sharesPool : Bool) : Build Unit := do
  let interfaces ← image.interfaceNames
  let name ← image.name
  let superName ← image.superName
  Build.setHeader image.version image.access name superName interfaces
  for field in image.fields do
    image.replayField sharesPool field
  for method in image.methods do
    image.replayMethod sharesPool method
  for attr in image.attributes do
    image.replayAttribute sharesPool attr

end ClassImage
end ClassFile
