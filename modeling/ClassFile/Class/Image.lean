import ClassFile.Class.Attribute
import ClassFile.Pool.Lookup

namespace ClassFile

/-!
# Whole classes

A `ClassImage` is a class file with its constant pool decoded and its members
left as they are written.  `ClassImage.parse` accepts a run of bytes that is one
class file from its first to its last byte.  The bootstrap methods belong to the
pool although they stand in an attribute of the class.
-/

structure ClassImage where
  version : Version
  pool : Pool
  access : Access .cls
  thisClass : PoolIndex
  /-- Missing only for the root of all classes. -/
  superClass : Option PoolIndex
  interfaces : List PoolIndex
  fields : List Field
  methods : List Method
  attributes : List Attribute

namespace ClassImage

def magic : Bytes := [0xCA, 0xFE, 0xBA, 0xBE]

/-- A position in the pool, where zero stands for none. -/
def encodeOptional (index? : Option PoolIndex) : Except Fault Bytes :=
  Encoding.index (index?.getD 0)

def readOptional : Reader (Option PoolIndex) := do
  let index ← Constant.readIndex
  return if index = 0 then none else some index

def encode (image : ClassImage) : Except Fault Bytes := do
  let pool ← image.pool.encode
  let thisClass ← Encoding.index image.thisClass
  let superClass ← encodeOptional image.superClass
  let interfaces ← Encoding.sequence Encoding.index image.interfaces
  let fields ← Encoding.sequence Member.encode image.fields
  let methods ← Encoding.sequence Member.encode image.methods
  let attributes ← Encoding.sequence Attribute.encode image.attributes
  return magic ++ image.version.encode ++ pool ++ image.access.encode ++ thisClass ++
    superClass ++ interfaces ++ fields ++ methods ++ attributes

/-- Read entries onto a pool until its slots are used up. -/
def readConstantsOnto (count : Nat) (pool : Pool) : Reader Pool := do
  if pool.count < count then
    let constant ← Constant.read
    readConstantsOnto count (pool.append constant)
  else if count < pool.count then Reader.fail .poolOverrun
  else return pool
termination_by count - pool.count
decreasing_by
  have := constant.width_pos
  simp only [Pool.count, Pool.append, SlotVector.push, Wide.width] at *
  omega

/-- The entries after the number of their slots. -/
def readPool : Reader Pool := do
  readConstantsOnto (← Reader.word 2) Pool.empty

/-- The bootstrap methods of a class, those of the last attribute of that
name. -/
def readBootstraps (pool : Pool) (attributes : List Attribute) :
    Except Fault (List BootstrapMethod) :=
  attributes.foldlM (fun methods attr => do
    if (← pool.utf8 attr.name) = Attribute.bootstrapMethods then
      BootstrapMethod.readTable.runOn attr.info
    else return methods) []

/-- A class with no bootstrap methods in its pool yet. -/
def read : Reader ClassImage := do
  if (← Reader.take 4) ≠ magic then Reader.fail .noMagic
  let minor ← Reader.u2
  let major ← Reader.u2
  let pool ← readPool
  let access ← Access.ofBits <$> Reader.u2
  let thisClass ← Constant.readIndex
  let superClass ← readOptional
  let interfaces ← Reader.many (← Reader.word 2) Constant.readIndex
  let fields ← Member.readAll
  let methods ← Member.readAll
  let attributes ← Attribute.readAll
  unless (← get).atEnd do Reader.fail .trailingBytes
  return {
    version := ⟨minor, major⟩
    pool, access, thisClass, superClass, interfaces, fields, methods, attributes }

def parse (bytes : Bytes) : Except Fault ClassImage := do
  let image ← read.runOn bytes
  let bootstraps ← readBootstraps image.pool image.attributes
  return { image with pool := bootstraps.foldl Pool.appendBootstrap image.pool }

/-- The name of the class. -/
def name (image : ClassImage) : Except Fault String :=
  image.pool.className image.thisClass

def superName (image : ClassImage) : Except Fault (Option String) :=
  image.superClass.mapM image.pool.className

def interfaceNames (image : ClassImage) : Except Fault (List String) :=
  image.interfaces.mapM image.pool.className

end ClassImage
end ClassFile
