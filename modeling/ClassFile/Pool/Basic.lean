import Std.Data.HashMap
import ClassFile.Pool.Constant

namespace ClassFile

/-!
# The constant pool

A pool lists its entries in the order they are written, which also fixes the
slots they start at, and the bootstrap methods that its dynamic entries refer
to.  `intern` and `internBootstrap` reuse the first entry equal to a requested
one and append it otherwise.  How equal entries are found is a matter of speed:
the proof fields say that the hash maps answer exactly what a search from the
front would.
-/

namespace SlotVector

variable {α : Type} [Wide α] [BEq α]

/-- The slot of the first element equal to the given one. -/
def slotOf? (vector : SlotVector α) (element : α) : Option Nat :=
  (vector.cells.toList.find? fun cell => cell.2 == element).map Prod.fst

theorem slotOf_push [LawfulBEq α] (vector : SlotVector α) (added element : α) :
    (vector.push added).slotOf? element =
      (vector.slotOf? element).or (if added == element then some vector.stop else none) := by
  simp only [slotOf?, push, Array.toList_push, List.find?_append, List.find?_singleton,
    Option.map_or]
  split <;> rfl

end SlotVector

/-- Inserting a new key answers as before wherever there was an answer. -/
theorem getElem_insertIfNew_eq_or {κ υ : Type} [BEq κ] [LawfulBEq κ] [Hashable κ]
    (map : Std.HashMap κ υ) (key other : κ) (value : υ) :
    (map.insertIfNew key value)[other]? =
      map[other]?.or (if key == other then some value else none) := by
  rw [Std.HashMap.getElem?_insertIfNew]
  by_cases same : key = other
  · subst same
    by_cases known : key ∈ map <;> simp [known]
  · simp [same]

/-- An entry of the bootstrap table: a method handle and its static arguments. -/
structure BootstrapMethod where
  handle : PoolIndex
  arguments : List PoolIndex
deriving DecidableEq, Repr, Hashable

structure Pool where
  constants : SlotVector Constant
  slots : Std.HashMap Constant PoolIndex
  slots_eq : ∀ constant : Constant, slots[constant]? = constants.slotOf? constant
  bootstraps : Array BootstrapMethod
  positions : Std.HashMap BootstrapMethod Nat
  positions_eq : ∀ method : BootstrapMethod,
    positions[method]? = bootstraps.toList.findIdx? (· == method)

namespace Pool

/-- Entries start at slot one. -/
def empty : Pool where
  constants := SlotVector.empty 1
  slots := ∅
  slots_eq _ := Std.HashMap.getElem?_empty
  bootstraps := #[]
  positions := ∅
  positions_eq _ := Std.HashMap.getElem?_empty

/-- Append an entry, even one that is there already. -/
def append (pool : Pool) (constant : Constant) : Pool where
  constants := pool.constants.push constant
  slots := pool.slots.insertIfNew constant pool.constants.stop
  slots_eq other := by
    rw [SlotVector.slotOf_push, ← pool.slots_eq, getElem_insertIfNew_eq_or]
  bootstraps := pool.bootstraps
  positions := pool.positions
  positions_eq := pool.positions_eq

/-- Append a bootstrap method, even one that is there already. -/
def appendBootstrap (pool : Pool) (method : BootstrapMethod) : Pool :=
  let position := pool.bootstraps.size
  { constants := pool.constants
    slots := pool.slots
    slots_eq := pool.slots_eq
    bootstraps := pool.bootstraps.push method
    positions := pool.positions.insertIfNew method position
    positions_eq other := by
      rw [Array.toList_push, List.findIdx?_append, ← pool.positions_eq,
        getElem_insertIfNew_eq_or]
      by_cases same : method = other <;> simp [same, position, List.findIdx?_cons] }

/-- A pool with the given entries at the given positions, duplicates included. -/
def ofLists (constants : List Constant) (bootstraps : List BootstrapMethod) : Pool :=
  bootstraps.foldl appendBootstrap (constants.foldl append empty)

/-- The number of entries. -/
def size (pool : Pool) : Nat :=
  pool.constants.size

/-- One more than the slots in use, which is what the header states. -/
def count (pool : Pool) : Nat :=
  pool.constants.stop

/-- The entries beside the slots they start at. -/
def entries (pool : Pool) : List (PoolIndex × Constant) :=
  pool.constants.cells.toList

/-- The position of an entry, appended unless there is one equal to it. -/
def intern (constant : Constant) : StateM Pool PoolIndex := fun pool =>
  match pool.slots[constant]? with
  | some slot => (slot, pool)
  | none => (pool.constants.stop, pool.append constant)

/-- The slots of a pool must be countable in 16 bits. -/
def checkCapacity (pool : Pool) : Except Fault Unit :=
  if pool.count < 65536 then .ok () else .error (.poolOverflow pool.constants.totalWidth)

/-- The number of slots and then the entries. -/
def encode (pool : Pool) : Except Fault Bytes := do
  if pool.count < 65536 then
    return BigEndian.encode 2 pool.count ++ (← Encoding.each Constant.encode pool.constants.toList)
  else throw (.codec .longPool)

end Pool

namespace BootstrapMethod

def encode (method : BootstrapMethod) : Except Fault Bytes :=
  return (← Encoding.index method.handle) ++
    (← Encoding.sequence Encoding.index method.arguments)

def read : Reader BootstrapMethod := do
  let handle ← Constant.readIndex
  let arguments ← Reader.many (← Reader.word 2) Constant.readIndex
  return ⟨handle, arguments⟩

/-- The contents of a bootstrap table. -/
def encodeTable (methods : List BootstrapMethod) : Except Fault Bytes := do
  if methods.length < 65536 then
    return BigEndian.encode 2 methods.length ++ (← Encoding.each encode methods)
  else throw (.codec .manyBootstraps)

def readTable : Reader (List BootstrapMethod) := do
  Reader.many (← Reader.word 2) read

end BootstrapMethod
end ClassFile
