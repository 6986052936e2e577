import ClassFile.Proofs.Pool.Values

namespace ClassFile

/-!
# What an entry stands for

`Denotes` says that a loadable value stands at an index of a pool, by the entries
that it is made of.  Reading the entry gives the value back in its normal form.  Other
entries may be computed from themselves, but this one is made of the entries of its
parts, so going down through its bootstrap methods comes to an end.
-/

namespace Handle

/-- A reference to a field does not say whether the owner is an interface. -/
def normal (handle : Handle) : Handle :=
  { handle with ownerIsInterface := !handle.kind.isField && handle.ownerIsInterface }

end Handle

namespace Loadable

mutual

/-- The value that stands for others with the same entry: small integers are of
type `int`. -/
def normal : Loadable → Loadable
  | byte value => integer value.toInt32
  | char unit => integer unit.toUInt32.toInt32
  | short value => integer value.toInt32
  | boolean value => integer (if value then 1 else 0)
  | handle used => handle used.normal
  | dynamic name descriptor bootstrap arguments =>
    dynamic name descriptor bootstrap.normal (normalAll arguments)
  | value => value

def normalAll : List Loadable → List Loadable
  | [] => []
  | value :: rest => value.normal :: normalAll rest

end

end Loadable

namespace Pool

/-- There is a bootstrap method at a position, which is a word of 16 bits. -/
def HasBootstrap (pool : Pool) (position : Nat) (method : BootstrapMethod) : Prop :=
  ∃ place, pool.bootstraps[place]? = some method ∧ place % 65536 = position

/-- A type stands at an index, by its descriptor. -/
def DenotesType (pool : Pool) (descriptor : String) (index : PoolIndex) : Prop :=
  (∃ text, pool.entry index = .ok (.methodType text) ∧ pool.utf8 text = .ok descriptor) ∨
    ∃ name, pool.className index = .ok name ∧ typeDescriptor name = descriptor

mutual

/-- A value stands at an index. -/
def Denotes (pool : Pool) : Loadable → PoolIndex → Prop
  | .integer value, index => pool.entry index = .ok (.integer value)
  | .byte value, index => pool.entry index = .ok (.integer value.toInt32)
  | .char unit, index => pool.entry index = .ok (.integer unit.toUInt32.toInt32)
  | .short value, index => pool.entry index = .ok (.integer value.toInt32)
  | .boolean value, index => pool.entry index = .ok (.integer (if value then 1 else 0))
  | .float bits, index => pool.entry index = .ok (.float bits)
  | .long value, index => pool.entry index = .ok (.long value)
  | .double bits, index => pool.entry index = .ok (.double bits)
  | .string text, index =>
    ∃ utf8, pool.entry index = .ok (.string utf8) ∧ pool.utf8 utf8 = .ok text
  | .type descriptor, index => pool.DenotesType descriptor index
  | .handle handle, index => pool.handle index = .ok handle.normal
  | .dynamic name descriptor bootstrap arguments, index =>
    ∃ position signature method, pool.entry index = .ok (.dynamic position signature) ∧
      pool.signature signature = .ok ⟨name, descriptor⟩ ∧ pool.HasBootstrap position method ∧
      pool.handle method.handle = .ok bootstrap.normal ∧ DenotesAll pool arguments method.arguments

def DenotesAll (pool : Pool) : List Loadable → List PoolIndex → Prop
  | [], indices => indices = []
  | value :: values, indices =>
    ∃ index rest, indices = index :: rest ∧ Denotes pool value index ∧ DenotesAll pool values rest

end

namespace Extends

variable {before after : Pool}

theorem hasBootstrap (extends_ : Extends before after) {position : Nat} {method : BootstrapMethod}
    (found : before.HasBootstrap position method) : after.HasBootstrap position method := by
  rcases found with ⟨place, here, same⟩
  exact ⟨place, extends_.bootstrap here, same⟩

theorem denotesType (extends_ : Extends before after) {descriptor : String} {index : PoolIndex}
    (stands : before.DenotesType descriptor index) : after.DenotesType descriptor index := by
  rcases stands with ⟨text, here, isText⟩ | ⟨name, here, same⟩
  · exact .inl ⟨text, extends_.entry here, extends_.utf8 isText⟩
  · exact .inr ⟨name, extends_.className here, same⟩

mutual

theorem denotes (extends_ : Extends before after) (value : Loadable) {index : PoolIndex}
    (stands : before.Denotes value index) : after.Denotes value index := by
  cases value with
  | string text =>
    rw [Denotes] at stands ⊢
    rcases stands with ⟨utf8, here, isText⟩
    exact ⟨utf8, extends_.entry here, extends_.utf8 isText⟩
  | type descriptor =>
    rw [Denotes] at stands ⊢
    exact extends_.denotesType stands
  | handle handle =>
    rw [Denotes] at stands ⊢
    exact extends_.handle stands
  | dynamic name descriptor bootstrap arguments =>
    rw [Denotes] at stands ⊢
    rcases stands with ⟨position, signature, method, here, isSignature, found, isHandle, all⟩
    exact ⟨position, signature, method, extends_.entry here, extends_.signature isSignature,
      extends_.hasBootstrap found, extends_.handle isHandle, denotesAll extends_ arguments all⟩
  | _ =>
    rw [Denotes] at stands ⊢
    exact extends_.entry stands

theorem denotesAll (extends_ : Extends before after) (values : List Loadable)
    {indices : List PoolIndex} (stand : before.DenotesAll values indices) :
    after.DenotesAll values indices := by
  cases values with
  | nil =>
    rw [DenotesAll] at stand ⊢
    exact stand
  | cons value values =>
    rw [DenotesAll] at stand ⊢
    rcases stand with ⟨index, rest, whole, here, there⟩
    exact ⟨index, rest, whole, denotes extends_ value here, denotesAll extends_ values there⟩

end

end Extends

/-! ## Reading values -/

theorem typeDescriptor_internalName {type : FieldType} (reference : type.isReference = true) :
    typeDescriptor type.internalName = type.descriptor := by
  cases type with
  | base => cases reference
  | array element =>
    have bracket : element.array.descriptor.toList.head? = some '[' := by
      rw [FieldType.descriptor, String.toList_ofList]
      rfl
    exact if_pos bracket
  | object name =>
    rw [typeDescriptor, FieldType.internalName, if_neg name.head?_ne_bracket, FieldType.descriptor,
      FieldType.chars]
    apply String.toList_inj.mp
    simp

section

variable {pool : Pool}

theorem HasBootstrap.getElem? {position : Nat} {method : BootstrapMethod}
    (found : pool.HasBootstrap position method) (small : pool.bootstraps.size ≤ 65536) :
    pool.bootstraps[position]? = some method := by
  rcases found with ⟨place, here, rfl⟩
  have inside := (Array.getElem?_eq_some_iff.mp here).1
  rwa [Nat.mod_eq_of_lt (by omega)]

/-- Entries that are computed by no bootstrap method are read at any depth. -/
theorem valueWithin_of_plain {value : Loadable} {index : PoolIndex}
    (stands : pool.Denotes value index)
    (plain : ∀ name descriptor bootstrap arguments,
      value ≠ .dynamic name descriptor bootstrap arguments) (depth : Nat) :
    pool.valueWithin (depth + 1) index = .ok value.normal := by
  rw [valueWithin]
  cases value with
  | string text =>
    rw [Denotes] at stands
    rcases stands with ⟨utf8, here, isText⟩
    exact bind_eq_ok.mpr ⟨_, here, bind_eq_ok.mpr ⟨_, isText, rfl⟩⟩
  | type descriptor =>
    rw [Denotes] at stands
    rcases stands with ⟨text, here, isText⟩ | ⟨name, here, rfl⟩
    · exact bind_eq_ok.mpr ⟨_, here, bind_eq_ok.mpr ⟨_, isText, rfl⟩⟩
    · rcases className_eq_ok.mp here with ⟨text, isClass, isText⟩
      exact bind_eq_ok.mpr ⟨_, isClass, bind_eq_ok.mpr ⟨_, isText, rfl⟩⟩
  | handle handle =>
    rw [Denotes] at stands
    rcases handle_eq_ok.mp stands with ⟨member, here, -⟩
    exact bind_eq_ok.mpr ⟨_, here, bind_eq_ok.mpr ⟨_, stands, rfl⟩⟩
  | dynamic name descriptor bootstrap arguments => exact absurd rfl (plain _ _ _ _)
  | _ =>
    rw [Denotes] at stands
    rw [stands]
    rfl

/-- Others are read one level above the arguments of their bootstrap methods. -/
theorem valueWithin_of_dynamic {name descriptor : String} {bootstrap : Handle}
    {values : List Loadable} {index position signature depth : Nat} {method : BootstrapMethod}
    (here : pool.entry index = .ok (.dynamic position signature))
    (isSignature : pool.signature signature = .ok ⟨name, descriptor⟩)
    (there : pool.bootstraps[position]? = some method)
    (isHandle : pool.handle method.handle = .ok bootstrap)
    (read : method.arguments.mapM (pool.valueWithin depth) = .ok values) :
    pool.valueWithin (depth + 1) index = .ok (.dynamic name descriptor bootstrap values) := by
  have table : pool.bootstrapWith (pool.valueWithin depth) position = .ok (bootstrap, values) := by
    rw [bootstrapWith, there]
    exact bind_eq_ok.mpr ⟨_, read, bind_eq_ok.mpr ⟨_, isHandle, rfl⟩⟩
  rw [valueWithin]
  exact bind_eq_ok.mpr ⟨_, here, bind_eq_ok.mpr ⟨_, isSignature, bind_eq_ok.mpr ⟨_, table, rfl⟩⟩⟩

mutual

/-- A value is read through as many bootstrap methods as it was made with, whatever else there is
in the pool. -/
theorem exists_valueWithin (small : pool.bootstraps.size ≤ 65536) (value : Loadable)
    {index : PoolIndex} (stands : pool.Denotes value index) :
    ∃ depth, pool.valueWithin depth index = .ok value.normal := by
  cases value with
  | dynamic name descriptor bootstrap arguments =>
    rw [Denotes] at stands
    rcases stands with ⟨position, signature, method, here, isSignature, found, isHandle, all⟩
    rcases exists_valuesWithin small arguments all with ⟨depth, read⟩
    exact ⟨depth + 1,
      valueWithin_of_dynamic here isSignature (found.getElem? small) isHandle read⟩
  | _ => exact ⟨1, valueWithin_of_plain stands (by simp) 0⟩

theorem exists_valuesWithin (small : pool.bootstraps.size ≤ 65536) (values : List Loadable)
    {indices : List PoolIndex} (stand : pool.DenotesAll values indices) :
    ∃ depth, indices.mapM (pool.valueWithin depth) = .ok (Loadable.normalAll values) := by
  cases values with
  | nil =>
    rw [DenotesAll] at stand
    subst stand
    exact ⟨0, rfl⟩
  | cons value values =>
    rw [DenotesAll] at stand
    rcases stand with ⟨index, rest, rfl, here, there⟩
    rcases exists_valueWithin small value here with ⟨depth, first⟩
    rcases exists_valuesWithin small values there with ⟨depth', others⟩
    have first := (pool.valueWithin_prolongs (Nat.le_max_left depth depth') index).of_ok first
    have others := (Prolongs.mapM (pool.valueWithin_prolongs (Nat.le_max_right depth depth'))
      rest).of_ok others
    refine ⟨max depth depth', ?_⟩
    rw [List.mapM_cons]
    exact bind_eq_ok.mpr ⟨_, first, bind_eq_ok.mpr ⟨_, others, rfl⟩⟩

end

/-- The value that was asked for is read back in its normal form. -/
theorem value_of_denotes (small : pool.bootstraps.size ≤ 65536) {value : Loadable}
    {index : PoolIndex} (stands : pool.Denotes value index) :
    pool.value index = .ok value.normal := by
  rcases exists_valueWithin small value stands with ⟨depth, read⟩
  exact value_eq_of_valueWithin read

theorem values_of_denotesAll (small : pool.bootstraps.size ≤ 65536) {values : List Loadable}
    {indices : List PoolIndex} (stand : pool.DenotesAll values indices) :
    indices.mapM pool.value = .ok (Loadable.normalAll values) := by
  induction values generalizing indices with
  | nil =>
    rw [DenotesAll] at stand
    subst stand
    rfl
  | cons value values ih =>
    rw [DenotesAll] at stand
    rcases stand with ⟨index, rest, rfl, here, there⟩
    rw [List.mapM_cons]
    exact bind_eq_ok.mpr ⟨_, value_of_denotes small here, bind_eq_ok.mpr ⟨_, ih there, rfl⟩⟩

end

end Pool
end ClassFile
