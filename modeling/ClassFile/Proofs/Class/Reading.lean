import ClassFile.Proofs.Class.Parts
import ClassFile.Proofs.Pool.Growth

namespace ClassFile

/-!
# Classes read back

A class that was written is read back with the same pool, members and attributes.
Its bootstrap methods are found again if they stand in the only attribute of their
name.
-/

namespace Pool

theorem toList_foldl_append (constants : List Constant) (pool : Pool) :
    (constants.foldl append pool).constants.toList = pool.constants.toList ++ constants := by
  induction constants generalizing pool with
  | nil => exact (List.append_nil _).symm
  | cons constant constants ih =>
    rw [List.foldl_cons, ih]
    change (pool.constants.push constant).toList ++ constants = _
    rw [SlotVector.toList_push, List.append_assoc, List.singleton_append]

theorem start_foldl_append (constants : List Constant) (pool : Pool) :
    (constants.foldl append pool).constants.start = pool.constants.start := by
  induction constants generalizing pool with
  | nil => rfl
  | cons constant constants ih => exact ih (pool.append constant)

theorem bootstraps_foldl_append (constants : List Constant) (pool : Pool) :
    (constants.foldl append pool).bootstraps = pool.bootstraps := by
  induction constants generalizing pool with
  | nil => rfl
  | cons constant constants ih => exact ih (pool.append constant)

theorem constants_foldl_appendBootstrap (methods : List BootstrapMethod) (pool : Pool) :
    (methods.foldl appendBootstrap pool).constants = pool.constants := by
  induction methods generalizing pool with
  | nil => rfl
  | cons method methods ih => exact ih (pool.appendBootstrap method)

theorem bootstraps_foldl_appendBootstrap (methods : List BootstrapMethod) (pool : Pool) :
    (methods.foldl appendBootstrap pool).bootstraps = pool.bootstraps ++ methods.toArray := by
  induction methods generalizing pool with
  | nil => exact (Array.append_empty).symm
  | cons method methods ih =>
    rw [List.foldl_cons, ih, ← List.push_append_toArray]
    rfl

section

variable (constants : List Constant) (methods : List BootstrapMethod)

@[simp] theorem toList_ofLists : (ofLists constants methods).constants.toList = constants := by
  rw [ofLists, constants_foldl_appendBootstrap, toList_foldl_append]
  rfl

@[simp] theorem start_ofLists : (ofLists constants methods).constants.start = 1 := by
  rw [ofLists, constants_foldl_appendBootstrap, start_foldl_append]
  rfl

@[simp] theorem bootstraps_ofLists :
    (ofLists constants methods).bootstraps = methods.toArray := by
  rw [ofLists, bootstraps_foldl_appendBootstrap, bootstraps_foldl_append]
  exact Array.empty_append

/-- Bootstrap methods are not entries. -/
theorem constants_ofLists_congr (others : List BootstrapMethod) :
    (ofLists constants methods).constants = (ofLists constants others).constants := by
  rw [ofLists, ofLists, constants_foldl_appendBootstrap, constants_foldl_appendBootstrap]

theorem count_ofLists : (ofLists constants methods).count = 1 + Wide.total constants := by
  have total := (ofLists constants methods).constants.laid.stop_eq
  change _ = _ + Wide.total (ofLists constants methods).constants.toList at total
  rwa [start_ofLists, toList_ofLists] at total

end

/-- A pool whose entries start at slot one is made again of its lists. -/
theorem constants_ofLists {pool : Pool} (first : pool.constants.start = 1)
    (methods : List BootstrapMethod) :
    (ofLists pool.constants.toList methods).constants = pool.constants :=
  SlotVector.eq_of_toList ((start_ofLists _ _).trans first.symm) (toList_ofLists _ _)

section

variable {first second : Pool} (same : first.constants = second.constants) (index : PoolIndex)

include same

/-- Bootstrap methods are not looked at where entries are looked up. -/
theorem entry_congr : first.entry index = second.entry index := by
  rw [entry, entry, same]

theorem utf8_congr : first.utf8 index = second.utf8 index := by
  rw [utf8, utf8, entry_congr same]

theorem className_congr : first.className index = second.className index := by
  rw [className, className, entry_congr same]
  exact congrArg _ (funext fun constant => by cases constant <;> simp only [utf8_congr same])

end

end Pool

namespace ClassImage

/-! ## Bootstrap methods -/

/-- The bootstrap methods after one more attribute. -/
def bootstrapsAfter (pool : Pool) (methods : List BootstrapMethod) (attr : Attribute) :
    Except Fault (List BootstrapMethod) := do
  if (← pool.utf8 attr.name) = Attribute.bootstrapMethods then
    BootstrapMethod.readTable.runOn attr.info
  else return methods

/-- An attribute with a name that is not that of the bootstrap methods. -/
def IsOther (pool : Pool) (attr : Attribute) : Prop :=
  ∃ name, pool.utf8 attr.name = .ok name ∧ name ≠ Attribute.bootstrapMethods

section

variable {pool : Pool} {methods : List BootstrapMethod}

theorem bootstrapsAfter_others {attributes : List Attribute}
    (others : ∀ attr ∈ attributes, IsOther pool attr) :
    attributes.foldlM (bootstrapsAfter pool) methods = .ok methods := by
  induction attributes with
  | nil => rfl
  | cons attr attributes ih =>
    rw [List.forall_mem_cons] at others
    rcases others.1 with ⟨name, found, other⟩
    refine foldlM_cons_eq_ok.mpr ⟨methods, ?_, ih others.2⟩
    exact bind_eq_ok.mpr ⟨name, found, if_neg other⟩

theorem readBootstraps_others {attributes : List Attribute}
    (others : ∀ attr ∈ attributes, IsOther pool attr) :
    readBootstraps pool attributes = .ok [] :=
  bootstrapsAfter_others others

/-- The names of all attributes were looked up. -/
theorem readBootstraps_named {attributes : List Attribute}
    (read : readBootstraps pool attributes = .ok methods) :
    ∀ attr ∈ attributes, ∃ name, pool.utf8 attr.name = .ok name := by
  change attributes.foldlM (bootstrapsAfter pool) [] = _ at read
  generalize ([] : List BootstrapMethod) = already at read
  induction attributes generalizing already with
  | nil => exact fun _ member => absurd member List.not_mem_nil
  | cons attr attributes ih =>
    rcases foldlM_cons_eq_ok.mp read with ⟨next, here, rest⟩
    rcases bind_eq_ok.mp here with ⟨name, isName, -⟩
    exact List.forall_mem_cons.mpr ⟨⟨name, isName⟩, ih next rest⟩

/-- The table is found among other attributes. -/
theorem readBootstraps_table {front back : List Attribute} {table : Attribute}
    (before : ∀ attr ∈ front, IsOther pool attr) (after : ∀ attr ∈ back, IsOther pool attr)
    (named : pool.utf8 table.name = .ok Attribute.bootstrapMethods)
    (encoded : BootstrapMethod.encodeTable methods = .ok table.info) :
    readBootstraps pool (front ++ table :: back) = .ok methods := by
  refine foldlM_append_eq_ok.mpr ⟨[], bootstrapsAfter_others before, ?_⟩
  refine foldlM_cons_eq_ok.mpr ⟨methods, ?_, bootstrapsAfter_others after⟩
  refine bind_eq_ok.mpr ⟨_, named, (if_pos rfl).trans ?_⟩
  exact (BootstrapMethod.reads_table encoded).runOn

end

/-! ## Whole classes -/

theorem reads_optional {start : Nat} {index? : Option PoolIndex} {bytes : Bytes}
    (positive : index? ≠ some 0) (encoded : encodeOptional index? = .ok bytes) :
    Reads readOptional start bytes index? := by
  refine (Constant.reads_index encoded).bind_pure ?_
  cases index? with
  | none => exact .pure none
  | some index =>
    rw [Option.getD_some, if_neg fun none => positive (congrArg some none)]
    exact .pure (some index)

variable {image : ClassImage} {bytes : Bytes}

/-- A class image is read back without its bootstrap methods. -/
theorem read_encode (first : image.pool.constants.start = 1)
    (small : ∀ constant ∈ image.pool.constants.toList, ∀ position,
      constant.bootstrap? = some position → position < 65536)
    (positive : image.superClass ≠ some 0) (encoded : image.encode = .ok bytes) :
    read.runOn bytes =
      .ok { image with pool := .ofLists image.pool.constants.toList [] } := by
  rcases bind_eq_ok.mp encoded with ⟨pool, isPool, rest₁⟩
  rcases bind_eq_ok.mp rest₁ with ⟨thisClass, isThis, rest₂⟩
  rcases bind_eq_ok.mp rest₂ with ⟨superClass, isSuper, rest₃⟩
  rcases bind_eq_ok.mp rest₃ with ⟨interfaces, areInterfaces, rest₄⟩
  rcases bind_eq_ok.mp rest₄ with ⟨fields, areFields, rest₅⟩
  rcases bind_eq_ok.mp rest₅ with ⟨methods, areMethods, rest₆⟩
  rcases bind_eq_ok.mp rest₆ with ⟨attributes, areAttributes, last⟩
  cases last
  rcases Encoding.sequence_eq_ok.mp areInterfaces with ⟨few, indices, all, rfl⟩
  apply ReadsAll.runOn
  simp only [List.append_assoc, Version.encode]
  refine ReadsAll.bind (Reads.take_eq rfl) ?_
  refine ReadsAll.bind (Reads.u2 image.version.minor) ?_
  refine ReadsAll.bind (Reads.u2 image.version.major) ?_
  refine ReadsAll.bind (reads_pool first small isPool) ?_
  refine ReadsAll.bind (Access.reads image.access) ?_
  refine ReadsAll.bind (Constant.reads_index isThis) ?_
  refine ReadsAll.bind (reads_optional positive isSuper) ?_
  refine ReadsAll.bind (Reads.word few) ?_
  refine ReadsAll.bind (Reads.each (fun _ _ _ isPiece _ => Constant.reads_index isPiece) all) ?_
  refine ReadsAll.bind (Member.reads_all areFields) ?_
  refine ReadsAll.bind (Member.reads_all areMethods) ?_
  refine ReadsAll.bind_last (Attribute.reads_all areAttributes) ?_
  refine ReadsAll.atEnd ?_
  intro cursor _
  exact ⟨cursor, rfl⟩

/-- An image that was encoded is parsed, if its attributes hold its bootstrap
methods. -/
theorem parse_encode (first : image.pool.constants.start = 1)
    (small : ∀ constant ∈ image.pool.constants.toList, ∀ position,
      constant.bootstrap? = some position → position < 65536)
    (positive : image.superClass ≠ some 0)
    (bootstraps : readBootstraps (.ofLists image.pool.constants.toList []) image.attributes =
      .ok image.pool.bootstraps.toList) (encoded : image.encode = .ok bytes) :
    parse bytes = .ok { image with
      pool := .ofLists image.pool.constants.toList image.pool.bootstraps.toList } := by
  rw [parse, read_encode first small positive encoded]
  exact bind_eq_ok.mpr ⟨_, rfl, bind_eq_ok.mpr ⟨_, bootstraps, rfl⟩⟩

end ClassImage
end ClassFile
