import ClassFile.Proofs.Pool.Denotation

namespace ClassFile
namespace Pool

/-!
# Answers last

Every request, made of a pool however far it has grown, lets the pool grow and
keeps it grounded, and what it answers holds of the pool from then on.  Made again
at any later time, it gives the same answer and changes nothing.
-/

/-- A request of any pool that grew out of one.  Its answers have a property in the
pool that it leaves. -/
def Lasts {α : Type} (before : Pool) (request : Request α) (holds : Pool → α → Prop) : Prop :=
  ∀ now, Extends before now → ∃ answer after, request.run now = (answer, after) ∧
    Extends now after ∧ (Grounded now → Grounded after) ∧
    ∀ value, answer = .ok value → holds after value ∧
      ∀ later, Extends after later → request.run later = (.ok value, later)

namespace Lasts

variable {α β : Type} {before : Pool} {request : Request α} {holds : Pool → α → Prop}

theorem pure {value : α} (known : ∀ now, Extends before now → holds now value) :
    Lasts before (Pure.pure value) holds := by
  intro now grown
  refine ⟨.ok value, now, rfl, .refl now, id, ?_⟩
  rintro _ ⟨⟩
  exact ⟨known now grown, fun _ _ => rfl⟩

theorem throw (fault : Fault) : Lasts before (MonadExcept.throw fault) holds :=
  fun now _ => ⟨.error fault, now, rfl, .refl now, id, nofun⟩

theorem bind {next : α → Request β} {result : Pool → β → Prop} (first : Lasts before request holds)
    (second : ∀ now value, Extends before now → holds now value →
      Lasts now (next value) result) : Lasts before (request >>= next) result := by
  intro now grown
  rcases first now grown with ⟨answer, between, run, grows, grounded, known⟩
  have unfolded : ∀ pool, (request >>= next).run pool =
      (ExceptT.bindCont next (request.run pool).1) (request.run pool).2 := fun _ => rfl
  cases answer with
  | error fault =>
    refine ⟨.error fault, between, ?_, grows, grounded, nofun⟩
    rw [unfolded, run]
    rfl
  | ok value =>
    rcases known value rfl with ⟨holds_, again⟩
    rcases second between value (grown.trans grows) holds_ between (.refl between) with
      ⟨answer', after, run', grows', grounded', known'⟩
    refine ⟨answer', after, ?_, grows.trans grows', grounded' ∘ grounded, ?_⟩
    · rw [unfolded, run]
      exact run'
    · intro value' same
      rcases known' value' same with ⟨result_, again'⟩
      refine ⟨result_, fun later grown' => ?_⟩
      rw [unfolded, again later (grows'.trans grown')]
      exact again' later grown'

/-- Steps that cannot fail, one after the other. -/
theorem lift_bind {first : StateM Pool α} {next : α → StateM Pool β} {result : Pool → β → Prop}
    (here : Lasts before (liftM first) holds)
    (there : ∀ now value, Extends before now → holds now value →
      Lasts now (liftM (next value)) result) : Lasts before (liftM (first >>= next)) result :=
  bind here there

/-- What has been checked stays checked. -/
theorem check {checked : Except Fault α} {next : α → Request β} {result : Pool → β → Prop}
    (rest : ∀ value, checked = .ok value → Lasts before (next value) result) :
    Lasts before (liftM checked >>= next) result := by
  cases checked with
  | error fault => exact throw fault
  | ok value => exact rest value rfl

theorem mono {weaker : Pool → α → Prop} (lasts : Lasts before request holds)
    (weaken : ∀ now value, Extends before now → holds now value → weaker now value) :
    Lasts before request weaker := by
  intro now grown
  rcases lasts now grown with ⟨answer, after, run, grows, grounded, known⟩
  refine ⟨answer, after, run, grows, grounded, fun value same => ?_⟩
  rcases known value same with ⟨holds_, again⟩
  exact ⟨weaken after value (grown.trans grows) holds_, again⟩

end Lasts

/-! ## Entries -/

section

variable {before : Pool}

theorem run_lift {α : Type} (request : StateM Pool α) (pool : Pool) :
    (liftM request : Request α).run pool = (.ok (request.run pool).1, (request.run pool).2) :=
  rfl

theorem intern_lasts {constant : Constant} (supports : before.Supports constant) :
    Lasts before (liftM (intern constant)) fun pool index => pool.entry index = .ok constant := by
  intro now grown
  rcases intern_spec now constant with ⟨index, after, run, kept, here, again⟩
  refine ⟨.ok index, after, ?_, ?_, ?_, ?_⟩
  · rw [run_lift, run]
  · rcases kept with rfl | ⟨-, rfl⟩
    · exact .refl after
    · exact .append now constant
  · rcases kept with rfl | ⟨fresh, rfl⟩
    · exact id
    · exact fun grounded => grounded.append fresh (grown.supports supports)
  · rintro _ ⟨⟩
    refine ⟨here, fun later grown' => ?_⟩
    rw [run_lift, again later grown']

/-- Entries that are made of no others. -/
theorem intern_plain_lasts {constant : Constant} (plain : constant.references = [])
    (still : constant.bootstrap? = none) :
    Lasts before (liftM (intern constant)) fun pool index => pool.entry index = .ok constant := by
  apply intern_lasts
  constructor
  · intro index kind member
    rw [plain] at member
    exact absurd member List.not_mem_nil
  · intro position needed
    rw [still] at needed
    cases needed

theorem supports_of_kinds {constant : Constant} (still : constant.bootstrap? = none)
    (refers : ∀ reference ∈ constant.references, before.HasKind reference.1 reference.2) :
    before.Supports constant where
  refers index kind member := refers (index, kind) member
  computed position needed := by
    rw [still] at needed
    cases needed

theorem addUtf8_lasts (text : String) :
    Lasts before (liftM (addUtf8 text)) fun pool index => pool.utf8 index = .ok text :=
  (intern_plain_lasts rfl rfl).mono fun _ _ _ => utf8_eq_ok.mpr

theorem addInteger_lasts (value : Int32) :
    Lasts before (liftM (addInteger value)) fun pool index => pool.entry index = .ok (.integer value) :=
  intern_plain_lasts rfl rfl

/-- An entry made of a text alone. -/
theorem addOfText_lasts {make : PoolIndex → Constant}
    (refers : ∀ index, (make index).references = [(index, .text)])
    (still : ∀ index, (make index).bootstrap? = none) (text : String) :
    Lasts before (liftM (do intern (make (← addUtf8 text)) : StateM Pool PoolIndex))
      fun pool index => ∃ utf8, pool.entry index = .ok (make utf8) ∧ pool.utf8 utf8 = .ok text := by
  apply Lasts.lift_bind (addUtf8_lasts text)
  intro now utf8 _ isText
  refine Lasts.mono (intern_lasts (supports_of_kinds (still utf8) ?_)) ?_
  · simp only [refers, List.forall_mem_singleton]
    exact hasKind_text isText
  · intro after index grown here
    exact ⟨utf8, here, grown.utf8 isText⟩

theorem addClass_lasts (name : String) :
    Lasts before (liftM (addClass name)) fun pool index => pool.className index = .ok name :=
  (addOfText_lasts (fun _ => rfl) (fun _ => rfl) name).mono fun _ _ _ => className_eq_ok.mpr

theorem addNameAndType_lasts (name descriptor : String) :
    Lasts before (liftM (addNameAndType name descriptor))
      fun pool index => pool.signature index = .ok ⟨name, descriptor⟩ := by
  apply Lasts.lift_bind (addUtf8_lasts name)
  intro now first _ isName
  apply Lasts.lift_bind (addUtf8_lasts descriptor)
  intro now second grown isDescriptor
  refine Lasts.mono (intern_lasts (supports_of_kinds rfl ?_)) ?_
  · simp only [Constant.references, List.forall_mem_cons, List.not_mem_nil, false_imp_iff,
      implies_true, and_true]
    exact ⟨grown.hasKind (hasKind_text isName), hasKind_text isDescriptor⟩
  · intro after index grown' here
    exact signature_eq_ok.mpr
      ⟨first, second, here, grown'.utf8 (grown.utf8 isName), grown'.utf8 isDescriptor⟩

/-- A reference to a member, by the class that owns it and its signature. -/
theorem addMember_lasts {make : PoolIndex → PoolIndex → Constant}
    (refers : ∀ owner signature,
      (make owner signature).references = [(owner, .cls), (signature, .signature)])
    (still : ∀ owner signature, (make owner signature).bootstrap? = none)
    (made : ∀ owner signature, RefersTo owner signature (make owner signature))
    (owner name descriptor : String) :
    Lasts before (liftM (do
      intern (make (← addClass owner) (← addNameAndType name descriptor)) : StateM Pool PoolIndex))
      fun pool index => pool.member index = .ok ⟨owner, name, descriptor⟩ ∧
        ∃ first second, pool.entry index = .ok (make first second) := by
  apply Lasts.lift_bind (addClass_lasts owner)
  intro now first _ isOwner
  apply Lasts.lift_bind (addNameAndType_lasts name descriptor)
  intro now second grown isSignature
  refine Lasts.mono (intern_lasts (supports_of_kinds (still first second) ?_)) ?_
  · simp only [refers, List.forall_mem_cons, List.not_mem_nil, false_imp_iff, implies_true,
      and_true]
    exact ⟨grown.hasKind (hasKind_cls isOwner), hasKind_signature isSignature⟩
  · intro after index grown' here
    refine ⟨member_eq_ok.mpr ⟨_, first, second, here, made first second,
      grown'.signature isSignature, grown'.className (grown.className isOwner)⟩, first, second, here⟩

theorem addFieldRef_lasts (owner name descriptor : String) :
    Lasts before (liftM (addFieldRef owner name descriptor))
      fun pool index => pool.member index = .ok ⟨owner, name, descriptor⟩ ∧
        ∃ first second, pool.entry index = .ok (.fieldRef first second) :=
  addMember_lasts (fun _ _ => rfl) (fun _ _ => rfl) (fun _ _ => .inl rfl) owner name descriptor

theorem addMethodRef_lasts (owner name descriptor : String) (ownerIsInterface : Bool) :
    Lasts before (liftM (addMethodRef owner name descriptor ownerIsInterface))
      fun pool index => pool.member index = .ok ⟨owner, name, descriptor⟩ ∧
        ∃ first second, pool.entry index = .ok (.methodRef first second ownerIsInterface) :=
  @addMember_lasts before (fun first second => .methodRef first second ownerIsInterface)
    (fun _ _ => rfl) (fun _ _ => rfl) (fun _ _ => .inr ⟨_, rfl⟩) owner name descriptor

/-! ## Handles and types -/

theorem addHandle_lasts (handle : Handle) :
    Lasts before (liftM (addHandle handle)) fun pool index => pool.handle index = .ok handle.normal := by
  have finish : ∀ {now : Pool} {member : PoolIndex} {constant : Constant} {kind : EntryKind},
      constant.kind? = some kind → (if handle.kind.isField then .field else .method) = kind →
      now.entry member = .ok constant →
      ofInterface constant = handle.normal.ownerIsInterface →
      now.member member = .ok ⟨handle.owner, handle.name, handle.descriptor⟩ →
      Lasts now (liftM (intern (.methodHandle handle.kind member)))
        fun pool index => pool.handle index = .ok handle.normal := by
    intro now member constant kind isKind required here flag isMember
    refine Lasts.mono (intern_lasts (supports_of_kinds rfl ?_)) ?_
    · simp only [Constant.references, List.forall_mem_singleton, required]
      exact ⟨constant, here, isKind⟩
    · intro after index grown found
      exact handle_eq_ok.mpr ⟨member, found,
        ownerIsInterface_eq_ok.mpr ⟨constant, grown.entry here, flag⟩, grown.member isMember⟩
  rw [addHandle]
  by_cases isField : handle.kind.isField = true
  · simp only [if_pos isField]
    apply Lasts.lift_bind (addFieldRef_lasts handle.owner handle.name handle.descriptor)
    rintro now member - ⟨isMember, first, second, here⟩
    refine finish rfl (if_pos isField) here ?_ isMember
    rw [Handle.normal, isField]
    rfl
  · simp only [if_neg isField]
    apply Lasts.lift_bind (addMethodRef_lasts handle.owner handle.name handle.descriptor
      handle.ownerIsInterface)
    rintro now member - ⟨isMember, first, second, here⟩
    refine finish rfl (if_neg isField) here ?_ isMember
    rw [Bool.not_eq_true] at isField
    rw [Handle.normal, isField]
    cases handle.ownerIsInterface <;> rfl

theorem addType_lasts (descriptor : String) :
    Lasts before (addType descriptor) fun pool index => pool.DenotesType descriptor index := by
  rw [addType]
  split
  · exact (addOfText_lasts (fun _ => rfl) (fun _ => rfl) descriptor).mono fun _ _ _ => .inl
  · split
    · next type parsed =>
      rcases Option.filter_eq_some_iff.mp parsed with ⟨spelled, reference⟩
      refine (addClass_lasts type.internalName).mono fun now index _ here => .inr ⟨_, here, ?_⟩
      rw [typeDescriptor_internalName reference, FieldType.descriptor_of_parse spelled]
    · exact .throw _

/-! ## Bootstrap methods -/

section

variable {pool : Pool} {method : BootstrapMethod}

theorem run_internBootstrap_of_some {place : Nat} (found : pool.positions[method]? = some place) :
    (internBootstrap method).run pool = (.ok (place % 65536), pool) := by
  rw [internBootstrap, run_get_bind]
  simp only [found]
  rfl

theorem run_internBootstrap_of_none (missing : pool.positions[method]? = none) :
    (internBootstrap method).run pool =
      if pool.bootstraps.size < 65536 then
        (.ok pool.bootstraps.size, pool.appendBootstrap method)
      else (.error (.invalidConstant "more than 65535 bootstrap methods"), pool) := by
  rw [internBootstrap, run_get_bind]
  simp only [missing, run_get_bind]
  split <;> rfl

theorem bootstraps_of_position {place : Nat} (found : pool.positions[method]? = some place) :
    pool.bootstraps[place]? = some method := by
  rw [positions_eq, List.findIdx?_eq_some_iff_getElem] at found
  rcases found with ⟨inside, same, -⟩
  rw [← Array.getElem?_toList, List.getElem?_eq_getElem inside, eq_of_beq same]

theorem not_mem_of_position_none (missing : pool.positions[method]? = none) :
    method ∉ pool.bootstraps.toList := by
  rw [positions_eq, List.findIdx?_eq_none_iff] at missing
  intro member
  have different := missing method member
  rw [beq_self_eq_true] at different
  cases different

theorem positions_appendBootstrap (missing : pool.positions[method]? = none) :
    (pool.appendBootstrap method).positions[method]? = some pool.bootstraps.size := by
  change (pool.positions.insertIfNew method pool.bootstraps.size)[method]? = _
  rw [getElem_insertIfNew_eq_or, missing, beq_self_eq_true]
  rfl

end

theorem internBootstrap_lasts {method : BootstrapMethod}
    (handle : before.HasKind method.handle .handle)
    (arguments : ∀ argument ∈ method.arguments,
      ∃ constant, before.entry argument = .ok constant ∧ constant.isLoadable = true) :
    Lasts before (internBootstrap method) fun pool position =>
      pool.HasBootstrap position method ∧ position < pool.bootstraps.size := by
  -- An entry is computed by bootstrap methods that are there when it is.
  have loadable : ∀ now, Extends before now → Grounded now →
      ∀ argument ∈ method.arguments, now.HasLoadable now.bootstraps.size argument := by
    intro now grown grounded argument member
    rcases arguments argument member with ⟨constant, here, isLoadable⟩
    have there := grown.entry here
    exact ⟨constant, there, isLoadable, grounded.computed argument constant (entry_eq_ok.mp there)⟩
  have again : ∀ {after : Pool} {place : Nat}, after.positions[method]? = some place →
      ∀ later, Extends after later →
        (internBootstrap method).run later = (.ok (place % 65536), later) :=
    fun found later grown => run_internBootstrap_of_some (grown.position found)
  intro now grown
  cases found : now.positions[method]? with
  | some place =>
    refine ⟨_, now, run_internBootstrap_of_some found, .refl now, id, ?_⟩
    rintro _ ⟨⟩
    have there := bootstraps_of_position found
    have inside := (Array.getElem?_eq_some_iff.mp there).1
    exact ⟨⟨⟨place, there, rfl⟩, Nat.lt_of_le_of_lt (Nat.mod_le _ _) inside⟩, again found⟩
  | none =>
    rw [run_internBootstrap_of_none found]
    split
    · next small =>
      have added := positions_appendBootstrap found
      refine ⟨_, _, rfl, .appendBootstrap now method, fun grounded => ?_, ?_⟩
      · exact grounded.appendBootstrap (not_mem_of_position_none found) small
          (grown.hasKind handle) (loadable now grown grounded)
      · rintro _ ⟨⟩
        have there := bootstraps_of_position added
        have inside := (Array.getElem?_eq_some_iff.mp there).1
        have repeated := again added
        rw [Nat.mod_eq_of_lt small] at repeated
        exact ⟨⟨⟨_, there, Nat.mod_eq_of_lt small⟩, inside⟩, repeated⟩
    · exact ⟨_, now, rfl, .refl now, id, nofun⟩

/-! ## Values -/

theorem denotes_loadable {pool : Pool} {value : Loadable} {index : PoolIndex}
    (stands : pool.Denotes value index) :
    ∃ constant, pool.entry index = .ok constant ∧ constant.isLoadable = true := by
  cases value with
  | string text =>
    rw [Denotes] at stands
    rcases stands with ⟨utf8, here, -⟩
    exact ⟨_, here, rfl⟩
  | type descriptor =>
    rw [Denotes] at stands
    rcases stands with ⟨text, here, -⟩ | ⟨name, here, -⟩
    · exact ⟨_, here, rfl⟩
    · rcases className_eq_ok.mp here with ⟨text, isClass, -⟩
      exact ⟨_, isClass, rfl⟩
  | handle handle =>
    rw [Denotes] at stands
    rcases handle_eq_ok.mp stands with ⟨member, here, -⟩
    exact ⟨_, here, rfl⟩
  | dynamic name descriptor bootstrap arguments =>
    rw [Denotes] at stands
    rcases stands with ⟨position, signature, method, here, -⟩
    exact ⟨_, here, rfl⟩
  | _ =>
    rw [Denotes] at stands
    exact ⟨_, stands, rfl⟩

theorem denotesAll_loadable {pool : Pool} {values : List Loadable} {indices : List PoolIndex}
    (stand : pool.DenotesAll values indices) :
    ∀ index ∈ indices, ∃ constant, pool.entry index = .ok constant ∧ constant.isLoadable = true := by
  induction values generalizing indices with
  | nil =>
    rw [DenotesAll] at stand
    subst stand
    exact fun _ member => absurd member List.not_mem_nil
  | cons value values ih =>
    rw [DenotesAll] at stand
    rcases stand with ⟨index, rest, rfl, here, there⟩
    exact List.forall_mem_cons.mpr ⟨denotes_loadable here, ih there⟩

/-- A bootstrap method with its handle and arguments stands at a position. -/
def DenotesBootstrap (pool : Pool) (bootstrap : Handle) (arguments : List Loadable)
    (position : Nat) : Prop :=
  ∃ method, pool.HasBootstrap position method ∧ position < pool.bootstraps.size ∧
    pool.handle method.handle = .ok bootstrap.normal ∧ pool.DenotesAll arguments method.arguments

theorem Extends.denotesBootstrap {after : Pool} (extends_ : Extends before after)
    {bootstrap : Handle} {arguments : List Loadable} {position : Nat}
    (stands : before.DenotesBootstrap bootstrap arguments position) :
    after.DenotesBootstrap bootstrap arguments position := by
  rcases stands with ⟨method, found, inside, isHandle, all⟩
  exact ⟨method, extends_.hasBootstrap found, Nat.lt_of_lt_of_le inside extends_.size_le,
    extends_.handle isHandle, extends_.denotesAll arguments all⟩

/-- A bootstrap method whose arguments have been checked. -/
theorem addBootstrapEntry_lasts (bootstrap : Handle) {arguments : List Loadable}
    (all : ∀ now, Lasts now (addAllChecked arguments)
      fun pool indices => pool.DenotesAll arguments indices) :
    Lasts before (do
      let handle ← addHandle bootstrap
      internBootstrap ⟨handle, ← addAllChecked arguments⟩)
      fun pool position => pool.DenotesBootstrap bootstrap arguments position := by
  apply Lasts.bind (addHandle_lasts bootstrap)
  intro now handle _ isHandle
  apply Lasts.bind (all now)
  intro now indices grown stand
  have handleThere := grown.handle isHandle
  have isKind : now.HasKind handle .handle := by
    rcases handle_eq_ok.mp handleThere with ⟨member, here, -⟩
    exact ⟨_, here, rfl⟩
  refine Lasts.mono (internBootstrap_lasts isKind (denotesAll_loadable stand)) ?_
  rintro after position grown' ⟨found, inside⟩
  exact ⟨_, found, inside, grown'.handle handleThere, grown'.denotesAll arguments stand⟩

/-- An entry that is computed or linked by a bootstrap method. -/
theorem addComputed_lasts {make : PoolIndex → Constant} {position : Nat}
    (refers : ∀ signature, (make signature).references = [(signature, .signature)])
    (computed : ∀ signature, (make signature).bootstrap? = some position)
    (inside : position < before.bootstraps.size) (name descriptor : String) :
    Lasts before
      (do intern (make (← addNameAndType name descriptor)) : Request PoolIndex)
      fun pool index => ∃ signature, pool.entry index = .ok (make signature) ∧
        pool.signature signature = .ok ⟨name, descriptor⟩ := by
  apply Lasts.bind (addNameAndType_lasts name descriptor)
  intro now signature grown isSignature
  refine Lasts.mono (intern_lasts ?_) fun after index grown' here =>
    ⟨signature, here, grown'.signature isSignature⟩
  constructor
  · intro index kind member
    rw [refers, List.mem_singleton, Prod.mk.injEq] at member
    rcases member with ⟨rfl, rfl⟩
    exact hasKind_signature isSignature
  · intro other needed
    rw [computed, Option.some.injEq] at needed
    rw [← needed]
    exact Nat.lt_of_lt_of_le inside grown.size_le

theorem dynamic_lasts {position : Nat} {bootstrap : Handle} {arguments : List Loadable}
    (stands : before.DenotesBootstrap bootstrap arguments position) (name descriptor : String) :
    Lasts before
      (do intern (.dynamic position (← addNameAndType name descriptor)) : Request PoolIndex)
      fun pool index => pool.Denotes (.dynamic name descriptor bootstrap arguments) index := by
  have inside : position < before.bootstraps.size := by
    rcases stands with ⟨method, -, inside, -⟩
    exact inside
  refine Lasts.mono (addComputed_lasts (fun _ => rfl) (fun _ => rfl) inside name descriptor) ?_
  rintro after index grown ⟨signature, here, isSignature⟩
  rcases grown.denotesBootstrap stands with ⟨method, found, -, isHandle, all⟩
  rw [Denotes]
  exact ⟨position, signature, method, here, isSignature, found, isHandle, all⟩

mutual

theorem addChecked_lasts (before : Pool) (value : Loadable) :
    Lasts before (addChecked value) fun pool index => pool.Denotes value index := by
  cases value with
  | string text =>
    simp only [addChecked, Denotes]
    exact addOfText_lasts (fun _ => rfl) (fun _ => rfl) text
  | type descriptor =>
    simp only [addChecked, Denotes]
    exact addType_lasts descriptor
  | handle handle =>
    simp only [addChecked, Denotes]
    exact addHandle_lasts handle
  | dynamic name descriptor bootstrap arguments =>
    have all := fun now => addAllChecked_lasts now arguments
    have entry := Lasts.bind (@addBootstrapEntry_lasts before bootstrap arguments all)
      fun _ _ _ stands => dynamic_lasts stands name descriptor
    simp only [bind_assoc] at entry
    rw [addChecked]
    exact entry
  | _ =>
    simp only [addChecked, Denotes]
    exact intern_plain_lasts rfl rfl

theorem addAllChecked_lasts (before : Pool) (values : List Loadable) :
    Lasts before (addAllChecked values) fun pool indices => pool.DenotesAll values indices := by
  cases values with
  | nil =>
    simp only [addAllChecked, DenotesAll]
    exact Lasts.pure fun _ _ => rfl
  | cons value values =>
    simp only [addAllChecked, DenotesAll]
    apply Lasts.bind (addChecked_lasts before value)
    intro now index _ here
    apply Lasts.bind (addAllChecked_lasts now values)
    intro now rest grown there
    exact Lasts.pure fun later grown' => ⟨index, rest, rfl,
      grown'.denotes value (grown.denotes value here), grown'.denotesAll values there⟩

end

theorem addLoadable_lasts (value : Loadable) :
    Lasts before (addLoadable value) fun pool index => pool.Denotes value index :=
  Lasts.check fun _ _ => addChecked_lasts before value

theorem addBootstrap_lasts (bootstrap : Handle) (arguments : List Loadable) :
    Lasts before (addBootstrap bootstrap arguments)
      fun pool position => pool.DenotesBootstrap bootstrap arguments position :=
  Lasts.check fun _ _ =>
    addBootstrapEntry_lasts bootstrap fun now => addAllChecked_lasts now arguments

theorem addDynamic_lasts (name descriptor : String) (bootstrap : Handle)
    (arguments : List Loadable) :
    Lasts before (addDynamic name descriptor bootstrap arguments)
      fun pool index => pool.Denotes (.dynamic name descriptor bootstrap arguments) index :=
  Lasts.bind (addBootstrap_lasts bootstrap arguments) fun _ _ _ stands =>
    dynamic_lasts stands name descriptor

/-- A call site stands at an index. -/
def DenotesCallSite (pool : Pool) (name descriptor : String) (bootstrap : Handle)
    (arguments : List Loadable) (index : PoolIndex) : Prop :=
  ∃ position signature, pool.entry index = .ok (.invokeDynamic position signature) ∧
    pool.signature signature = .ok ⟨name, descriptor⟩ ∧
    pool.DenotesBootstrap bootstrap arguments position

theorem addInvokeDynamic_lasts (name descriptor : String) (bootstrap : Handle)
    (arguments : List Loadable) :
    Lasts before (addInvokeDynamic name descriptor bootstrap arguments)
      fun pool index => pool.DenotesCallSite name descriptor bootstrap arguments index := by
  apply Lasts.bind (addBootstrap_lasts bootstrap arguments)
  rintro now position - stands
  have inside : position < now.bootstraps.size := by
    rcases stands with ⟨method, -, inside, -⟩
    exact inside
  refine Lasts.mono (addComputed_lasts (fun _ => rfl) (fun _ => rfl) inside name descriptor) ?_
  rintro after index grown ⟨signature, here, isSignature⟩
  exact ⟨position, signature, here, isSignature, grown.denotesBootstrap stands⟩

end

end Pool
end ClassFile
