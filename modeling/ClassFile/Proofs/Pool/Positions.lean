import ClassFile.Proofs.Pool.Additions

namespace ClassFile

/-!
# Positions of bootstrap methods

Whether the types in a request are descriptors is found out by its check, before
anything is added.  Past that, all that a request can run out of are positions of the
bootstrap table.  A value takes one for each constant in it that is computed, or none
where there is such a bootstrap method already.

So a request that fails has either left the pool alone or found the table full.  A full
table is only noticed when the handle and the arguments of the bootstrap method are
there, and these stay.
-/

namespace Loadable

mutual

/-- The positions that the bootstrap methods of a value take at most. -/
def positions : Loadable → Nat
  | dynamic _ _ _ arguments => positionsAll arguments + 1
  | _ => 0

def positionsAll : List Loadable → Nat
  | [] => 0
  | value :: rest => value.positions + positionsAll rest

end

end Loadable

namespace Pool

/-! ## Requests that add entries alone -/

section

variable {α β : Type}

/-- A request grows a pool without touching its bootstrap table. -/
def AddsEntries (request : StateM Pool α) : Prop :=
  ∀ pool, Extends pool (request.run pool).2 ∧ (request.run pool).2.bootstraps = pool.bootstraps

theorem AddsEntries.bind {request : StateM Pool α} {next : α → StateM Pool β}
    (first : AddsEntries request) (second : ∀ value, AddsEntries (next value)) :
    AddsEntries (request >>= next) := by
  intro pool
  have here := first pool
  have there := second (request.run pool).1 (request.run pool).2
  exact ⟨here.1.trans there.1, there.2.trans here.2⟩

theorem intern_addsEntries (constant : Constant) : AddsEntries (intern constant) := by
  intro pool
  cases found : pool.slots[constant]? with
  | some slot =>
    rw [run_intern_of_some found]
    exact ⟨.refl pool, rfl⟩
  | none =>
    rw [run_intern_of_none found]
    exact ⟨.append pool constant, rfl⟩

/-- An entry made of a text alone. -/
theorem addOfText_addsEntries (make : PoolIndex → Constant) (text : String) :
    AddsEntries (do intern (make (← addUtf8 text))) :=
  (intern_addsEntries _).bind fun _ => intern_addsEntries _

theorem addNameAndType_addsEntries (name descriptor : String) :
    AddsEntries (addNameAndType name descriptor) :=
  (intern_addsEntries _).bind fun _ => (intern_addsEntries _).bind fun _ => intern_addsEntries _

theorem addMember_addsEntries (make : PoolIndex → PoolIndex → Constant)
    (owner name descriptor : String) :
    AddsEntries (do intern (make (← addClass owner) (← addNameAndType name descriptor))) :=
  (addOfText_addsEntries _ owner).bind fun _ =>
    (addNameAndType_addsEntries name descriptor).bind fun _ => intern_addsEntries _

theorem addHandle_addsEntries (handle : Handle) : AddsEntries (addHandle handle) := by
  rw [addHandle]
  split
  · exact (addMember_addsEntries _ _ _ _).bind fun _ => intern_addsEntries _
  · exact (addMember_addsEntries _ _ _ _).bind fun _ => intern_addsEntries _

end

/-! ## Requests that take positions -/

/-- The fault of a request that finds no position left. -/
def noPosition : Fault :=
  .invalidConstant "more than 65535 bootstrap methods"

/-- A request that may take some positions has failed for want of one. -/
structure Exhausts (count : Nat) (before after : Pool) (fault : Fault) : Prop where
  fault_eq : fault = noPosition
  full : 65536 ≤ after.bootstraps.size
  needed : 0 < count
  short : 65536 < before.bootstraps.size + count

/-- What a request that may take some positions did: no position past the last one was given
out. -/
structure Spent {α : Type} (count : Nat) (before : Pool) (answer : Except Fault α) (after : Pool) :
    Prop where
  extends_ : Extends before after
  bounded : after.bootstraps.size ≤ max before.bootstraps.size 65536
  spent : after.bootstraps.size ≤ before.bootstraps.size + count
  failed : ∀ fault, answer = .error fault → Exhausts count before after fault

/-- A request takes some positions at most, and fails only where there are fewer. -/
def Spends {α : Type} (count : Nat) (request : Request α) : Prop :=
  ∀ before answer after, request.run before = (answer, after) → Spent count before answer after

namespace Spends

variable {α β : Type} {first second : Nat}

theorem pure (value : α) : Spends 0 (Pure.pure value) := by
  rintro before _ _ ⟨⟩
  exact ⟨.refl before, Nat.le_max_left _ _, Nat.le_refl _, fun _ failed => by cases failed⟩

theorem lift {request : StateM Pool α} (adds : AddsEntries request) :
    Spends 0 (liftM request) := by
  intro before answer after run
  cases (run_lift request before).symm.trans run
  have kept := congrArg Array.size (adds before).2
  exact ⟨(adds before).1, by omega, by omega, fun _ failed => by cases failed⟩

theorem bind {request : Request α} {next : α → Request β} (here : Spends first request)
    (there : ∀ value, Spends second (next value)) : Spends (first + second) (request >>= next) := by
  intro before answer after run
  rcases ran : request.run before with ⟨fault | value, between⟩
  · have outcome := here before _ _ ran
    cases (run_bind_of_error ran).symm.trans run
    have exhausts := outcome.failed fault rfl
    have spent := outcome.spent
    refine ⟨outcome.extends_, outcome.bounded, by omega, ?_⟩
    rintro _ ⟨⟩
    have short := exhausts.short
    exact ⟨exhausts.fault_eq, exhausts.full, Nat.add_pos_left exhausts.needed _, by omega⟩
  · have outcome := here before _ _ ran
    have onward := there value between answer after ((run_bind_of_ok ran).symm.trans run)
    have bounded := outcome.bounded
    have bounded' := onward.bounded
    have spent := outcome.spent
    have spent' := onward.spent
    refine ⟨outcome.extends_.trans onward.extends_, by omega, by omega, fun fault failed => ?_⟩
    have exhausts := onward.failed fault failed
    have short := exhausts.short
    exact ⟨exhausts.fault_eq, exhausts.full, Nat.add_pos_right _ exhausts.needed, by omega⟩

end Spends

theorem internBootstrap_spends (method : BootstrapMethod) : Spends 1 (internBootstrap method) := by
  intro before answer after run
  cases found : before.positions[method]? with
  | some place =>
    cases (run_internBootstrap_of_some found).symm.trans run
    exact ⟨.refl before, Nat.le_max_left _ _, Nat.le_succ _, fun _ failed => by cases failed⟩
  | none =>
    rw [run_internBootstrap_of_none found] at run
    split at run
    · next small =>
      cases run
      have pushed : (before.appendBootstrap method).bootstraps.size = before.bootstraps.size + 1 :=
        Array.size_push method
      exact ⟨.appendBootstrap before method, by omega, by omega, fun _ failed => by cases failed⟩
    · next full =>
      cases run
      refine ⟨.refl before, Nat.le_max_left _ _, Nat.le_succ _, ?_⟩
      rintro _ ⟨⟩
      exact ⟨rfl, Nat.le_of_not_lt full, Nat.one_pos, Nat.lt_succ_of_le (Nat.le_of_not_lt full)⟩

theorem addType_spends {descriptor : String} (good : Loadable.checkType descriptor = .ok ()) :
    Spends 0 (addType descriptor) := by
  rw [addType]
  split
  · exact .lift (addOfText_addsEntries _ _)
  · next notMethod =>
    rw [Loadable.checkType, if_neg notMethod] at good
    cases parsed : FieldType.parseReference? descriptor with
    | some type => exact .lift (addOfText_addsEntries _ _)
    | none =>
      rw [parsed] at good
      cases good

/-- An entry with a signature that is computed or linked. -/
theorem addComputed_spends (make : PoolIndex → Constant) (name descriptor : String) :
    Spends 0 (do intern (make (← addNameAndType name descriptor)) : Request PoolIndex) :=
  (Spends.lift (addNameAndType_addsEntries name descriptor)).bind fun _ =>
    .lift (intern_addsEntries _)

/-- A bootstrap method takes one more position than its arguments. -/
theorem addBootstrapEntry_spends (bootstrap : Handle) {arguments : List Loadable} {count : Nat}
    (all : Spends count (addAllChecked arguments)) :
    Spends (count + 1) (do
      let handle ← addHandle bootstrap
      internBootstrap ⟨handle, ← addAllChecked arguments⟩) := by
  have entry := (Spends.lift (addHandle_addsEntries bootstrap)).bind fun handle =>
    all.bind fun indices => internBootstrap_spends ⟨handle, indices⟩
  rwa [Nat.zero_add] at entry

mutual

theorem addChecked_spends (value : Loadable) (good : value.check = .ok ()) :
    Spends value.positions (addChecked value) := by
  cases value with
  | string text =>
    rw [addChecked, Loadable.positions]
    · exact .lift (addOfText_addsEntries _ _)
    · simp
  | type descriptor =>
    rw [addChecked, Loadable.positions]
    · rw [Loadable.check] at good
      exact addType_spends good
    · simp
  | handle handle =>
    rw [addChecked, Loadable.positions]
    · exact .lift (addHandle_addsEntries handle)
    · simp
  | dynamic name descriptor bootstrap arguments =>
    rw [Loadable.check] at good
    have all := addAllChecked_spends arguments good
    have entry := (addBootstrapEntry_spends bootstrap all).bind fun position =>
      addComputed_spends (.dynamic position) name descriptor
    simp only [bind_assoc] at entry
    rw [addChecked, Loadable.positions]
    exact entry
  | _ =>
    rw [addChecked, Loadable.positions]
    · exact .lift (intern_addsEntries _)
    · simp

theorem addAllChecked_spends (values : List Loadable) (good : Loadable.checkAll values = .ok ()) :
    Spends (Loadable.positionsAll values) (addAllChecked values) := by
  cases values with
  | nil =>
    rw [addAllChecked, Loadable.positionsAll]
    exact .pure []
  | cons value values =>
    rw [Loadable.checkAll, bind_eq_ok] at good
    rcases good with ⟨⟨⟩, first, rest⟩
    rw [addAllChecked, Loadable.positionsAll]
    exact (addChecked_spends value first).bind fun index =>
      (addAllChecked_spends values rest).bind fun indices => .pure (index :: indices)

end

theorem addBootstrap_spends (bootstrap : Handle) {arguments : List Loadable}
    (good : Loadable.checkAll arguments = .ok ()) :
    Spends (Loadable.positionsAll arguments + 1) (addBootstrap bootstrap arguments) := by
  rw [addBootstrap, good]
  exact addBootstrapEntry_spends bootstrap (addAllChecked_spends arguments good)

/-- A computed constant is the same request as a value and by its parts. -/
theorem addLoadable_dynamic (name descriptor : String) (bootstrap : Handle)
    (arguments : List Loadable) :
    addLoadable (.dynamic name descriptor bootstrap arguments) =
      addDynamic name descriptor bootstrap arguments := by
  rw [addLoadable, addDynamic, addBootstrap, Loadable.check, addChecked]
  simp only [bind_assoc]

/-! ## What is left of a request that fails -/

/-- What was there in the middle of a request is there after it. -/
theorem Spends.extends_bind {α β : Type} {count : Nat} (request : Request α) {next : α → Request β}
    (onward : ∀ value, Spends count (next value)) (pool : Pool) :
    Extends (request.run pool).2 ((request >>= next).run pool).2 := by
  rcases ran : request.run pool with ⟨fault | value, between⟩
  · rw [run_bind_of_error ran]
    exact .refl between
  · rw [run_bind_of_ok ran]
    exact (onward value between _ _ rfl).extends_

/-- The handle of a bootstrap method is there whatever became of the method. -/
theorem addBootstrap_leaves_handle (bootstrap : Handle) {arguments : List Loadable}
    (good : Loadable.checkAll arguments = .ok ()) (pool : Pool) :
    ∃ index,
      ((addBootstrap bootstrap arguments).run pool).2.handle index = .ok bootstrap.normal := by
  rcases addHandle_lasts bootstrap pool (.refl pool) with ⟨answer, between, run, -, -, known⟩
  have onward := fun handle => (addAllChecked_spends arguments good).bind fun indices =>
    internBootstrap_spends ⟨handle, indices⟩
  have grown := Spends.extends_bind (addHandle bootstrap) onward pool
  rw [run] at grown
  rw [addBootstrap, good]
  cases run
  exact ⟨_, grown.handle (known _ rfl).1⟩

theorem length_of_denotesAll {pool : Pool} {values : List Loadable} {indices : List PoolIndex}
    (stand : pool.DenotesAll values indices) : indices.length = values.length := by
  induction values generalizing indices with
  | nil =>
    rw [DenotesAll] at stand
    subst stand
    rfl
  | cons value values ih =>
    rw [DenotesAll] at stand
    rcases stand with ⟨index, rest, rfl, -, there⟩
    rw [List.length_cons, List.length_cons, ih there]

/-- A full table refuses a bootstrap method with a number of arguments that none of its methods
has, and the handle of that method stays in the pool. -/
theorem addBootstrap_of_full {pool : Pool} (full : 65536 ≤ pool.bootstraps.size)
    (bootstrap : Handle) {arguments : List Loadable}
    (good : Loadable.checkAll arguments = .ok ())
    (different : ∀ method ∈ pool.bootstraps.toList, method.arguments.length ≠ arguments.length) :
    ∃ after index, (addBootstrap bootstrap arguments).run pool = (.error noPosition, after) ∧
      after.handle index = .ok bootstrap.normal := by
  rcases addBootstrap_leaves_handle bootstrap good pool with ⟨index, here⟩
  rcases addBootstrap_lasts bootstrap arguments pool (.refl pool) with
    ⟨answer, after, run, grows, -, known⟩
  have outcome := addBootstrap_spends bootstrap good pool _ _ run
  rw [run] at here
  cases answer with
  | error fault =>
    rw [(outcome.failed fault rfl).fault_eq] at run
    exact ⟨after, index, run, here⟩
  | ok position =>
    -- The table has not grown, so the method that was found is one of those with other arguments.
    rcases (known position rfl).1 with ⟨method, ⟨place, found, -⟩, -, -, all⟩
    have fits : after.bootstraps.toList.length ≤ pool.bootstraps.toList.length := by
      have bounded := outcome.bounded
      rwa [Nat.max_eq_left full] at bounded
    have member : method ∈ after.bootstraps.toList :=
      Array.mem_toList_iff.2 (Array.mem_of_getElem? found)
    rw [← grows.bootstraps.eq_of_length_le fits] at member
    exact absurd (length_of_denotesAll all) (different method member)

/-- So does a table that is full of one method, in a pool that had no entries before. -/
theorem addBootstrap_of_repeated {count : Nat} (full : 65536 ≤ count) (bootstrap : Handle)
    (value : Int32) : ∃ after index,
      (addBootstrap bootstrap [.integer value]).run (ofLists [] (List.replicate count ⟨0, []⟩)) =
        (.error noPosition, after) ∧ after.handle index = .ok bootstrap.normal := by
  have table := bootstraps_ofLists [] (List.replicate count ⟨0, []⟩)
  apply addBootstrap_of_full
  · rwa [table, List.size_toArray, List.length_replicate]
  · rfl
  · intro method member
    rw [table] at member
    rw [List.eq_of_mem_replicate member]
    exact Nat.zero_ne_one

namespace Addition

/-- What is found out before anything is added. -/
def check : Addition → Except Fault Unit
  | bootstrap _ arguments | dynamic _ _ _ arguments | invokeDynamic _ _ _ arguments =>
    Loadable.checkAll arguments
  | loadable value => value.check
  | _ => .ok ()

/-- The positions that an addition takes at most. -/
def positions : Addition → Nat
  | bootstrap _ arguments | dynamic _ _ _ arguments | invokeDynamic _ _ _ arguments =>
    Loadable.positionsAll arguments + 1
  | loadable value => value.positions
  | _ => 0

/-- The handle of the bootstrap method that an addition asks a position for. -/
def bootstrap? : Addition → Option Handle
  | bootstrap method _ | dynamic _ _ method _ | invokeDynamic _ _ method _
  | loadable (.dynamic _ _ method _) => some method
  | _ => none

theorem request_spends (addition : Addition) (good : addition.check = .ok ()) :
    Spends addition.positions addition.request := by
  cases addition with
  | bootstrap method arguments => exact addBootstrap_spends method good
  | dynamic name descriptor method arguments =>
    exact (addBootstrap_spends method good).bind fun position =>
      addComputed_spends (.dynamic position) name descriptor
  | invokeDynamic name descriptor method arguments =>
    exact (addBootstrap_spends method good).bind fun position =>
      addComputed_spends (.invokeDynamic position) name descriptor
  | loadable value =>
    change value.check = .ok () at good
    rw [request, addLoadable, good]
    exact addChecked_spends value good
  | handle used => exact .lift (addHandle_addsEntries used)
  | nameAndType name descriptor => exact .lift (addNameAndType_addsEntries name descriptor)
  | fieldRef | methodRef => exact .lift (addMember_addsEntries _ _ _ _)
  | cls | string | methodType | module | package => exact .lift (addOfText_addsEntries _ _)
  | _ => exact .lift (intern_addsEntries _)

/-- What does not pass its check leaves the pool alone. -/
theorem run_of_check_error {addition : Addition} {fault : Fault}
    (bad : addition.check = .error fault) (pool : Pool) :
    addition.request.run pool = (.error fault, pool) := by
  have stops : ∀ arguments method, Loadable.checkAll arguments = .error fault →
      (addBootstrap method arguments).run pool = (.error fault, pool) := by
    intro arguments method bad
    rw [addBootstrap, bad]
    rfl
  cases addition with
  | bootstrap method arguments => exact stops arguments method bad
  | dynamic name descriptor method arguments => exact run_bind_of_error (stops arguments method bad)
  | invokeDynamic name descriptor method arguments =>
    exact run_bind_of_error (stops arguments method bad)
  | loadable value =>
    change value.check = .error fault at bad
    rw [request, addLoadable, bad]
    rfl
  | _ => cases bad

/-- Positions up to the last one are given out, no more than an addition may take. -/
theorem size_run_le (addition : Addition) (pool : Pool) :
    (addition.request.run pool).2.bootstraps.size ≤ max pool.bootstraps.size 65536 ∧
      (addition.request.run pool).2.bootstraps.size ≤
        pool.bootstraps.size + addition.positions := by
  cases checked : addition.check with
  | error fault =>
    rw [run_of_check_error checked]
    exact ⟨Nat.le_max_left _ _, Nat.le_add_right _ _⟩
  | ok =>
    have outcome := addition.request_spends checked pool _ _ rfl
    exact ⟨outcome.bounded, outcome.spent⟩

theorem leaves_handle {addition : Addition} (good : addition.check = .ok ()) {method : Handle}
    (asks : addition.bootstrap? = some method) (pool : Pool) :
    ∃ index, (addition.request.run pool).2.handle index = .ok method.normal := by
  have computed : ∀ (make : Nat → PoolIndex → Constant) (name descriptor : String) arguments,
      Loadable.checkAll arguments = .ok () → ∃ index,
        ((do
          let position ← addBootstrap method arguments
          intern (make position (← addNameAndType name descriptor)) :
            Request PoolIndex).run pool).2.handle index = .ok method.normal := by
    intro make name descriptor arguments good
    rcases addBootstrap_leaves_handle method good pool with ⟨index, here⟩
    exact ⟨index, (Spends.extends_bind _
      (fun position => addComputed_spends (make position) name descriptor) pool).handle here⟩
  unfold bootstrap? at asks
  split at asks
  · cases asks
    exact addBootstrap_leaves_handle method good pool
  · cases asks
    exact computed .dynamic _ _ _ good
  · cases asks
    exact computed .invokeDynamic _ _ _ good
  · cases asks
    rw [request, addLoadable_dynamic]
    rw [check, Loadable.check] at good
    exact computed .dynamic _ _ _ good
  · cases asks

/-- What asks for no position takes none. -/
theorem positions_eq_zero {addition : Addition} (asks : addition.bootstrap? = none) :
    addition.positions = 0 := by
  cases addition with
  | loadable value =>
    cases value with
    | dynamic => cases asks
    | _ =>
      rw [positions, Loadable.positions]
      simp
  | bootstrap | dynamic | invokeDynamic => cases asks
  | _ => rfl

/-- An addition that fails has not passed its check and has left the pool alone, or the table is
full.  Then it had asked for a position with fewer of them left than it may take, and what it had
added by then is there, with the handle of its bootstrap method. -/
theorem run_eq_error {addition : Addition} {pool after : Pool} {fault : Fault}
    (failed : addition.request.run pool = (.error fault, after)) :
    addition.check = .error fault ∧ after = pool ∨
      addition.check = .ok () ∧ Exhausts addition.positions pool after fault ∧ Extends pool after ∧
        ∃ method index, addition.bootstrap? = some method ∧
          after.handle index = .ok method.normal := by
  cases checked : addition.check with
  | error other =>
    cases (run_of_check_error checked pool).symm.trans failed
    exact .inl ⟨rfl, rfl⟩
  | ok =>
    have outcome := addition.request_spends checked pool _ _ failed
    have exhausts := outcome.failed fault rfl
    refine .inr ⟨rfl, exhausts, outcome.extends_, ?_⟩
    cases asks : addition.bootstrap? with
    | none =>
      have needed := exhausts.needed
      rw [positions_eq_zero asks] at needed
      exact absurd needed (Nat.lt_irrefl 0)
    | some method =>
      rcases leaves_handle checked asks pool with ⟨index, here⟩
      rw [failed] at here
      exact ⟨method, index, rfl, here⟩

/-- With as many positions left as it may take, an addition fails only as its check does, and
then it leaves the pool alone. -/
theorem atomic_of_room (addition : Addition) {pool : Pool}
    (room : pool.bootstraps.size + addition.positions ≤ 65536) :
    (∃ fault, addition.check = .error fault ∧ addition.request.run pool = (.error fault, pool)) ∨
      addition.check = .ok () ∧ ∃ index after, addition.request.run pool = (.ok index, after) := by
  cases checked : addition.check with
  | error fault => exact .inl ⟨fault, rfl, run_of_check_error checked pool⟩
  | ok =>
    refine .inr ⟨rfl, ?_⟩
    rcases run : addition.request.run pool with ⟨fault | index, after⟩
    · have short := ((addition.request_spends checked pool _ _ run).failed fault rfl).short
      omega
    · exact ⟨index, after, rfl⟩

end Addition

/-- Additions that do not pass their check might as well be left out. -/
theorem addAll_checked (additions : List Addition) (pool : Pool) :
    pool.addAll (additions.filter fun addition => addition.check.isOk) = pool.addAll additions := by
  induction additions generalizing pool with
  | nil => rfl
  | cons addition additions ih =>
    have next : pool.addAll (addition :: additions) =
        (addition.request.run pool).2.addAll additions := rfl
    cases checked : addition.check with
    | error fault =>
      rw [next, Addition.run_of_check_error checked, List.filter_cons_of_neg, ih]
      rw [checked]
      exact Bool.false_ne_true
    | ok =>
      rw [next, List.filter_cons_of_pos]
      · exact ih _
      · rw [checked]
        rfl

end Pool
end ClassFile
