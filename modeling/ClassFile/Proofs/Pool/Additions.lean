import ClassFile.Proofs.Pool.Requests

namespace ClassFile
namespace Pool

/-!
# Every pool that can be made

A pool starts empty and is added to in any order, where an addition may fail.  All
such pools are grounded.  An addition that answers leaves what it was asked for at
the answered index for good, and made once more, at once or later, it answers the
same and adds nothing.
-/

/-- Something to be added to a pool. -/
inductive Addition
  | utf8 (text : String)
  | integer (value : Int32)
  | float (bits : UInt32)
  | long (value : Int64)
  | double (bits : UInt64)
  | cls (name : String)
  | string (text : String)
  | nameAndType (name descriptor : String)
  | fieldRef (owner name descriptor : String)
  | methodRef (owner name descriptor : String) (ownerIsInterface : Bool)
  | handle (used : Handle)
  | methodType (descriptor : String)
  | module (name : String)
  | package (name : String)
  | bootstrap (method : Handle) (arguments : List Loadable)
  | dynamic (name descriptor : String) (method : Handle) (arguments : List Loadable)
  | invokeDynamic (name descriptor : String) (method : Handle) (arguments : List Loadable)
  | loadable (value : Loadable)

namespace Addition

def request : Addition → Request Nat
  | utf8 text => addUtf8 text
  | integer value => addInteger value
  | float bits => intern (.float bits)
  | long value => intern (.long value)
  | double bits => intern (.double bits)
  | cls name => addClass name
  | string text => addString text
  | nameAndType name descriptor => addNameAndType name descriptor
  | fieldRef owner name descriptor => addFieldRef owner name descriptor
  | methodRef owner name descriptor ownerIsInterface =>
    addMethodRef owner name descriptor ownerIsInterface
  | handle used => addHandle used
  | methodType descriptor => addMethodType descriptor
  | module name => addModule name
  | package name => addPackage name
  | bootstrap method arguments => addBootstrap method arguments
  | dynamic name descriptor method arguments => addDynamic name descriptor method arguments
  | invokeDynamic name descriptor method arguments =>
    addInvokeDynamic name descriptor method arguments
  | loadable value => addLoadable value

/-- An index of a pool, or a position of its bootstrap table, leads to what was
asked for. -/
def Resolves (pool : Pool) (index : Nat) : Addition → Prop
  | utf8 text => pool.utf8 index = .ok text
  | integer value => pool.entry index = .ok (.integer value)
  | float bits => pool.entry index = .ok (.float bits)
  | long value => pool.entry index = .ok (.long value)
  | double bits => pool.entry index = .ok (.double bits)
  | cls name => pool.className index = .ok name
  | string text => pool.value index = .ok (.string text)
  | nameAndType name descriptor => pool.signature index = .ok ⟨name, descriptor⟩
  | fieldRef owner name descriptor =>
    pool.member index = .ok ⟨owner, name, descriptor⟩ ∧
      ∃ cls signature, pool.entry index = .ok (.fieldRef cls signature)
  | methodRef owner name descriptor ownerIsInterface =>
    pool.member index = .ok ⟨owner, name, descriptor⟩ ∧
      ∃ cls signature, pool.entry index = .ok (.methodRef cls signature ownerIsInterface)
  | handle used => pool.handle index = .ok used.normal
  | methodType descriptor =>
    ∃ text, pool.entry index = .ok (.methodType text) ∧ pool.utf8 text = .ok descriptor
  | module name => ∃ text, pool.entry index = .ok (.module text) ∧ pool.utf8 text = .ok name
  | package name => ∃ text, pool.entry index = .ok (.package text) ∧ pool.utf8 text = .ok name
  | bootstrap method arguments =>
    pool.bootstrap index = .ok (method.normal, Loadable.normalAll arguments)
  | dynamic name descriptor method arguments =>
    pool.value index = .ok (Loadable.dynamic name descriptor method arguments).normal
  | invokeDynamic name descriptor method arguments =>
    ∃ position signature, pool.entry index = .ok (.invokeDynamic position signature) ∧
      pool.signature signature = .ok ⟨name, descriptor⟩ ∧
      pool.bootstrap position = .ok (method.normal, Loadable.normalAll arguments)
  | loadable value => pool.value index = .ok value.normal

end Addition

/-- Add things one after the other, those that fail as far as they get. -/
def addAll (pool : Pool) (additions : List Addition) : Pool :=
  additions.foldl (fun pool addition => (addition.request.run pool).2) pool

section

variable {pool : Pool} {position : Nat}

theorem bootstrap_of_denotes (small : pool.bootstraps.size ≤ 65536) {handle : Handle}
    {arguments : List Loadable} (stands : pool.DenotesBootstrap handle arguments position) :
    pool.bootstrap position = .ok (handle.normal, Loadable.normalAll arguments) := by
  rcases stands with ⟨method, found, -, isHandle, all⟩
  have read := values_of_denotesAll small all
  rw [Pool.bootstrap, bootstrapWith, found.getElem? small]
  exact bind_eq_ok.mpr ⟨_, read, bind_eq_ok.mpr ⟨_, isHandle, rfl⟩⟩

end

namespace Addition

/-- An addition keeps pools grounded, and what it answers is there from then on. -/
theorem request_lasts (before : Pool) (addition : Addition) :
    Lasts before addition.request fun pool index =>
      ∀ later, Extends pool later → Grounded later → addition.Resolves later index := by
  cases addition with
  | utf8 text =>
    exact (addUtf8_lasts text).mono fun _ _ _ here _ grown _ => grown.utf8 here
  | integer | float | long | double =>
    exact (intern_plain_lasts rfl rfl).mono fun _ _ _ here _ grown _ => grown.entry here
  | cls name =>
    exact (addClass_lasts name).mono fun _ _ _ here _ grown _ => grown.className here
  | string text =>
    refine (addOfText_lasts (fun _ => rfl) (fun _ => rfl) text).mono ?_
    rintro _ _ - ⟨utf8, here, isText⟩ later grown grounded
    refine @value_of_denotes later grounded.table_small (.string text) _ ?_
    rw [Denotes]
    exact ⟨utf8, grown.entry here, grown.utf8 isText⟩
  | nameAndType name descriptor =>
    exact (addNameAndType_lasts name descriptor).mono fun _ _ _ here _ grown _ =>
      grown.signature here
  | fieldRef owner name descriptor =>
    refine (addFieldRef_lasts owner name descriptor).mono ?_
    rintro _ _ - ⟨isMember, first, second, here⟩ later grown -
    exact ⟨grown.member isMember, first, second, grown.entry here⟩
  | methodRef owner name descriptor ownerIsInterface =>
    refine (addMethodRef_lasts owner name descriptor ownerIsInterface).mono ?_
    rintro _ _ - ⟨isMember, first, second, here⟩ later grown -
    exact ⟨grown.member isMember, first, second, grown.entry here⟩
  | handle used =>
    exact (addHandle_lasts used).mono fun _ _ _ here _ grown _ => grown.handle here
  | methodType text | module text | package text =>
    refine (addOfText_lasts (fun _ => rfl) (fun _ => rfl) text).mono ?_
    rintro _ _ - ⟨utf8, here, isText⟩ later grown -
    exact ⟨utf8, grown.entry here, grown.utf8 isText⟩
  | bootstrap method arguments =>
    exact (addBootstrap_lasts method arguments).mono fun _ _ _ stands _ grown grounded =>
      bootstrap_of_denotes grounded.table_small (grown.denotesBootstrap stands)
  | dynamic name descriptor method arguments =>
    exact (addDynamic_lasts name descriptor method arguments).mono
      fun _ _ _ stands _ grown grounded =>
        value_of_denotes grounded.table_small (grown.denotes _ stands)
  | invokeDynamic name descriptor method arguments =>
    refine (addInvokeDynamic_lasts name descriptor method arguments).mono ?_
    rintro _ _ - ⟨position, signature, here, isSignature, stands⟩ later grown grounded
    exact ⟨position, signature, grown.entry here, grown.signature isSignature,
      bootstrap_of_denotes grounded.table_small (grown.denotesBootstrap stands)⟩
  | loadable value =>
    exact (addLoadable_lasts value).mono fun _ _ _ stands _ grown grounded =>
      value_of_denotes grounded.table_small (grown.denotes value stands)

theorem extends_run (pool : Pool) (addition : Addition) :
    Extends pool (addition.request.run pool).2 ∧
      (Grounded pool → Grounded (addition.request.run pool).2) := by
  rcases addition.request_lasts pool pool (.refl pool) with ⟨answer, after, run, grows, grounded, -⟩
  rw [run]
  exact ⟨grows, grounded⟩

end Addition

theorem extends_addAll (pool : Pool) (additions : List Addition) :
    Extends pool (pool.addAll additions) ∧ (Grounded pool → Grounded (pool.addAll additions)) := by
  induction additions generalizing pool with
  | nil => exact ⟨.refl pool, id⟩
  | cons addition additions ih =>
    rcases addition.extends_run pool with ⟨first, kept⟩
    rcases ih (addition.request.run pool).2 with ⟨rest, kept'⟩
    exact ⟨first.trans rest, kept' ∘ kept⟩

/-- A pool made by additions is grounded.  One more addition only appends, and if
it answers an index, then however much is added after it, the index leads to what
was asked for and the addition gives it again without a change. -/
theorem additions_grounded_lasting (additions : List Addition) :
    Grounded (empty.addAll additions) ∧
      ∀ (addition : Addition) (answer : Except Fault Nat) (after : Pool),
        addition.request.run (empty.addAll additions) = (answer, after) →
        Extends (empty.addAll additions) after ∧ Grounded after ∧
          ∀ index, answer = .ok index → ∀ more : List Addition,
            addition.Resolves (after.addAll more) index ∧
              addition.request.run (after.addAll more) = (.ok index, after.addAll more) := by
  have grounded := (extends_addAll empty additions).2 .empty
  refine ⟨grounded, fun addition answer after run => ?_⟩
  rcases addition.request_lasts (empty.addAll additions) _ (.refl _) with
    ⟨answer', after', run', grows, kept, known⟩
  cases run'.symm.trans run
  refine ⟨grows, kept grounded, fun index same more => ?_⟩
  rcases known index same with ⟨resolves, again⟩
  rcases extends_addAll after more with ⟨further, kept'⟩
  exact ⟨resolves _ further (kept' (kept grounded)), again _ further⟩

/-- A wide number, a type that is none, a name and then its class: the class stands
after the name at index four. -/
theorem additions_grounded_lasting_class :
    let additions := [.long 7, .loadable (.type "Q"), .utf8 "demo/Point"]
    let addition : Addition := .cls "demo/Point"
    let after := (empty.addAll additions).append (.cls 3)
    addition.request.run (empty.addAll additions) = (.ok 4, after) ∧
      after.className 4 = .ok "demo/Point" ∧ addition.request.run after = (.ok 4, after) := by
  intro additions addition after
  let wide := empty.append (.long 7)
  let named := wide.append (.utf8 "demo/Point")
  have isWide : (intern (.long 7)).run empty = (1, wide) :=
    run_intern_of_none ((slots_eq _ _).trans rfl)
  have isText : (intern (.utf8 "demo/Point")).run wide = (3, named) :=
    run_intern_of_none ((slots_eq _ _).trans rfl)
  have isNone : (addLoadable (.type "Q")).run wide =
      (.error (.invalidConstant "Q"), wide) := rfl
  have added : empty.addAll additions = named := by
    simp only [additions, addAll, List.foldl_cons, List.foldl_nil, Addition.request, run_lift,
      isWide, isNone, addUtf8, isText]
  have again : (intern (.utf8 "demo/Point")).run named = (3, named) :=
    run_intern_of_some ((slots_eq _ _).trans rfl)
  have isClass : (addClass "demo/Point").run named = (4, named.append (.cls 3)) := by
    rw [addClass, addUtf8, StateT.run_bind, again]
    exact run_intern_of_none ((slots_eq _ _).trans rfl)
  have run : addition.request.run (empty.addAll additions) = (.ok 4, after) := by
    simp only [addition, after, added, Addition.request, run_lift, isClass]
  have lasting := (additions_grounded_lasting additions).2 addition _ _ run
  exact ⟨run, lasting.2.2 4 rfl []⟩

end Pool
end ClassFile
