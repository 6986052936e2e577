import Mathlib.Order.Defs.Unbundled
import ClassFile.Code.Recording
import ClassFile.Proofs.Pool.Requests

namespace ClassFile

/-!
# Pools only grow

Recording a method and assembling its code, whatever comes of it, add entries to the
pool and keep it grounded.  That a computation takes its state along a relation is
put together from its steps.

The relation is a preorder, so that nothing has to happen and one step can follow
another.  Unlike what is said of a success, this also holds where a step fails, and
so survives where failures are caught.
-/

/-- Whether it succeeds or fails, a computation takes each state to a related one. -/
def Along {σ α : Type} (relation : σ → σ → Prop) (action : ExceptT Fault (StateM σ) α) : Prop :=
  ∀ now, relation now (action.run now).2

namespace Along

section

variable {σ α β : Type} {relation : σ → σ → Prop} [IsPreorder σ relation]

theorem pure (value : α) : Along relation (Pure.pure value) :=
  fun now => refl_of relation now

theorem throw (fault : Fault) : Along relation (MonadExcept.throw fault : ExceptT Fault (StateM σ) α) :=
  fun now => refl_of relation now

theorem lift (answer : Except Fault α) : Along relation (liftM answer) := by
  cases answer with
  | ok value => exact pure value
  | error fault => exact throw fault

theorem get : Along relation (MonadState.get : ExceptT Fault (StateM σ) σ) :=
  fun now => refl_of relation now

theorem bind {action : ExceptT Fault (StateM σ) α} {next : α → ExceptT Fault (StateM σ) β}
    (first : Along relation action) (second : ∀ value, Along relation (next value)) :
    Along relation (action >>= next) := by
  intro now
  have unfolded : (action >>= next).run now =
      (ExceptT.bindCont next (action.run now).1) (action.run now).2 := rfl
  have here := first now
  rw [unfolded]
  rcases ran : action.run now with ⟨_ | value, between⟩
  · rw [ran] at here
    exact here
  · rw [ran] at here
    exact trans_of relation here (second value between)

omit [IsPreorder σ relation] in
theorem mono {weaker : σ → σ → Prop} {action : ExceptT Fault (StateM σ) α}
    (along : Along relation action)
    (weaken : ∀ before after, relation before after → weaker before after) : Along weaker action :=
  fun now => weaken _ _ (along now)

omit [IsPreorder σ relation] in
theorem ite {condition : Prop} [Decidable condition] {first second : ExceptT Fault (StateM σ) α}
    (yes : Along relation first) (no : Along relation second) :
    Along relation (if condition then first else second) := by
  split
  · exact yes
  · exact no

/-- Two computations that go on in the same way. -/
theorem ite_bind {condition : Prop} [Decidable condition] {first second : ExceptT Fault (StateM σ) α}
    {next : α → ExceptT Fault (StateM σ) β} (yes : Along relation first) (no : Along relation second)
    (after : ∀ value, Along relation (next value)) :
    Along relation (if condition then first >>= next else second >>= next) :=
  ite (yes.bind after) (no.bind after)

/-- A failure under a condition before what comes next. -/
theorem unless_bind {condition : Prop} [Decidable condition] {fault : Fault}
    {next : PUnit → ExceptT Fault (StateM σ) β} (after : ∀ value, Along relation (next value)) :
    Along relation (if condition then MonadExcept.throw fault >>= next else next ⟨⟩) :=
  ite ((throw fault).bind after) (after ⟨⟩)

theorem map {action : ExceptT Fault (StateM σ) α} (change : α → β) (along : Along relation action) :
    Along relation (change <$> action) := by
  rw [← bind_pure_comp]
  exact along.bind fun value => pure (change value)

theorem run_catch {action : ExceptT Fault (StateM σ) α}
    {rescue : Fault → ExceptT Fault (StateM σ) α} (now : σ) :
    (tryCatch action rescue : ExceptT Fault (StateM σ) α).run now =
      match (action.run now).1 with
      | .ok value => (.ok value, (action.run now).2)
      | .error fault => (rescue fault).run (action.run now).2 := by
  rcases ran : action.run now with ⟨_ | _, _⟩
  all_goals
    simp only [tryCatch, tryCatchThe, MonadExceptOf.tryCatch, ExceptT.tryCatch, ExceptT.run_mk]
    change StateT.run (_ >>= _) now = _
    rw [StateT.run_bind]
    change StateT.run action now = _ at ran
    rw [ran]
    rfl

/-- What follows a failure goes on from where it was left. -/
theorem catch_ {action : ExceptT Fault (StateM σ) α} {rescue : Fault → ExceptT Fault (StateM σ) α}
    (first : Along relation action) (second : ∀ fault, Along relation (rescue fault)) :
    Along relation (tryCatch action rescue) := by
  intro now
  have here := first now
  rw [run_catch]
  split
  · exact here
  · exact trans_of relation here (second _ _)

theorem mapM {step : α → ExceptT Fault (StateM σ) β} (along : ∀ value, Along relation (step value))
    (values : List α) : Along relation (values.mapM step) := by
  induction values with
  | nil => exact pure []
  | cons value values ih =>
    rw [List.mapM_cons]
    exact (along value).bind fun _ => ih.bind fun _ => pure _

theorem forIn {step : α → β → ExceptT Fault (StateM σ) (ForInStep β)}
    (along : ∀ value state, Along relation (step value state)) (values : List α) (start : β) :
    Along relation (ForIn.forIn values start step) := by
  induction values generalizing start with
  | nil => exact pure start
  | cons value values ih =>
    rw [List.forIn_cons]
    refine (along value start).bind fun answer => ?_
    cases answer with
    | done last => exact pure last
    | yield next => exact ih next

theorem mapM_option {step : α → ExceptT Fault (StateM σ) β}
    (along : ∀ value, Along relation (step value)) (value? : Option α) :
    Along relation (value?.mapM step) := by
  cases value? with
  | none => exact pure none
  | some value => exact (along value).map some

end

end Along

namespace Pool

/-- Entries may have been added, and a grounded pool stayed grounded. -/
structure Grows (before after : Pool) : Prop where
  extends_ : Extends before after
  grounded : Grounded before → Grounded after

instance : IsPreorder Pool Grows where
  refl pool := ⟨.refl pool, id⟩
  trans _ _ _ first second := ⟨first.extends_.trans second.extends_, second.grounded ∘ first.grounded⟩

theorem Lasts.along {α : Type} {request : Request α} {holds : Pool → α → Prop}
    (lasts : ∀ before, Lasts before request holds) : Along Grows request := by
  intro now
  rcases lasts now now (.refl now) with ⟨answer, after, run, grows, grounded, -⟩
  rw [run]
  exact ⟨grows, grounded⟩

end Pool

/-! ## Assembling -/

/-- Assembling lets the pool grow. -/
def Assembler.State.Grows (before after : Assembler.State) : Prop :=
  Pool.Grows before.pool after.pool

instance : IsPreorder Assembler.State Assembler.State.Grows where
  refl now := refl_of Pool.Grows now.pool
  trans _ _ _ first second := trans_of Pool.Grows first second

namespace Assembler

open Assembler.State

theorem along_symbol {α : Type} {request : Pool.Request α} (along : Along Pool.Grows request) :
    Along Grows (symbol request) :=
  fun now => along now.pool

theorem along_query {α : Type} (question : Hierarchy.Query α) : Along Grows (query question) :=
  fun now => refl_of Pool.Grows now.pool

theorem along_written (offsets : Array Nat) (frame : BlockFrame) :
    Along Grows (StackMap.written offsets frame) := by
  have type : ∀ type : BlockType, Along Grows (type.mapM
      (fun name => symbol (Pool.addClass name)) fun site => StackMap.siteOffset offsets site) := by
    intro type
    cases type with
    | object name =>
      exact (along_symbol (Pool.Lasts.along fun _ => Pool.addClass_lasts name)).bind fun _ => .pure _
    | uninitialized site => exact (Along.lift _).bind fun _ => .pure _
    | _ => exact .pure _
  exact (Along.mapM type _).bind fun _ => (Along.mapM type _).bind fun _ => .pure _

theorem along_ofFrames (method : MethodContext) (offsets : Array Nat)
    (frames : List (Nat × BlockFrame)) : Along Grows (StackMap.ofFrames method offsets frames) := by
  refine (Along.mapM (fun frame => ?_) frames).bind fun _ => ?_
  · exact (along_written offsets frame.2).bind fun _ => .pure _
  · exact Along.get.bind fun _ => (Along.lift _).bind fun _ => (Along.lift _).bind fun _ => .pure _

theorem along_stackMapAttribute (entries : List StackMapEntry) :
    Along Grows (Assembly.stackMapAttribute entries) :=
  (along_symbol (Pool.Lasts.along fun _ => Pool.addUtf8_lasts _)).bind fun _ =>
    (Along.lift _).bind fun _ => .pure _

theorem along_assemble (body : MethodBody) (method : MethodContext) (mode : ComputeMode)
    (wantsFrames : Bool) : Along Grows (body.assemble method mode wantsFrames) := by
  refine (Along.lift _).bind fun graph => Along.get.bind fun now => ?_
  refine Along.ite_bind (Along.lift _) (.pure _) fun limits => ?_
  refine Along.ite_bind (along_query _) (.pure _) fun frames => ?_
  refine Along.ite_bind (Along.lift _) (.pure _) fun blocks => ?_
  refine Along.unless_bind fun _ => ?_
  refine (Along.lift _).bind fun bytes => ?_
  refine Along.ite ?_ ((Along.pure _).bind fun _ => .pure _)
  refine (along_ofFrames _ _ _).bind fun entries => ?_
  exact (along_stackMapAttribute entries).bind fun _ => (Along.pure _).bind fun _ => .pure _

end Assembler
end ClassFile
