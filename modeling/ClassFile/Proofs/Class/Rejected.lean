import ClassFile.Proofs.Class.Sessions
import ClassFile.Proofs.Pool.Positions

namespace ClassFile

/-!
# Pieces that are rejected

A piece of a method that fails is skipped, and recording goes on with the next one.  It has left
the method as it was.  It has left the pool as it was, too, because a piece checks its texts before
it adds constants, with two exceptions.  The arguments of an interface call are counted when the
reference to the method has been added, and that the bootstrap table is full is only found out when
a position in it is needed.

Where neither happens, the pieces that fail might as well be left out.
-/

theorem CallKind.mode_eq_none_iff {kind : CallKind} {method : MethodDescriptor} :
    kind.mode? method = none ↔ kind = .interface ∧ 256 ≤ method.parameterWidth true := by
  cases kind with
  | interface =>
    rw [mode?, ite_eq_right_iff]
    simp
  | _ => simp [mode?]

namespace Record

open Pool (Exhausts Addition)

variable {α β : Type} {count : Nat}

theorem run_symbol {request : Pool.Request α} {now : State} {answer : Except Fault α} {pool : Pool}
    (run : request.run now.pool = (answer, pool)) :
    (symbol request).run now = (answer, ⟨pool, now.draft⟩) := by
  have unfolded : (symbol request).run now =
      ((request.run now.pool).1, ⟨(request.run now.pool).2, now.draft⟩) := rfl
  rw [unfolded, run]

/-- A recording that answers, whatever there is, and leaves the pool alone. -/
def Steady (action : Record α) : Prop :=
  ∀ now, ∃ value draft, action.run now = (.ok value, ⟨now.pool, draft⟩)

namespace Steady

theorem pure (value : α) : Steady (Pure.pure value) :=
  fun now => ⟨value, now.draft, rfl⟩

theorem get : Steady MonadState.get :=
  fun now => ⟨now, now.draft, rfl⟩

theorem update (change : MethodDraft → MethodDraft) : Steady (Record.update change) :=
  fun now => ⟨⟨⟩, change now.draft, rfl⟩

theorem item (item : Item) : Steady (Record.item item) :=
  update fun draft => draft.add item

theorem bind {action : Record α} {next : α → Record β} (first : Steady action)
    (second : ∀ value, Steady (next value)) : Steady (action >>= next) := by
  intro now
  rcases first now with ⟨value, draft, run⟩
  rcases second value ⟨now.pool, draft⟩ with ⟨value', draft', run'⟩
  exact ⟨value', draft', (run_bind_of_ok run).trans run'⟩

end Steady

/-- What came of a recording that may take some positions.  If it failed, it has changed nothing, or
nothing but the pool and only for want of a position. -/
structure Settled (count : Nat) (before : State) (answer : Except Fault α) (after : State) :
    Prop where
  spent : after.pool.bootstraps.size ≤ before.pool.bootstraps.size + count
  failed : ∀ fault, answer = .error fault →
    after = before ∨ after.draft = before.draft ∧ Exhausts count before.pool after.pool fault

/-- A recording takes some positions at most, and where it fails it has checked all that it can
before it changed anything. -/
def Tidy (count : Nat) (action : Record α) : Prop :=
  ∀ before answer after, action.run before = (answer, after) → Settled count before answer after

namespace Tidy

theorem of_steady {action : Record α} (steady : Steady action) : Tidy 0 action := by
  intro before answer after run
  rcases steady before with ⟨value, draft, run'⟩
  cases run'.symm.trans run
  exact ⟨Nat.le_refl _, fun _ failed => by cases failed⟩

theorem symbol (addition : Addition) : Tidy addition.positions (symbol addition.request) := by
  intro before answer after run
  rcases ran : addition.request.run before.pool with ⟨answer', pool⟩
  cases (run_symbol ran).symm.trans run
  have spent := (addition.size_run_le before.pool).2
  rw [ran] at spent
  refine ⟨spent, fun fault failed => ?_⟩
  subst failed
  rcases Addition.run_eq_error ran with ⟨-, rfl⟩ | ⟨-, exhausts, -⟩
  · exact .inl rfl
  · exact .inr ⟨rfl, exhausts⟩

theorem check {checked : Except Fault α} {next : α → Record β}
    (rest : ∀ value, checked = .ok value → Tidy count (next value)) :
    Tidy count (liftM checked >>= next) := by
  cases checked with
  | ok value => exact rest value rfl
  | error fault =>
    intro before answer after run
    cases run
    exact ⟨Nat.le_add_right _ _, fun _ _ => .inl rfl⟩

/-- What cannot fail may follow. -/
theorem bind {action : Record α} {next : α → Record β} (tidy : Tidy count action)
    (steady : ∀ value, Steady (next value)) : Tidy count (action >>= next) := by
  intro before answer after run
  rcases ran : action.run before with ⟨fault | value, between⟩
  · cases (run_bind_of_error ran).symm.trans run
    have outcome := tidy before _ _ ran
    exact ⟨outcome.spent, fun _ failed => by cases failed; exact outcome.failed fault rfl⟩
  · rcases steady value between with ⟨value', draft, run'⟩
    cases run'.symm.trans ((run_bind_of_ok ran).symm.trans run)
    exact ⟨(tidy before _ _ ran).spent, fun _ failed => by cases failed⟩

end Tidy

/-- The reference to a method with too many arguments for an interface call is there when the call
is rejected. -/
theorem run_invoke_tooWide {owner name descriptor : String} {ownerIsInterface : Bool}
    {method : MethodDescriptor} (parsed : MethodDescriptor.parse descriptor = .ok method)
    (wide : 256 ≤ method.parameterWidth true) (now : State) :
    ∃ pool index, (invoke .interface owner name descriptor ownerIsInterface).run now =
        (.error (.invalidDescriptor descriptor), ⟨pool, now.draft⟩) ∧
      pool.member index = .ok ⟨owner, name, descriptor⟩ ∧
      ∃ cls signature, pool.entry index = .ok (.methodRef cls signature ownerIsInterface) := by
  rcases Pool.addMethodRef_lasts owner name descriptor ownerIsInterface now.pool (.refl _) with
    ⟨answer, pool, run, -, -, known⟩
  cases answer with
  | error =>
    rw [Pool.run_lift, Prod.mk.injEq] at run
    cases run.1
  | ok index =>
    have isParsed : (liftM (MethodDescriptor.parse descriptor) : Record MethodDescriptor).run now =
        (.ok method, now) := by
      rw [parsed]
      rfl
    have uncounted := CallKind.mode_eq_none_iff.mpr ⟨rfl, wide⟩
    refine ⟨pool, index, ?_, (known index rfl).1⟩
    rw [invoke, run_bind_of_ok isParsed, run_bind_of_ok (run_symbol run), uncounted]
    rfl

end Record

namespace MethodPiece

open Record

/-- The positions of bootstrap methods that a piece takes at most. -/
def positions : MethodPiece → Nat
  | invokeDynamic _ _ _ arguments => Loadable.positionsAll arguments + 1
  | load value => value.positions
  | _ => 0

def positionsAll : List MethodPiece → Nat
  | [] => 0
  | piece :: rest => piece.positions + positionsAll rest

/-- The arguments of an interface call take more slots than it can state. -/
def TooWide : MethodPiece → Prop
  | invoke .interface _ _ descriptor _ =>
    ∃ method, MethodDescriptor.parse descriptor = .ok method ∧ 256 ≤ method.parameterWidth true
  | _ => False

theorem record_tidy (piece : MethodPiece) (fits : ¬ piece.TooWide) :
    Tidy piece.positions piece.record := by
  cases piece with
  | label | instruction | branch | lookupSwitch | frame => exact .of_steady (.item _)
  | newLabel =>
    exact .of_steady ((Steady.get.bind fun _ => (Steady.update _).bind fun _ => .pure _).bind
      fun _ => .pure _)
  | returnResult => exact .of_steady (Steady.get.bind fun _ => .item _)
  | pushInt value =>
    rw [record, Record.pushInt]
    split
    · exact .of_steady (.item _)
    · exact (Tidy.symbol (.integer value)).bind fun _ => .item _
  | accessField access owner name descriptor =>
    exact .check fun _ _ => (Tidy.symbol (.fieldRef owner name descriptor)).bind fun _ => .item _
  | invoke kind owner name descriptor ownerIsInterface =>
    refine .check fun method parsed =>
      (Tidy.symbol (.methodRef owner name descriptor ownerIsInterface)).bind fun _ => ?_
    cases counted : kind.mode? method with
    | some mode => exact .item _
    | none =>
      rcases CallKind.mode_eq_none_iff.mp counted with ⟨rfl, wide⟩
      exact absurd ⟨method, parsed, wide⟩ fits
  | invokeDynamic name descriptor method arguments =>
    exact .check fun _ _ =>
      (Tidy.symbol (.invokeDynamic name descriptor method arguments)).bind fun _ => .item _
  | withClass op name => exact (Tidy.symbol (.cls name)).bind fun _ => .item _
  | newMultiArray descriptor dimensions =>
    exact .check fun _ _ => (Tidy.symbol (.cls descriptor)).bind fun _ => .item _
  | load value =>
    exact .check fun _ _ => (Tidy.symbol (.loadable value)).bind fun _ => .item _
  | handler start stop entry catches =>
    cases catches with
    | none => exact .of_steady fun _ => ⟨⟨⟩, _, rfl⟩
    | some name => exact ((Tidy.symbol (.cls name)).bind fun _ => .pure _).bind fun _ => .update _
  | limits found =>
    rw [record, Record.limits]
    exact .of_steady (.update _)
  | attach name info => exact (Tidy.symbol (.utf8 name)).bind fun _ => .update _

/-- A piece that fails has changed nothing, or nothing but the pool.  Then it is an interface call
with too many arguments, or there was no position left for a bootstrap method. -/
theorem record_eq_error {piece : MethodPiece} {now after : State} {fault : Fault}
    (failed : piece.record.run now = (.error fault, after)) :
    after = now ∨ after.draft = now.draft ∧ Pool.Extends now.pool after.pool ∧
      (piece.TooWide ∨ Pool.Exhausts piece.positions now.pool after.pool fault) := by
  have grows : Pool.Extends now.pool (piece.record.run now).2.pool :=
    (piece.along_record now).pool.extends_
  rw [failed] at grows
  by_cases wide : piece.TooWide
  · refine .inr ⟨?_, grows, .inl wide⟩
    unfold TooWide at wide
    split at wide
    · rcases wide with ⟨method, parsed, wide⟩
      rcases run_invoke_tooWide parsed wide now with ⟨pool, index, run, -⟩
      cases run.symm.trans failed
      rfl
    · exact wide.elim
  · rcases (piece.record_tidy wide now _ _ failed).failed fault rfl with same | ⟨same, exhausts⟩
    · exact .inl same
    · exact .inr ⟨same, grows, .inr exhausts⟩

/-- With as many positions left as it may take, a piece that is no such call has changed nothing
when it fails. -/
theorem record_atomic {piece : MethodPiece} (fits : ¬ piece.TooWide) {now after : State}
    (room : now.pool.bootstraps.size + piece.positions ≤ 65536) {fault : Fault}
    (failed : piece.record.run now = (.error fault, after)) : after = now := by
  rcases record_eq_error failed with same | ⟨-, -, wide | exhausts⟩
  · exact same
  · exact absurd wide fits
  · have short := exhausts.short
    omega

/-! ## Recording without what fails -/

/-- A failure is caught, and recording goes on from where it was left. -/
theorem run_recordAll_cons (piece : MethodPiece) (pieces : List MethodPiece) (now : State) :
    (recordAll (piece :: pieces)).run now = (recordAll pieces).run (piece.record.run now).2 := by
  have caught : (tryCatch piece.record fun _ => return () : Record Unit).run now =
      (.ok ⟨⟩, (piece.record.run now).2) := by
    rw [Along.run_catch]
    split <;> rfl
  exact run_bind_of_ok caught

/-- The pieces that do not fail, each recorded after those before it. -/
def accepted : State → List MethodPiece → List MethodPiece
  | _, [] => []
  | now, piece :: pieces =>
    match piece.record.run now with
    | (.ok _, after) => piece :: accepted after pieces
    | (.error _, after) => accepted after pieces

/-- Pieces that fail might as well be left out, where none of them is an interface call with too
many arguments and there are positions left for all. -/
theorem recordAll_accepted {pieces : List MethodPiece} (fits : ∀ piece ∈ pieces, ¬ piece.TooWide)
    {now : State} (room : now.pool.bootstraps.size + positionsAll pieces ≤ 65536) :
    (recordAll pieces).run now = ((accepted now pieces).forM record).run now := by
  induction pieces generalizing now with
  | nil => rfl
  | cons piece pieces ih =>
    rw [List.forall_mem_cons] at fits
    rw [positionsAll] at room
    rw [run_recordAll_cons, accepted]
    rcases ran : piece.record.run now with ⟨fault | ⟨⟩, after⟩
    · have same := record_atomic fits.1 (by omega) ran
      subst same
      have left : after.pool.bootstraps.size + positionsAll pieces ≤ 65536 := by omega
      exact ih fits.2 left
    · have spent := (piece.record_tidy fits.1 now _ _ ran).spent
      have left : after.pool.bootstraps.size + positionsAll pieces ≤ 65536 := by omega
      have front : ((piece :: accepted after pieces).forM record).run now =
          ((accepted after pieces).forM record).run after := run_bind_of_ok ran
      exact (ih fits.2 left).trans front.symm

end MethodPiece
end ClassFile
