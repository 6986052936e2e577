import ClassFile.Frame.Inference
import ClassFile.Proofs.Hierarchy.Questions

namespace ClassFile

/-!
# Causes of failure that cannot occur

A computation that can fail is put together from parts, and fails for the reasons for
which its parts do.  Here that is followed through the reading of class files and the
questions to a hierarchy.  Whatever the files hold, none of these blames a value for not
coming from a `new`, or a stack for its height.  Only a chain of superclasses can be found
to have no end.
-/

/-- A computation fails for reasons of one kind only. -/
def FailsOnly {α : Type} (kind : Fault → Prop) (result : Except Fault α) : Prop :=
  ∀ fault, result = .error fault → kind fault

/-- Anything but an uninitialized value that does not come from `new`. -/
def Fault.SparesSites (fault : Fault) : Prop :=
  ∀ block, fault ≠ .malformed (.notFromNew block)

/-- Anything but a pool that is too large, or an index that is too large to be written. -/
def Fault.SparesPool : Fault → Prop
  | .poolOverflow _ | .codec .longPool | .codec (.wideIndex _) => False
  | _ => True

/-- What reading a class file, a constant or a text may fail for.  It leaves out what only
whole methods fail for, and what only writing fails for. -/
def Fault.Plain : Fault → Prop
  | .malformed (.notFromNew _) | .incompatibleHeights .. | .endless _ => False
  | .poolOverflow _ | .codec .longPool | .codec (.wideIndex _) => False
  | _ => True

/-- What a question about superclasses may fail for, which may have no end. -/
def Fault.OfQuestion (fault : Fault) : Prop :=
  fault.Plain ∨ ∃ what, fault = .endless what

theorem Fault.Plain.spares {fault : Fault} (plain : fault.Plain) : fault.SparesSites := by
  rintro block rfl
  exact plain

theorem Fault.Plain.sparesPool {fault : Fault} (plain : fault.Plain) : fault.SparesPool := by
  unfold SparesPool
  split
  case h_4 => trivial
  all_goals exact plain

theorem Fault.OfQuestion.sparesPool {fault : Fault} (asked : fault.OfQuestion) :
    fault.SparesPool := by
  rcases asked with plain | ⟨what, rfl⟩
  · exact plain.sparesPool
  · trivial

theorem Fault.OfQuestion.spares {fault : Fault} (asked : fault.OfQuestion) : fault.SparesSites := by
  rintro block rfl
  obtain plain | ⟨what, same⟩ := asked
  · exact plain
  · cases same

theorem Fault.OfQuestion.compatible {fault : Fault} (asked : fault.OfQuestion)
    (block expected found : Nat) : fault ≠ .incompatibleHeights block expected found := by
  rintro rfl
  obtain plain | ⟨what, same⟩ := asked
  · exact plain
  · cases same

section

variable {α β : Type} {kind : Fault → Prop}

namespace FailsOnly

theorem ok (value : α) : FailsOnly kind (.ok value) :=
  fun _ run => by cases run

theorem error {fault : Fault} (here : kind fault) : FailsOnly kind (.error fault : Except Fault α) :=
  fun _ run => by
    cases run
    exact here

theorem mono {result : Except Fault α} {wider : Fault → Prop} (fails : FailsOnly kind result)
    (widen : ∀ fault, kind fault → wider fault) : FailsOnly wider result :=
  fun fault run => widen fault (fails fault run)

theorem bind {first : Except Fault α} {next : α → Except Fault β} (failsFirst : FailsOnly kind first)
    (failsNext : ∀ value, first = .ok value → FailsOnly kind (next value)) :
    FailsOnly kind (first >>= next) := by
  cases first with
  | ok value => exact failsNext value rfl
  | error fault => exact error (failsFirst fault rfl)

theorem map {result : Except Fault α} (change : α → β) (fails : FailsOnly kind result) :
    FailsOnly kind (change <$> result) := by
  cases result with
  | ok value => exact ok _
  | error fault => exact error (fails fault rfl)

theorem mapM_of_mem {step : α → Except Fault β} {values : List α}
    (each : ∀ value ∈ values, FailsOnly kind (step value)) : FailsOnly kind (values.mapM step) := by
  induction values with
  | nil => exact ok _
  | cons value values ih =>
    rw [List.forall_mem_cons] at each
    rw [List.mapM_cons]
    exact each.1.bind fun _ _ => (ih each.2).bind fun _ _ => ok _

theorem mapM {step : α → Except Fault β} (each : ∀ value, FailsOnly kind (step value))
    (values : List α) : FailsOnly kind (values.mapM step) :=
  mapM_of_mem fun value _ => each value

theorem mapMOption {step : α → Except Fault β} (each : ∀ value, FailsOnly kind (step value))
    (value? : Option α) : FailsOnly kind (value?.mapM step) := by
  cases value? with
  | none => exact ok _
  | some value => exact (each value).map some

theorem foldlM {step : β → α → Except Fault β} (each : ∀ state value, FailsOnly kind (step state value))
    (values : List α) (start : β) : FailsOnly kind (values.foldlM step start) := by
  induction values generalizing start with
  | nil => exact ok _
  | cons value values ih =>
    rw [List.foldlM_cons]
    exact (each start value).bind fun next _ => ih next

/-- What is done next if a check does not fail. -/
theorem check {condition : Prop} [Decidable condition] {fault : Fault} (here : kind fault)
    {next : PUnit → Except Fault α} (rest : ∀ done, FailsOnly kind (next done)) :
    FailsOnly kind (if condition then throw fault >>= next else next ⟨⟩) := by
  split
  · exact error here
  · exact rest ⟨⟩

/-! ### Encodings -/

variable {one : α → Except Fault Bytes} {parts : List α}

theorem index {index : PoolIndex} (wide : 65536 ≤ index → kind (.codec (.wideIndex index))) :
    FailsOnly kind (Encoding.index index) := by
  rw [Encoding.index]
  split
  · exact ok _
  · next large => exact error (wide (Nat.le_of_not_lt large))

theorem each (every : ∀ part ∈ parts, FailsOnly kind (one part)) :
    FailsOnly kind (Encoding.each one parts) :=
  (mapM_of_mem every).map List.flatten

theorem sequence (long : ∀ length, kind (.codec (.sequenceTooLong length)))
    (every : ∀ part ∈ parts, FailsOnly kind (one part)) :
    FailsOnly kind (Encoding.sequence one parts) := by
  rw [Encoding.sequence]
  split
  · exact (each every).bind fun _ _ => ok _
  · exact error (long _)

end FailsOnly

end

/-! ## Computations that change a state -/

section

variable {σ α β : Type} {kind : Fault → Prop} {before : σ}

theorem failsOnly_run_bind {first : ExceptT Fault (StateM σ) α}
    {next : α → ExceptT Fault (StateM σ) β} (start : FailsOnly kind (first.run before).1)
    (onward : ∀ value between, first.run before = (.ok value, between) →
      FailsOnly kind ((next value).run between).1) :
    FailsOnly kind ((first >>= next).run before).1 := by
  rcases run : first.run before with ⟨value | value, between⟩
  · rw [run_bind_of_error run]
    rw [run] at start
    exact .error (start value rfl)
  · rw [run_bind_of_ok run]
    exact onward value between run

theorem failsOnly_run_lift {value : Except Fault α} (fails : FailsOnly kind value) :
    FailsOnly kind ((liftM value : ExceptT Fault (StateM σ) α).run before).1 := by
  rw [run_lift]
  exact fails

theorem failsOnly_run_pure {value : α} :
    FailsOnly kind ((pure value : ExceptT Fault (StateM σ) α).run before).1 :=
  .ok value

theorem failsOnly_run_mapM {step : α → ExceptT Fault (StateM σ) β}
    (each : ∀ value now, FailsOnly kind ((step value).run now).1) (values : List α) :
    FailsOnly kind ((values.mapM step).run before).1 := by
  induction values generalizing before with
  | nil => exact failsOnly_run_pure
  | cons value values ih =>
    rw [List.mapM_cons]
    refine failsOnly_run_bind (each value before) fun _ _ _ => ?_
    exact failsOnly_run_bind ih fun _ _ _ => failsOnly_run_pure

/-- Wherever it starts, a computation fails for reasons of one kind only. -/
def FailsOnlyFor (kind : Fault → Prop) (action : ExceptT Fault (StateM σ) α) : Prop :=
  ∀ now, FailsOnly kind (action.run now).1

namespace FailsOnlyFor

variable {action : ExceptT Fault (StateM σ) α} {next : α → ExceptT Fault (StateM σ) β}

theorem pure (value : α) : FailsOnlyFor kind (Pure.pure value : ExceptT Fault (StateM σ) α) :=
  fun _ => failsOnly_run_pure

theorem lift {value : Except Fault α} (fails : FailsOnly kind value) :
    FailsOnlyFor kind (liftM value : ExceptT Fault (StateM σ) α) :=
  fun _ => failsOnly_run_lift fails

theorem throw {fault : Fault} (here : kind fault) :
    FailsOnlyFor kind (MonadExcept.throw fault : ExceptT Fault (StateM σ) α) :=
  fun _ => .error here

theorem get : FailsOnlyFor kind (MonadState.get : ExceptT Fault (StateM σ) σ) :=
  fun now => .ok now

theorem modify (change : σ → σ) :
    FailsOnlyFor kind (modify change : ExceptT Fault (StateM σ) PUnit) :=
  fun _ => .ok PUnit.unit

theorem bind (first : FailsOnlyFor kind action) (second : ∀ value, FailsOnlyFor kind (next value)) :
    FailsOnlyFor kind (action >>= next) :=
  fun now => failsOnly_run_bind (first now) fun value between _ => second value between

/-- What is done next if a check does not fail. -/
theorem check {condition : Prop} [Decidable condition] {fault : Fault} (here : condition → kind fault)
    {following : PUnit → ExceptT Fault (StateM σ) α}
    (rest : ∀ done, FailsOnlyFor kind (following done)) :
    FailsOnlyFor kind (if condition then MonadExcept.throw fault >>= following else following ⟨⟩) := by
  split
  · next refused => exact (throw (here refused)).bind rest
  · exact rest ⟨⟩

theorem mono {wider : Fault → Prop} (fails : FailsOnlyFor kind action)
    (widen : ∀ fault, kind fault → wider fault) : FailsOnlyFor wider action :=
  fun now => (fails now).mono widen

theorem mapM {step : α → ExceptT Fault (StateM σ) β} (each : ∀ value, FailsOnlyFor kind (step value))
    (values : List α) : FailsOnlyFor kind (values.mapM step) :=
  fun _ => failsOnly_run_mapM (fun value now => each value now) values

theorem mapMOption {step : α → ExceptT Fault (StateM σ) β}
    (each : ∀ value, FailsOnlyFor kind (step value)) (value? : Option α) :
    FailsOnlyFor kind (value?.mapM step) := by
  cases value? with
  | none => exact pure none
  | some value =>
    rw [Option.mapM_some, ← bind_pure_comp]
    exact (each value).bind fun _ => pure _

end FailsOnlyFor

end

/-! ## Readers -/

section

variable {α β : Type} {kind : Fault → Prop}

/-- A reader fails for reasons of one kind only, wherever it starts. -/
def Reader.FailsOnly (kind : Fault → Prop) (reader : Reader α) : Prop :=
  ∀ cursor, ClassFile.FailsOnly kind (reader.run cursor)

namespace Reader.FailsOnly

theorem pure (value : α) : Reader.FailsOnly kind (Pure.pure value) :=
  fun _ => .ok _

theorem bind {reader : Reader α} {next : α → Reader β} (first : Reader.FailsOnly kind reader)
    (second : ∀ value, Reader.FailsOnly kind (next value)) : Reader.FailsOnly kind (reader >>= next) :=
  fun cursor => (first cursor).bind fun (value, later) _ => second value later

theorem map {reader : Reader α} (fails : Reader.FailsOnly kind reader) (change : α → β) :
    Reader.FailsOnly kind (change <$> reader) :=
  fun cursor => (fails cursor).bind fun _ _ => .ok _

theorem runOn {reader : Reader α} (fails : Reader.FailsOnly kind reader) (bytes : Bytes) :
    ClassFile.FailsOnly kind (reader.runOn bytes) :=
  (fails _).map Prod.fst

theorem get : Reader.FailsOnly kind (MonadState.get : Reader Cursor) :=
  fun _ => .ok _

theorem fail {cause : Malformation} (here : kind (.malformed cause)) :
    Reader.FailsOnly kind (Reader.fail cause : Reader α) :=
  fun _ => .error here

/-- What is read on if a check does not fail. -/
theorem check {condition : Prop} [Decidable condition] {cause : Malformation}
    (here : kind (.malformed cause)) {next : PUnit → Reader α}
    (rest : ∀ done, Reader.FailsOnly kind (next done)) :
    Reader.FailsOnly kind (if condition then Reader.fail cause >>= next else next ⟨⟩) := by
  split
  · exact (fail here).bind rest
  · exact rest ⟨⟩

theorem many {one : Reader α} (fails : Reader.FailsOnly kind one) (count : Nat) :
    Reader.FailsOnly kind (Reader.many count one) := by
  have onto : ∀ already, Reader.FailsOnly kind (Reader.manyOnto one already count) := by
    induction count with
    | zero => exact fun already => pure already
    | succ count ih => exact fun already => fails.bind fun next => ih (already.push next)
  exact (onto #[]).map _

end Reader.FailsOnly

end

open Fault (Plain)

namespace Reader

theorem take_plain (count : Nat) : FailsOnly Plain (take count) := by
  intro cursor
  change ClassFile.FailsOnly Plain (take count cursor)
  rw [take]
  split
  · exact .ok _
  · exact .error trivial

theorem word_plain (width : Nat) : FailsOnly Plain (word width) :=
  (take_plain width).map _

end Reader

/-! ## Class files -/

open Reader (take_plain word_plain)

namespace Constant

theorem readText_plain : Reader.FailsOnly Plain readText := by
  refine (word_plain 2).bind fun length => (take_plain length).bind fun bytes => ?_
  split
  · exact .pure _
  · exact .fail trivial

theorem readHandleKind_plain : Reader.FailsOnly Plain readHandleKind := by
  refine ((word_plain 1).map _).bind fun code => ?_
  split
  · exact .pure _
  · exact .fail trivial

theorem read_plain : Reader.FailsOnly Plain read := by
  have index : Reader.FailsOnly Plain readIndex := word_plain 2
  refine ((word_plain 1).map _).bind fun tag => ?_
  split
  · exact readText_plain.bind fun _ => .pure _
  · exact (((word_plain 4).map _).map _).bind fun _ => .pure _
  · exact ((word_plain 4).map _).bind fun _ => .pure _
  · exact (((word_plain 8).map _).map _).bind fun _ => .pure _
  · exact ((word_plain 8).map _).bind fun _ => .pure _
  all_goals first
    | exact index.bind fun _ => .pure _
    | exact index.bind fun _ => index.bind fun _ => .pure _
    | exact readHandleKind_plain.bind fun _ => index.bind fun _ => .pure _
    | exact .fail trivial

end Constant

namespace ClassImage

theorem readConstantsOnto_plain (count : Nat) (pool : Pool) :
    Reader.FailsOnly Plain (readConstantsOnto count pool) := by
  fun_induction readConstantsOnto count pool with
  | case1 pool few ih => exact Constant.read_plain.bind fun constant => ih constant
  | case2 pool few many => exact .fail trivial
  | case3 pool few many => exact .pure _

theorem readAttributes_plain : Reader.FailsOnly Plain Attribute.readAll :=
  (word_plain 2).bind fun count => .many
    ((word_plain 2).bind fun _ => (word_plain 4).bind fun length =>
      (take_plain length).bind fun _ => .pure _) count

theorem readMembers_plain {kind : AccessKind} :
    Reader.FailsOnly Plain (Member.readAll : Reader (List (Member kind))) :=
  (word_plain 2).bind fun count => .many
    ((((word_plain 2).map _).map _).bind fun _ => (word_plain 2).bind fun _ =>
      (word_plain 2).bind fun _ => readAttributes_plain.bind fun _ => .pure _) count

theorem read_plain : Reader.FailsOnly Plain read := by
  have index : Reader.FailsOnly Plain Constant.readIndex := word_plain 2
  have superClass : Reader.FailsOnly Plain readOptional := index.bind fun _ => .pure _
  refine (take_plain 4).bind fun first => .check trivial fun _ => ?_
  refine ((word_plain 2).map _).bind fun minor => ((word_plain 2).map _).bind fun major => ?_
  refine ((word_plain 2).bind fun count => readConstantsOnto_plain count .empty).bind
    fun pool => ?_
  refine (((word_plain 2).map _).map _).bind fun access => index.bind fun thisClass => ?_
  refine superClass.bind fun superClass => (word_plain 2).bind fun count => ?_
  refine (Reader.FailsOnly.many index count).bind fun interfaces => ?_
  refine readMembers_plain.bind fun fields => readMembers_plain.bind fun methods => ?_
  refine readAttributes_plain.bind fun attributes => Reader.FailsOnly.get.bind fun cursor => ?_
  dsimp only
  split
  · exact .pure _
  · exact (Reader.FailsOnly.fail trivial).bind fun _ => .pure _

end ClassImage

namespace Pool

variable (pool : Pool)

theorem entry_plain (index : PoolIndex) : FailsOnly Plain (pool.entry index) := by
  rw [entry]
  split
  · exact .ok _
  · exact .error trivial

theorem utf8_plain (index : PoolIndex) : FailsOnly Plain (pool.utf8 index) := by
  refine (pool.entry_plain index).bind fun constant _ => ?_
  split
  · exact .ok _
  · exact .error trivial

theorem className_plain (index : PoolIndex) : FailsOnly Plain (pool.className index) := by
  refine (pool.entry_plain index).bind fun constant _ => ?_
  split
  · exact pool.utf8_plain _
  · exact .error trivial

theorem signature_plain (index : PoolIndex) : FailsOnly Plain (pool.signature index) := by
  refine (pool.entry_plain index).bind fun constant _ => ?_
  split
  · exact (pool.utf8_plain _).bind fun _ _ => (pool.utf8_plain _).bind fun _ _ => .ok _
  · exact .error trivial

theorem member_plain (index : PoolIndex) : FailsOnly Plain (pool.member index) := by
  refine (pool.entry_plain index).bind fun constant _ => ?_
  split
  · exact (pool.signature_plain _).bind fun _ _ => (pool.className_plain _).bind fun _ _ => .ok _
  · exact (pool.signature_plain _).bind fun _ _ => (pool.className_plain _).bind fun _ _ => .ok _
  · exact .error trivial

theorem dynamicSignature_plain (index : PoolIndex) :
    FailsOnly Plain (pool.dynamicSignature index) := by
  refine (pool.entry_plain index).bind fun constant _ => ?_
  split
  · exact pool.signature_plain _
  · exact pool.signature_plain _
  · exact .error trivial

end Pool

theorem ClassName.parse_plain (text : String) : FailsOnly Plain (ClassName.parse text) := by
  rw [ClassName.parse]
  split
  · exact .ok _
  · exact .error trivial

namespace FieldType

theorem parse_plain (text : String) : FailsOnly Plain (parse text) := by
  rw [parse]
  split
  · exact .ok _
  · exact .error trivial

theorem ofInternalName_plain (text : String) : FailsOnly Plain (ofInternalName text) := by
  rw [ofInternalName]
  split
  · rw [parseReference]
    split
    · exact .ok _
    · exact .error trivial
  · exact (ClassName.parse_plain text).bind fun _ _ => .ok _

end FieldType

theorem MethodDescriptor.parse_plain (text : String) :
    FailsOnly Plain (MethodDescriptor.parse text) := by
  rw [parse]
  split
  · exact .ok _
  · exact .error trivial

theorem ClassImage.parse_plain (bytes : Bytes) : FailsOnly Plain (parse bytes) := by
  refine (read_plain.runOn bytes).bind fun image _ => ?_
  refine FailsOnly.bind (.foldlM (fun methods attr => ?_) _ _) fun _ _ => .ok _
  refine (image.pool.utf8_plain _).bind fun name _ => ?_
  split
  · refine Reader.FailsOnly.runOn ((word_plain 2).bind fun count => .many ?_ count) _
    exact (word_plain 2).bind fun _ => (word_plain 2).bind fun count =>
      (Reader.FailsOnly.many (word_plain 2) count).bind fun _ => .pure _
  · exact .ok _

namespace Directory

theorem describe_plain (path name : String) (image : ClassImage) :
    FailsOnly Plain (describe path name image) := by
  refine (image.pool.className_plain _).bind fun found _ => .check trivial
    fun _ => ?_
  refine (ClassName.parse_plain name).bind fun cls _ => ?_
  refine (FailsOnly.mapMOption image.pool.className_plain _).bind fun superclass _ => ?_
  refine (FailsOnly.mapMOption ClassName.parse_plain _).bind fun superclass _ => ?_
  refine (FailsOnly.mapM image.pool.className_plain _).bind fun interfaces _ => ?_
  exact (FailsOnly.mapM ClassName.parse_plain _).bind fun interfaces _ => .ok _

theorem load_plain {directory : Directory} {name : String} {loaded : Except Fault ClassInfo}
    (found : directory.load? name = some loaded) : FailsOnly Plain loaded := by
  unfold load? at found
  extract_lets file at found
  split at found
  · cases found
  · obtain rfl := Option.some.inj found
    exact (ClassImage.parse_plain _).bind fun image _ => describe_plain _ _ image
  · obtain rfl := Option.some.inj found
    exact .error trivial

end Directory

/-! ## Questions -/

namespace Hierarchy

namespace Query

section

variable {α β : Type} {kind : Fault → Prop} {holds : α → Prop} {result : β → Prop}

/-- An answer has a property, and failure is for reasons of one kind only. -/
def Ends (query : Query α) (kind : Fault → Prop) (holds : α → Prop) : Prop :=
  ∀ hierarchy, (∀ answer, (query.run hierarchy).1 = .ok answer → holds answer) ∧
    FailsOnly kind (query.run hierarchy).1

/-- Nothing need be kept for it. -/
theorem ends_iff {query : Query α} :
    Ends query kind holds ↔ Resolves (fun _ => True) kind query holds := by
  constructor
  · intro ends hierarchy _
    exact ⟨_, _, rfl, trivial, (ends hierarchy).2, (ends hierarchy).1⟩
  · intro resolves hierarchy
    obtain ⟨result, after, run, -, fails, here⟩ := resolves hierarchy trivial
    rw [run]
    exact ⟨here, fails⟩

theorem ends_pure {answer : α} (here : holds answer) : Ends (pure answer) kind holds :=
  ends_iff.2 (resolves_pure here)

theorem ends_throw {fault : Fault} (here : kind fault) : Ends (throw fault : Query α) kind holds :=
  ends_iff.2 (resolves_throw here)

theorem ends_lift {known : Except Fault α} (fails : FailsOnly kind known) :
    Ends (liftM known) kind fun answer => known = .ok answer :=
  ends_iff.2 (resolves_lift fails)

theorem ends_get : Ends (get : Query Hierarchy) kind fun _ => True :=
  ends_iff.2 resolves_get

theorem ends_modify (change : Hierarchy → Hierarchy) :
    Ends (modify change : Query Unit) kind fun _ => True :=
  ends_iff.2 (resolves_modify fun _ => id)

theorem Ends.mono {query : Query α} {weaker : α → Prop} (ends : Ends query kind holds)
    (weaken : ∀ answer, holds answer → weaker answer) : Ends query kind weaker :=
  ends_iff.2 ((ends_iff.1 ends).mono weaken)

theorem Ends.widen {query : Query α} {wider : Fault → Prop} (ends : Ends query kind holds)
    (widen : ∀ fault, kind fault → wider fault) : Ends query wider holds :=
  ends_iff.2 ((ends_iff.1 ends).widen widen)

theorem Ends.bind {query : Query α} {next : α → Query β} (first : Ends query kind holds)
    (second : ∀ answer, holds answer → Ends (next answer) kind result) :
    Ends (query >>= next) kind result :=
  ends_iff.2 ((ends_iff.1 first).bind fun answer here => ends_iff.1 (second answer here))

theorem ends_mapM {question : α → Query β} {holds : α → β → Prop} {values : List α}
    (each : ∀ value ∈ values, Ends (question value) kind (holds value)) :
    Ends (values.mapM question) kind (List.Forall₂ holds values) :=
  ends_iff.2 (resolves_mapM fun value member => ends_iff.1 (each value member))

end

end Query

open Query

open Fault (OfQuestion)

theorem find_ends (name : String) : (find name).Ends Plain fun _ => True := by
  refine ends_get.bind fun hierarchy _ => ?_
  split
  · exact ends_pure trivial
  · split
    · next loaded found =>
      obtain ⟨directory, -, isLoaded⟩ := List.exists_of_findSome?_eq_some found
      refine (ends_lift (Directory.load_plain isLoaded)).bind fun info _ => ?_
      exact (ends_modify _).bind fun _ _ => ends_pure trivial
    · exact ends_throw trivial

theorem superclass_ends (name : String) : (superclass name).Ends Plain fun _ => True :=
  (find_ends name).bind fun _ _ => ends_pure trivial

theorem isInterface_ends (name : String) : (isInterface name).Ends Plain fun _ => True :=
  (find_ends name).bind fun _ _ => ends_pure trivial

theorem chain_ends (steps : Nat) (name : String) :
    (chain steps name).Ends OfQuestion fun _ => True := by
  induction steps generalizing name with
  | zero => exact ends_throw (.inr ⟨_, rfl⟩)
  | succ steps ih =>
    refine ((superclass_ends name).widen fun _ => .inl).bind fun next? _ => ?_
    split
    · exact (ih _).bind fun _ _ => ends_pure trivial
    · exact ends_pure trivial

theorem firstAmong_ends (classes : List String) (steps : Nat) (name : String) :
    (firstAmong classes steps name).Ends OfQuestion fun _ => True := by
  induction steps generalizing name with
  | zero => exact ends_throw (.inr ⟨_, rfl⟩)
  | succ steps ih =>
    rw [firstAmong]
    split
    · exact ends_pure trivial
    · refine ((superclass_ends name).widen fun _ => .inl).bind fun next? _ => ?_
      split
      · exact ih _
      · exact ends_pure trivial

theorem searchCommon_ends (first second : String) :
    (searchCommon first second).Ends OfQuestion fun _ => True := by
  refine ((isInterface_ends first).widen fun _ => .inl).bind fun _ _ => ?_
  refine ((isInterface_ends second).widen fun _ => .inl).bind fun _ _ => ?_
  split
  · exact ends_pure trivial
  · refine ends_get.bind fun hierarchy _ => (chain_ends _ first).bind fun ancestors _ => ?_
    exact (firstAmong_ends ancestors _ second).bind fun _ _ => ends_pure trivial

theorem commonSuperclass_ends (first second : String) :
    (commonSuperclass first second).Ends OfQuestion fun _ => True := by
  refine ends_get.bind fun hierarchy _ => ?_
  split
  · exact ends_pure trivial
  · refine (searchCommon_ends first second).bind fun answer _ => ?_
    exact (ends_modify _).bind fun _ _ => ends_pure trivial

theorem joinNames_ends (first second : String) :
    (joinNames first second).Ends OfQuestion fun _ => True := by
  rw [joinNames]
  dsimp only
  split
  · exact commonSuperclass_ends first second
  · split
    · exact (commonSuperclass_ends _ _).bind fun _ _ => ends_pure trivial
    · exact ends_pure trivial

end Hierarchy

end ClassFile
