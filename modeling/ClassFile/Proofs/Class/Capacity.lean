import ClassFile.Proofs.Class.Growing
import ClassFile.Proofs.Class.Rejected
import ClassFile.Proofs.Code.PoolSize

namespace ClassFile

/-!
# When the size of the pool is noticed

Additions to a pool are never refused because it is too large.  Recording a method does not look
at the size of the pool either, nor does laying out its code.  A class with too many constants is
refused when it is written, if the table of its bootstrap methods can be.

There are two exceptions.  The initial value of a field is written when the field is added, and
code when its method is ended, and an index that they are written with may not fit.  But then
the pool that it is an index of has become too large for good, and the class is never written.
-/

open Fault (OfEncoding OfWriting Plain SparesPool)
open FailsOnly

/-- Where the cause is an index that does not fit, the index is below a limit. -/
def Fault.IndexBelow (limit : Nat) (fault : Fault) : Prop :=
  ∀ index, fault = .codec (.wideIndex index) → index < limit

theorem Fault.Plain.ofWriting {fault : Fault} (plain : fault.Plain) : fault.OfWriting :=
  .inl plain.sparesPool

theorem MemberName.require_plain (name : String) : FailsOnly Plain (require name) := by
  rw [require]
  split
  · exact error trivial
  · exact ok _

/-! ## Additions -/

namespace Loadable

theorem checkType_plain (descriptor : String) : FailsOnly Plain (checkType descriptor) := by
  rw [checkType]
  split
  all_goals
    split
    · exact ok _
    · exact error trivial

mutual

theorem check_plain (value : Loadable) : FailsOnly Plain value.check := by
  cases value with
  | type descriptor =>
    rw [check]
    exact checkType_plain descriptor
  | dynamic name descriptor bootstrap arguments =>
    rw [check]
    exact checkAll_plain arguments
  | _ =>
    rw [check]
    · exact ok _
    all_goals simp

theorem checkAll_plain (values : List Loadable) : FailsOnly Plain (checkAll values) := by
  cases values with
  | nil =>
    rw [checkAll]
    exact ok _
  | cons value values =>
    rw [checkAll]
    exact (check_plain value).bind fun _ _ => checkAll_plain values

end

end Loadable

/-- Additions fail for what they ask for, whatever is in the pool, and for want of a position in
the bootstrap table. -/
theorem Pool.Addition.request_plain (addition : Addition) :
    FailsOnlyFor Plain addition.request := by
  intro pool fault failed
  have checks : FailsOnly Plain addition.check := by
    cases addition with
    | bootstrap | dynamic | invokeDynamic => exact Loadable.checkAll_plain _
    | loadable value => exact Loadable.check_plain value
    | _ => exact ok _
  rcases run_eq_error (Prod.ext failed rfl) with ⟨refused, -⟩ | ⟨-, exhausts, -⟩
  · exact checks fault refused
  · rw [exhausts.fault_eq]
    trivial

/-! ## Recording -/

open Pool (Addition)

namespace MethodPiece

theorem record_plain (piece : MethodPiece) : FailsOnlyFor Plain piece.record := by
  have updates : ∀ change, FailsOnlyFor Plain (Record.update change) := fun _ => .modify _
  have items : ∀ item, FailsOnlyFor Plain (Record.item item) := fun _ => updates _
  have symbols : ∀ addition : Addition, FailsOnlyFor Plain (Record.symbol addition.request) :=
    fun addition now => addition.request_plain now.pool
  have types := fun descriptor =>
    @FailsOnlyFor.lift Record.State _ _ _ (FieldType.parse_plain descriptor)
  have methods := fun descriptor =>
    @FailsOnlyFor.lift Record.State _ _ _ (MethodDescriptor.parse_plain descriptor)
  cases piece with
  | label | instruction | branch | lookupSwitch | frame => exact items _
  | newLabel =>
    refine FailsOnlyFor.bind ?_ fun _ => .pure _
    exact FailsOnlyFor.get.bind fun _ => (updates _).bind fun _ => .pure _
  | returnResult => exact FailsOnlyFor.get.bind fun _ => items _
  | pushInt value =>
    rw [record, Record.pushInt]
    split
    · exact items _
    · exact (symbols (.integer value)).bind fun _ => items _
  | accessField access owner name descriptor =>
    exact (types descriptor).bind fun _ =>
      (symbols (.fieldRef owner name descriptor)).bind fun _ => items _
  | invoke kind owner name descriptor ownerIsInterface =>
    refine (methods descriptor).bind fun parsed =>
      (symbols (.methodRef owner name descriptor ownerIsInterface)).bind fun _ => ?_
    split
    · exact items _
    · exact .throw trivial
  | invokeDynamic name descriptor method arguments =>
    exact (methods descriptor).bind fun _ =>
      (symbols (.invokeDynamic name descriptor method arguments)).bind fun _ => items _
  | withClass op name => exact (symbols (.cls name)).bind fun _ => items _
  | newMultiArray descriptor dimensions =>
    exact (types descriptor).bind fun _ => (symbols (.cls descriptor)).bind fun _ => items _
  | load value =>
    refine (FailsOnlyFor.lift ?_).bind fun _ => (symbols (.loadable value)).bind fun _ => items _
    unfold Record.loadedWidth
    split
    · exact ok _
    · exact ok _
    · exact (FieldType.parse_plain _).bind fun _ _ => ok _
    · exact ok _
  | handler start stop entry catches =>
    refine FailsOnlyFor.bind ?_ fun _ => updates _
    exact FailsOnlyFor.mapMOption (fun name => symbols (.cls name)) catches
  | limits found => exact updates _
  | attach name info => exact (symbols (.utf8 name)).bind fun _ => updates _

end MethodPiece

/-! ## Building -/

namespace Build

theorem symbol_fails {α : Type} {kind : Fault → Prop} {request : Pool.Request α}
    (fails : FailsOnlyFor kind request) : FailsOnlyFor kind (symbol request) :=
  fun now => fails now.pool

theorem utf8_plain (text : String) : FailsOnlyFor Plain (symbol (Pool.addUtf8 text)) :=
  symbol_fails (Addition.utf8 text).request_plain

theorem setHeader_plain (version : Version) (access : Access .cls) (name : String)
    (superName : Option String) (interfaceNames : List String) :
    FailsOnlyFor Plain (setHeader version access name superName interfaceNames) := by
  have classes := fun name => symbol_fails (Addition.cls name).request_plain
  refine (classes name).bind fun _ => (FailsOnlyFor.mapMOption classes superName).bind fun _ => ?_
  exact (FailsOnlyFor.mapM classes interfaceNames).bind fun _ => .modify _

theorem initialValue_ofWriting (value : Loadable) :
    FailsOnlyFor OfWriting (initialValue value) := by
  have adds : ∀ addition : Addition, FailsOnlyFor OfWriting addition.request :=
    fun addition => addition.request_plain.mono fun _ => Plain.ofWriting
  refine (symbol_fails (adds (.loadable value))).bind fun index => symbol_fails ?_
  refine (adds (.utf8 Attribute.constantValue)).bind fun _ => ?_
  exact (FailsOnlyFor.lift ((Encoding.index_fails index).mono fun _ => OfEncoding.ofWriting)).bind
    fun _ => .pure _

theorem addField_ofWriting (access : Access .field) (name descriptor : String)
    (value : Option Loadable) : FailsOnlyFor OfWriting (addField access name descriptor value) := by
  have named := (MemberName.require_plain name).mono fun _ => Plain.ofWriting
  have typed := (FieldType.parse_plain descriptor).mono fun _ => Plain.ofWriting
  have texts := fun text => (utf8_plain text).mono fun _ => Plain.ofWriting
  refine (FailsOnlyFor.lift named).bind fun _ => (FailsOnlyFor.lift typed).bind fun _ => ?_
  refine (FailsOnlyFor.mapMOption initialValue_ofWriting value).bind fun _ => ?_
  exact (texts name).bind fun _ => (texts descriptor).bind fun _ => .modify _

theorem beginMethod_plain (access : Access .method) (name descriptor : String) :
    FailsOnlyFor Plain (beginMethod access name descriptor) := by
  refine FailsOnlyFor.get.bind fun builder => ?_
  split
  · exact .throw trivial
  · refine (FailsOnlyFor.lift (MemberName.require_plain name)).bind fun _ => ?_
    refine (FailsOnlyFor.lift (MethodDescriptor.parse_plain descriptor)).bind fun _ => ?_
    exact (utf8_plain name).bind fun _ => (utf8_plain descriptor).bind fun _ => .pure _

theorem codeAttribute_ofWriting (context : MethodContext) (body : MethodBody) :
    FailsOnlyFor OfWriting (codeAttribute context body) := by
  have assembles : ∀ mode wantsFrames,
      FailsOnlyFor OfWriting (assembling (body.assemble context mode wantsFrames)) :=
    fun mode wantsFrames now =>
      body.assemble_ofWriting context mode wantsFrames ⟨now.pool, now.hierarchy⟩
  refine FailsOnlyFor.get.bind fun builder => (assembles _ _).bind fun code => ?_
  refine ((utf8_plain Attribute.code).mono fun _ => Plain.ofWriting).bind fun _ => ?_
  exact (FailsOnlyFor.lift (code.encode_fails.mono fun _ => OfEncoding.ofWriting)).bind
    fun _ => .pure _

theorem endMethod_ofWriting (draft : MethodDraft) : FailsOnlyFor OfWriting (endMethod draft) :=
  (FailsOnlyFor.mapMOption (codeAttribute_ofWriting draft.context) draft.body?).bind
    fun _ => .modify _

theorem addAttribute_plain (name : String) (info : Bytes) :
    FailsOnlyFor Plain (addAttribute name info) := by
  rw [addAttribute]
  split
  · exact .modify _
  · exact (utf8_plain name).bind fun _ => .modify _

end Build

/-- No event fails because the pool is too large, and none because of an index that fits. -/
theorem ClassEvent.build_ofWriting (event : ClassEvent) : FailsOnlyFor OfWriting event.build := by
  have widen : ∀ fault : Fault, fault.Plain → fault.OfWriting :=
    fun _ => Plain.ofWriting
  cases event with
  | visit header => exact (Build.setHeader_plain _ _ _ _ _).mono widen
  | field access name descriptor value =>
    exact Build.addField_ofWriting access name descriptor value
  | method access name descriptor pieces isFinished =>
    refine ((Build.beginMethod_plain access name descriptor).mono widen).bind fun draft => ?_
    refine FailsOnlyFor.bind (fun now => ok _) fun recorded => ?_
    cases isFinished with
    | true => exact Build.endMethod_ofWriting recorded.2
    | false => exact .pure _
  | attr name info => exact (Build.addAttribute_plain name info).mono widen
  | symbol addition =>
    exact (Build.symbol_fails (addition.request_plain.mono widen)).bind fun _ => .pure _

/-! ## Fields -/

theorem Pool.lt_count_of_denotes {pool : Pool} {value : Loadable} {index : PoolIndex}
    (stands : pool.Denotes value index) : index < pool.count := by
  rcases denotes_loadable stands with ⟨constant, here, -⟩
  exact lt_stop_of_mem (entry_eq_ok.mp here)

namespace Build

variable {builder : ClassBuilder} {access : Access .field} {name descriptor : String}
  {initial : Loadable} {index : PoolIndex} {pool : Pool}

/-- The value and the name of its attribute join the pool before the index is looked at. -/
theorem run_initialValue
    (valued : (Pool.addLoadable initial).run builder.pool = (.ok index, pool)) :
    ∃ name after, Pool.Extends pool after.pool ∧ (initialValue initial).run builder =
      (Attribute.mk name <$> Encoding.index index, after) := by
  have grows := Pool.Lasts.along (fun _ => Pool.addUtf8_lasts Attribute.constantValue) pool
  rcases named : (Pool.addUtf8 Attribute.constantValue).run pool with ⟨name, later⟩
  have isName : (liftM (Pool.addUtf8 Attribute.constantValue) : Pool.Request PoolIndex).run pool =
      (.ok name, later) := by
    rw [Pool.run_lift, named]
  have made : (Attribute.ofConstant index).run pool =
      (Attribute.mk name <$> Encoding.index index, later) := by
    refine (run_bind_of_ok isName).trans ?_
    cases Encoding.index index <;> rfl
  rw [isName] at grows
  refine ⟨name, { builder with pool := later }, grows.extends_, ?_⟩
  exact (run_bind_of_ok (run_symbol_of_run valued)).trans (run_symbol_of_run made)

/-- What is left to do for a field once its name and its descriptor are checked. -/
theorem run_addField_of_checks {value : Option Loadable} (named : MemberName.require name = .ok ())
    {type : FieldType} (typed : FieldType.parse descriptor = .ok type) :
    (addField access name descriptor value).run builder =
      (value.mapM initialValue >>= fun attr => do
        let name ← symbol (Pool.addUtf8 name)
        let descriptor ← symbol (Pool.addUtf8 descriptor)
        pushField ⟨access, name, descriptor, attr.toList⟩).run builder := by
  rw [addField, named, typed]
  rfl

/-- A field with an initial value is added unless the index of the value does not fit, and the
value is there even then. -/
theorem run_addField (named : MemberName.require name = .ok ()) {type : FieldType}
    (typed : FieldType.parse descriptor = .ok type)
    (valued : (Pool.addLoadable initial).run builder.pool = (.ok index, pool)) :
    ∃ after, Pool.Extends pool after.pool ∧
      (addField access name descriptor (some initial)).run builder =
        (if index < 65536 then .ok ⟨⟩ else .error (.codec (.wideIndex index)), after) := by
  rcases run_initialValue valued with ⟨attr, between, grown, run⟩
  rw [run_addField_of_checks named typed, Option.mapM_some, ← bind_pure_comp, bind_assoc]
  rw [Encoding.index] at run
  split at run
  · next small =>
    have grows : Along ClassBuilder.Grows _ :=
      (ClassImage.along_of_keeps (along_utf8 name)).bind fun nameIndex =>
        (ClassImage.along_of_keeps (along_utf8 descriptor)).bind fun descriptorIndex =>
          ClassImage.along_pushField
            ⟨access, nameIndex, descriptorIndex, [⟨attr, BigEndian.encode 2 index⟩]⟩
    rw [if_pos small, run_bind_of_ok run]
    exact ⟨_, grown.trans (grows between).extends_, rfl⟩
  · next large =>
    rw [if_neg large, run_bind_of_error run]
    exact ⟨between, grown, rfl⟩

/-- If a field fails for an index, that is where its initial value stands. -/
theorem denotes_of_wideIndex {value : Option Loadable} {after : ClassBuilder}
    (failed : (addField access name descriptor value).run builder =
      (.error (.codec (.wideIndex index)), after)) :
    65536 ≤ index ∧ ∃ initial, value = some initial ∧ after.pool.Denotes initial index := by
  have impossible : ¬(Fault.codec (.wideIndex index)).Plain := id
  cases named : MemberName.require name with
  | error fault =>
    rw [addField, named] at failed
    cases failed
    exact absurd (MemberName.require_plain name _ named) impossible
  | ok =>
  cases typed : FieldType.parse descriptor with
  | error fault =>
    rw [addField, named, typed] at failed
    cases failed
    exact absurd (FieldType.parse_plain descriptor _ typed) impossible
  | ok type =>
  cases value with
  | none =>
    rw [run_addField_of_checks named typed] at failed
    cases failed
  | some initial =>
  rcases Pool.addLoadable_lasts initial builder.pool (.refl _) with
    ⟨fault | found, pool, valued, -, -, known⟩
  · have refused : (initialValue initial).run builder = (.error fault, { builder with pool }) :=
      run_bind_of_error (run_symbol_of_run valued)
    rw [run_addField_of_checks named typed, Option.mapM_some, ← bind_pure_comp,
      bind_assoc] at failed
    cases (run_bind_of_error refused).symm.trans failed
    have plain := (Addition.loadable initial).request_plain builder.pool
    exact absurd (plain _ (Prod.ext_iff.mp valued).1) impossible
  · rcases run_addField named typed valued with ⟨later, grown, run⟩
    rcases Prod.mk.inj (run.symm.trans failed) with ⟨answer, rfl⟩
    split at answer
    · cases answer
    · next large =>
      cases answer
      exact ⟨Nat.le_of_not_lt large, initial, rfl, grown.denotes initial (known index rfl).1⟩

end Build

/-! ## Writing -/

/-- Whatever an event leaves, the pool has only grown. -/
theorem ClassEvent.along_build (event : ClassEvent) : Along ClassBuilder.Grows event.build := by
  intro builder
  have built := event.built builder
  rcases ran : event.build.run builder with ⟨answer, after⟩
  rw [ran] at built
  cases built with
  | place => exact refl_of Pool.Grows builder.pool
  | failed keeps | visit keeps | field keeps | method keeps | givenUp keeps | attr keeps
  | symbol keeps => exact keeps.pool

namespace ClassBuilder

variable {builder after : ClassBuilder} {index : PoolIndex}

theorem grows_runAll (builder : ClassBuilder) (events : List ClassEvent) :
    Grows builder (builder.runAll events) := by
  induction events generalizing builder with
  | nil => exact refl_of Grows builder
  | cons event events ih => exact trans_of Grows (event.along_build builder) (ih _)

theorem count_lt_of_image {image : ClassImage} (made : builder.image = .ok image) :
    image.pool.count < 65536 := by
  rw [ClassBuilder.image] at made
  split at made
  · rcases bind_eq_ok.mp made with ⟨⟨attributes, pool⟩, -, rest⟩
    rcases bind_eq_ok.mp rest with ⟨_, checked, last⟩
    cases last
    rw [Pool.checkCapacity] at checked
    split at checked
    · next small => exact small
    · cases checked
  · cases made

/-- A class is not written if more than 65535 slots were in use at any time. -/
theorem encode_ne_ok (large : 65536 ≤ builder.pool.count) (events : List ClassEvent)
    (bytes : Bytes) : (builder.runAll events).encode ≠ .ok bytes := by
  intro encoded
  rcases bind_eq_ok.mp encoded with ⟨image, made, -⟩
  have grown := (grows_runAll builder events).extends_.count_le
  have onward := (extends_image made).count_le
  have small := count_lt_of_image made
  omega

/-- Once an event has failed for an index of the pool, the class is never written. -/
theorem unwritable_of_wideIndex {event : ClassEvent}
    (failed : event.build.run builder = (.error (.codec (.wideIndex index)), after))
    (inside : index < after.pool.count) (events : List ClassEvent) (bytes : Bytes) :
    (after.runAll events).encode ≠ .ok bytes := by
  apply encode_ne_ok
  rcases event.build_ofWriting builder _ (Prod.ext_iff.mp failed).1 with
    small | ⟨other, large, same⟩
  · exact small.elim
  · cases same
    exact Nat.le_of_lt (Nat.lt_of_le_of_lt large inside)

/-- This is so for every field that fails for an index. -/
theorem unwritable_of_field {access : Access .field} {name descriptor : String}
    {value : Option Loadable}
    (failed : (ClassEvent.field access name descriptor value).build.run builder =
      (.error (.codec (.wideIndex index)), after)) (events : List ClassEvent) (bytes : Bytes) :
    (after.runAll events).encode ≠ .ok bytes := by
  rcases Build.denotes_of_wideIndex failed with ⟨-, initial, -, stands⟩
  exact unwritable_of_wideIndex failed (Pool.lt_count_of_denotes stands) events bytes

theorem finish_fails (builder : ClassBuilder) : FailsOnly OfEncoding builder.finish := by
  rw [finish]
  split
  · exact ok _
  · exact (BootstrapMethod.encodeTable_fails _).bind fun _ _ => ok _

theorem image_of_finish {header : Header} (isHeader : builder.header = some header)
    {attributes : List Attribute} {pool : Pool}
    (finished : builder.finish = .ok (attributes, pool)) :
    builder.image = (pool.checkCapacity >>= fun _ => .ok {
      version := header.version
      pool
      access := header.access
      thisClass := header.thisClass
      superClass := header.superClass
      interfaces := header.interfaces
      fields := builder.fields.toList
      methods := builder.methods.toList
      attributes }) := by
  rw [ClassBuilder.image, isHeader, finished]
  rfl

/-- A class is refused for the number of its constants when it has a header, its bootstrap
methods can be written, and its constants take too many slots with their name. -/
theorem encode_eq_poolOverflow_iff {slots : Nat} :
    builder.encode = .error (.poolOverflow slots) ↔ builder.header.isSome = true ∧
      ∃ attributes pool, builder.finish = .ok (attributes, pool) ∧ 65536 ≤ pool.count ∧
        slots = pool.constants.totalWidth := by
  have impossible : ¬(Fault.poolOverflow slots).OfEncoding := id
  constructor
  · intro failed
    cases isHeader : builder.header with
    | none =>
      rw [encode, ClassBuilder.image, isHeader] at failed
      cases failed
    | some header =>
      refine ⟨rfl, ?_⟩
      rcases finished : builder.finish with fault | ⟨attributes, pool⟩
      · rw [encode, ClassBuilder.image, isHeader] at failed
        dsimp only at failed
        rw [finished] at failed
        cases failed
        exact absurd (builder.finish_fails _ finished) impossible
      · refine ⟨attributes, pool, rfl, ?_⟩
        rw [encode, image_of_finish isHeader finished, Pool.checkCapacity] at failed
        split at failed
        · next small => exact absurd (ClassImage.encode_fails small _ failed) impossible
        · next large =>
          cases failed
          exact ⟨Nat.le_of_not_lt large, rfl⟩
  · rintro ⟨hasHeader, attributes, pool, finished, large, rfl⟩
    rcases Option.isSome_iff_exists.mp hasHeader with ⟨header, isHeader⟩
    rw [encode, image_of_finish isHeader finished, Pool.checkCapacity,
      if_neg (Nat.not_lt_of_le large)]
    rfl

/-- Only an index of a constant of the pool can be too wide for the table of its methods. -/
theorem encodeTable_inside {pool : Pool} (grounded : Pool.Grounded pool) :
    FailsOnly (Fault.IndexBelow pool.count)
      (BootstrapMethod.encodeTable pool.bootstraps.toList) := by
  have inside : ∀ {index : PoolIndex}, index < pool.count →
      FailsOnly (Fault.IndexBelow pool.count) (Encoding.index index) := by
    intro index here
    apply FailsOnly.index
    rintro - _ same
    cases same
    exact here
  rw [BootstrapMethod.encodeTable]
  split
  · refine (FailsOnly.each fun method member => ?_).bind fun _ _ => ok _
    rcases Array.mem_iff_getElem?.mp (Array.mem_toList_iff.mp member) with ⟨position, found⟩
    refine (inside (grounded.handles position method found).lt_stop).bind fun _ _ => ?_
    have arguments : ∀ argument ∈ method.arguments, argument < pool.count := by
      intro argument isArgument
      rcases grounded.arguments position method found argument isArgument with ⟨_, here, -⟩
      exact Pool.lt_stop_of_mem (Pool.entry_eq_ok.mp here)
    have listed : FailsOnly (Fault.IndexBelow pool.count)
        (Encoding.sequence Encoding.index method.arguments) := by
      apply FailsOnly.sequence
      · rintro length _ same
        cases same
      · exact fun argument isArgument => inside (arguments argument isArgument)
    exact listed.bind fun _ _ => ok _
  · apply error
    intro _ same
    cases same

/-- Where the bootstrap methods cannot be written for an index, the pool is too large as well. -/
theorem finish_wideIndex (grounded : Pool.Grounded builder.pool)
    (failed : builder.finish = .error (.codec (.wideIndex index))) :
    65536 ≤ index ∧ index < builder.pool.count := by
  refine ⟨builder.finish_fails _ failed, ?_⟩
  have below : FailsOnly (Fault.IndexBelow builder.pool.count) builder.finish := by
    rw [finish]
    split
    · exact ok _
    · exact (encodeTable_inside grounded).bind fun _ _ => ok _
  exact below _ failed index rfl

/-- However a class was built, it is refused for the number of its constants exactly when these
take more than 65534 slots, where the bootstrap methods can be written. -/
theorem encode_runAll_eq_poolOverflow_iff (mode : ComputeMode) (hierarchy : Hierarchy)
    (events : List ClassEvent) {slots : Nat} :
    ((ofPool mode hierarchy .empty).runAll events).encode = .error (.poolOverflow slots) ↔
      (lastVisit? events).isSome = true ∧ ∃ attributes pool,
        ((ofPool mode hierarchy .empty).runAll events).finish = .ok (attributes, pool) ∧
          slots = pool.constants.totalWidth ∧ 65534 < slots := by
  have sound := Sound.runAll mode hierarchy events
  generalize (ofPool mode hierarchy .empty).runAll events = builder at sound ⊢
  have visited : builder.header.isSome = (lastVisit? events).isSome := by
    have isVisit := sound.header
    generalize lastVisit? events = visit?, builder.header = header? at isVisit
    cases isVisit <;> rfl
  rw [encode_eq_poolOverflow_iff, visited]
  refine and_congr_right fun _ => exists_congr fun attributes => exists_congr fun pool =>
    and_congr_right fun finished => ?_
  have first := ((sound.finish finished).1.grounded sound.grounded).start_eq
  have whole := pool.constants.laid.stop_eq
  have count : pool.count = 1 + pool.constants.totalWidth := by
    rw [first] at whole
    rw [SlotVector.totalWidth, Pool.count, first]
    omega
  constructor
  · rintro ⟨large, same⟩
    exact ⟨same, by omega⟩
  · rintro ⟨same, large⟩
    exact ⟨by omega, same⟩

end ClassBuilder
end ClassFile
