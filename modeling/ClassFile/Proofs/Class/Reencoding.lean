import ClassFile.Proofs.Class.Events
import ClassFile.Proofs.Class.Transcript
import ClassFile.Proofs.Pool.Requests
import ClassFile.Settings

namespace ClassFile

/-!
# Encoding again what nothing is computed of

A class whose entries are pairwise different is built again without new entries:
each name is found at the index that it was read from.  Members are copied, and the
table of bootstrap methods is written again at the place where it was.  So a class
file that is spelled like one that is written comes back byte by byte.

That entries are different is needed only for the names that are looked up again:
those of the class, of its superclass and interfaces, and of its attributes.  Of two
equal entries the first would be found.
-/

namespace Pool

/-- No entry stands twice. -/
def Distinct (pool : Pool) : Prop :=
  pool.constants.toList.Nodup

namespace Distinct

variable {pool : Pool} {index : PoolIndex}

/-- An entry is found where it is, and not before. -/
theorem slot (distinct : pool.Distinct) {constant : Constant}
    (found : pool.entry index = .ok constant) : pool.slots[constant]? = some index := by
  have member := entry_eq_ok.mp found
  cases known : pool.slots[constant]? with
  | none =>
    exact absurd (List.mem_map.mpr ⟨_, member, rfl⟩) (not_mem_of_slot_none known)
  | some slot =>
    have same := List.inj_on_of_nodup_map distinct (mem_entries_of_slot known) member rfl
    exact congrArg some (Prod.ext_iff.mp same).1

theorem run_addUtf8 (distinct : pool.Distinct) {text : String}
    (found : pool.utf8 index = .ok text) : (addUtf8 text).run pool = (index, pool) :=
  run_intern_of_some (distinct.slot (utf8_eq_ok.mp found))

theorem run_addClass (distinct : pool.Distinct) {name : String}
    (found : pool.className index = .ok name) : (addClass name).run pool = (index, pool) := by
  rcases className_eq_ok.mp found with ⟨text, isClass, isText⟩
  rw [addClass, StateT.run_bind, distinct.run_addUtf8 isText]
  exact run_intern_of_some (distinct.slot isClass)

end Distinct
end Pool

/-! ## Building again -/

namespace Build

variable {builder : ClassBuilder}

/-- A header whose classes are in the pool is set as it is. -/
theorem run_setHeader {header : Header} {superName : Option String} {interfaceNames : List String}
    (distinct : builder.pool.Distinct)
    (thisClass : builder.pool.className header.thisClass = .ok header.name)
    (superClass : Option.Rel (fun index name => builder.pool.className index = .ok name)
      header.superClass superName)
    (interfaces : List.Forall₂ (fun index name => builder.pool.className index = .ok name)
      header.interfaces interfaceNames) :
    (setHeader header.version header.access header.name superName interfaceNames).run builder =
      (.ok ⟨⟩, { builder with header := some header }) := by
  have found : ∀ {index : PoolIndex} {name : String}, builder.pool.className index = .ok name →
      (symbol (Pool.addClass name)).run builder = (.ok index, builder) :=
    fun known => run_symbol (distinct.run_addClass known)
  refine run_bind_eq_ok.mpr ⟨_, builder, found thisClass, ?_⟩
  refine run_bind_eq_ok.mpr ⟨header.superClass, builder, run_mapM_option_same ?_, ?_⟩
  · generalize header.superClass = index? at superClass ⊢
    cases superClass with
    | none => exact .none
    | some known => exact .some (found known)
  · refine run_bind_eq_ok.mpr ⟨header.interfaces, builder, run_mapM_same ?_, rfl⟩
    exact (interfaces.imp fun _ _ known => found known).flip

end Build

/-- The table of the bootstrap methods goes where its place is. -/
theorem ClassBuilder.finish_table {builder : ClassBuilder} (distinct : builder.pool.Distinct)
    {table : Attribute} (named : builder.pool.utf8 table.name = .ok Attribute.bootstrapMethods)
    (some : builder.pool.bootstraps ≠ #[])
    (encoded : BootstrapMethod.encodeTable builder.pool.bootstraps.toList = .ok table.info)
    {front back : List Attribute} (others : builder.attributes.toList = front ++ back)
    (place : builder.bootstrapPlace = front.length) :
    builder.finish = .ok (front ++ table :: back, builder.pool) := by
  rw [finish, if_neg fun empty => some (Array.isEmpty_iff.mp empty)]
  refine bind_eq_ok.mpr ⟨_, encoded, ?_⟩
  rw [distinct.run_addUtf8 named, others, place]
  dsimp only
  rw [List.take_left, List.drop_left]
  rfl

namespace ClassImage

variable {image : ClassImage} {builder : ClassBuilder}

theorem run_replayFields (fields : List Field) :
    (forM fields (image.replayField true)).run builder =
      (.ok ⟨⟩, { builder with fields := builder.fields ++ fields.toArray }) := by
  induction fields generalizing builder with
  | nil => rw [Array.append_empty]; rfl
  | cons field fields ih =>
    rw [List.forM_cons]
    refine run_bind_eq_ok.mpr ⟨⟨⟩, { builder with fields := builder.fields.push field }, rfl, ?_⟩
    rw [← List.push_append_toArray]
    exact ih

theorem run_replayMethods (nothing : builder.mode = .nothing) (methods : List Method) :
    (forM methods (image.replayMethod true)).run builder =
      (.ok ⟨⟩, { builder with methods := builder.methods ++ methods.toArray }) := by
  induction methods generalizing builder with
  | nil => rw [Array.append_empty]; rfl
  | cons method methods ih =>
    rw [List.forM_cons]
    refine run_bind_eq_ok.mpr ⟨⟨⟩, { builder with methods := builder.methods.push method }, ?_, ?_⟩
    · have copied : (true && builder.mode == .nothing) = true := by rw [nothing]; rfl
      rw [replayMethod, run_get_bind]
      exact congrArg (fun action : Build Unit => action.run builder) (if_pos copied)
    · rw [← List.push_append_toArray]
      exact ih nothing

/-- Attributes with other names keep these and their bytes. -/
theorem run_replayOthers (distinct : builder.pool.Distinct) (same : image.pool = builder.pool)
    {attributes : List Attribute} (others : ∀ attr ∈ attributes, IsOther builder.pool attr) :
    (forM attributes (image.replayAttribute true)).run builder =
      (.ok ⟨⟩, { builder with attributes := builder.attributes ++ attributes.toArray }) := by
  induction attributes generalizing builder with
  | nil => rw [Array.append_empty]; rfl
  | cons attr attributes ih =>
    rw [List.forall_mem_cons] at others
    rcases others.1 with ⟨name, isName, other⟩
    rw [List.forM_cons]
    refine run_bind_eq_ok.mpr
      ⟨⟨⟩, { builder with attributes := builder.attributes.push attr }, ?_, ?_⟩
    · refine run_bind_eq_ok.mpr ⟨name, builder, run_lift_eq_ok.mpr ⟨same ▸ isName, rfl⟩, ?_⟩
      rw [Bool.true_or, if_pos rfl, Build.addAttribute, if_neg other]
      exact run_bind_eq_ok.mpr ⟨attr.name, builder,
        Build.run_symbol (distinct.run_addUtf8 isName), rfl⟩
    · rw [← List.push_append_toArray]
      exact @ih { builder with attributes := builder.attributes.push attr } distinct same others.2

/-- The table of bootstrap methods leaves its place. -/
theorem run_replayTable (same : image.pool = builder.pool) {table : Attribute}
    (named : builder.pool.utf8 table.name = .ok Attribute.bootstrapMethods) :
    (image.replayAttribute true table).run builder =
      (.ok ⟨⟩, { builder with bootstrapPlace := builder.attributes.size }) := by
  refine run_bind_eq_ok.mpr ⟨_, builder, run_lift_eq_ok.mpr ⟨same ▸ named, rfl⟩, ?_⟩
  rw [Bool.true_or, if_pos rfl, Build.addAttribute, if_pos rfl]
  rfl

/-- The bootstrap methods of a class stand in one of its attributes, if it has any. -/
def HoldsTable (image : ClassImage) : Prop :=
  image.pool.bootstraps = #[] ∧ (∀ attr ∈ image.attributes, IsOther image.pool attr) ∨
    ∃ front table back, image.attributes = front ++ table :: back ∧
      (∀ attr ∈ front, IsOther image.pool attr) ∧ (∀ attr ∈ back, IsOther image.pool attr) ∧
      image.pool.utf8 table.name = .ok Attribute.bootstrapMethods ∧
      image.pool.bootstraps ≠ #[] ∧
      BootstrapMethod.encodeTable image.pool.bootstraps.toList = .ok table.info

/-- After its attributes were built again, a class is finished with what it had. -/
theorem run_replayAttributes (distinct : builder.pool.Distinct) (same : image.pool = builder.pool)
    (none : builder.attributes = #[]) (holds : image.HoldsTable) :
    ∃ after : ClassBuilder,
      (forM image.attributes (image.replayAttribute true)).run builder = (.ok ⟨⟩, after) ∧
        after = { builder with
          attributes := after.attributes, bootstrapPlace := after.bootstrapPlace } ∧
        after.finish = .ok (image.attributes, image.pool) := by
  rcases holds with ⟨noTable, others⟩ | ⟨front, table, back, whole, before, behind, named, some, encoded⟩
  · rw [same] at others noTable ⊢
    refine ⟨_, run_replayOthers distinct same others, rfl, ?_⟩
    rw [ClassBuilder.finish, noTable, none, Array.empty_append]
    rfl
  · rw [same] at before behind named some encoded
    rw [whole, same, List.forM_append, List.forM_cons]
    -- What comes before the table, the table, and what comes behind it.
    let middle := { builder with attributes := builder.attributes ++ front.toArray }
    let placed := { middle with bootstrapPlace := middle.attributes.size }
    let after := { placed with attributes := placed.attributes ++ back.toArray }
    refine ⟨after, ?_, rfl, ?_⟩
    · refine run_bind_eq_ok.mpr ⟨⟨⟩, middle, run_replayOthers distinct same before, ?_⟩
      refine run_bind_eq_ok.mpr ⟨⟨⟩, placed, @run_replayTable _ middle same _ named, ?_⟩
      exact @run_replayOthers _ placed distinct same _ behind
    · apply @ClassBuilder.finish_table after distinct table named some encoded
      · change ((builder.attributes ++ front.toArray) ++ back.toArray).toList = _
        rw [none, Array.empty_append, List.append_toArray]
      · change (builder.attributes ++ front.toArray).size = _
        rw [none, Array.empty_append, List.size_toArray]

/-- A class is built again as it was, if its entries are pairwise different and its
names can be resolved. -/
theorem run_replay (nothing : builder.mode = .nothing) (same : image.pool = builder.pool)
    (distinct : builder.pool.Distinct) (fields : builder.fields = #[])
    (methods : builder.methods = #[]) (none : builder.attributes = #[])
    (small : image.pool.count < 65536) (holds : image.HoldsTable) {name : String}
    {superName : Option String} {interfaceNames : List String} (isName : image.name = .ok name)
    (isSuper : image.superName = .ok superName)
    (areInterfaces : image.interfaceNames = .ok interfaceNames) :
    ∃ after, (image.replay true).run builder = (.ok ⟨⟩, after) ∧ after.image = .ok image := by
  let header : Header := ⟨image.version, image.access, name, image.thisClass, image.superClass,
    image.interfaces⟩
  let named := { builder with header := some header }
  let filled := { named with fields := named.fields ++ image.fields.toArray }
  let copied := { filled with methods := filled.methods ++ image.methods.toArray }
  rcases @run_replayAttributes image copied distinct same none holds with ⟨after, run, whole, finished⟩
  refine ⟨after, ?_, ?_⟩
  · rw [replay]
    refine run_bind_eq_ok.mpr ⟨_, builder, run_lift_eq_ok.mpr ⟨areInterfaces, rfl⟩, ?_⟩
    refine run_bind_eq_ok.mpr ⟨_, builder, run_lift_eq_ok.mpr ⟨isName, rfl⟩, ?_⟩
    refine run_bind_eq_ok.mpr ⟨_, builder, run_lift_eq_ok.mpr ⟨isSuper, rfl⟩, ?_⟩
    refine run_bind_eq_ok.mpr ⟨⟨⟩, named, ?_, ?_⟩
    · rw [ClassImage.name, same] at isName
      rw [ClassImage.superName, same, option_mapM_eq_ok] at isSuper
      rw [ClassImage.interfaceNames, same, mapM_eq_ok] at areInterfaces
      exact @Build.run_setHeader _ header _ _ distinct isName isSuper areInterfaces
    · rw [forIn_eq_forM, forIn_eq_forM, forIn_eq_forM]
      refine run_bind_eq_ok.mpr ⟨⟨⟩, filled, run_replayFields image.fields, ?_⟩
      refine run_bind_eq_ok.mpr ⟨⟨⟩, copied, @run_replayMethods _ filled nothing image.methods, ?_⟩
      exact run_bind_eq_ok.mpr ⟨⟨⟩, after, run, rfl⟩
  · have hasHeader : after.header = some header := by rw [whole]
    rw [ClassBuilder.image, hasHeader]
    refine bind_eq_ok.mpr ⟨_, finished, bind_eq_ok.mpr ⟨⟨⟩, if_pos small, ?_⟩⟩
    have fields_eq : after.fields.toList = image.fields := by
      rw [whole]
      change (builder.fields ++ image.fields.toArray).toList = _
      rw [fields, Array.empty_append]
    have methods_eq : after.methods.toList = image.methods := by
      rw [whole]
      change (builder.methods ++ image.methods.toArray).toList = _
      rw [methods, Array.empty_append]
    rw [fields_eq, methods_eq]
    rfl

end ClassImage

/-- What is parsed is written as it is, if nothing is to be computed. -/
theorem Settings.reencode_eq_encode {settings : Settings} (nothing : settings.mode = .nothing)
    {bytes : Bytes} {image : ClassImage} (parsed : ClassImage.parse bytes = .ok image)
    (distinct : image.pool.Distinct) (small : image.pool.count < 65536)
    (holds : image.HoldsTable) {name : String} {superName : Option String}
    {interfaceNames : List String} (isName : image.name = .ok name)
    (isSuper : image.superName = .ok superName)
    (areInterfaces : image.interfaceNames = .ok interfaceNames) :
    settings.reencode bytes = image.encode := by
  rcases @ClassImage.run_replay image (.ofPool settings.mode settings.hierarchy image.pool) nothing
    rfl distinct rfl rfl rfl small holds name superName interfaceNames isName isSuper
    areInterfaces with ⟨after, run, made⟩
  have built : settings.reencode bytes = after.encode := by
    rw [Settings.reencode, parsed]
    dsimp only [bind, Except.bind]
    rw [run]
  rw [built, ClassBuilder.encode, made]
  rfl

theorem ClassImage.count_lt {image : ClassImage} {bytes : Bytes}
    (encoded : image.encode = .ok bytes) : image.pool.count < 65536 := by
  rcases bind_eq_ok.mp encoded with ⟨pool, isPool, -⟩
  rw [Pool.encode] at isPool
  split at isPool
  · next small => exact small
  · cases isPool

/-! ## Well-formed class files -/

namespace Transcript

def IsTable (written : Transcript) (attr : Attribute) : Prop :=
  written.pool.utf8 attr.name = .ok Attribute.bootstrapMethods

/-- A class file that is spelled like one that is written. -/
structure WellFormed (written : Transcript) : Prop extends written.Faithful where
  distinct : written.constants.Nodup
  thisClass_named : ∃ name, written.pool.className written.thisClass = .ok name
  superClass_named : ∀ index, written.superClass = some index →
    ∃ name, written.pool.className index = .ok name
  interfaces_named : ∀ index ∈ written.interfaces, ∃ name, written.pool.className index = .ok name
  one_table : written.attributes.Pairwise fun first second =>
    ¬(written.IsTable first ∧ written.IsTable second)
  table_filled : ∀ attr ∈ written.attributes, written.IsTable attr →
    ∃ method methods, BootstrapMethod.readTable.toEnd.runOn attr.info = .ok (method :: methods)

variable {written : Transcript} {bootstraps : List BootstrapMethod}

/-- An attribute is the table or has another name, so with one table at most, a list
of them has others only or is split by it. -/
theorem split_table {attributes : List Attribute}
    (named : ∀ attr ∈ attributes, ∃ name, written.pool.utf8 attr.name = .ok name)
    (one : attributes.Pairwise fun first second =>
      ¬(written.IsTable first ∧ written.IsTable second)) :
    (∀ attr ∈ attributes, ClassImage.IsOther written.pool attr) ∨
      ∃ front table back, attributes = front ++ table :: back ∧ written.IsTable table ∧
        (∀ attr ∈ front, ClassImage.IsOther written.pool attr) ∧
        ∀ attr ∈ back, ClassImage.IsOther written.pool attr := by
  have other : ∀ attr ∈ attributes, ¬written.IsTable attr → ClassImage.IsOther written.pool attr := by
    intro attr member notTable
    rcases named attr member with ⟨name, isName⟩
    refine ⟨name, isName, ?_⟩
    rintro rfl
    exact notTable isName
  by_cases any : ∃ table ∈ attributes, written.IsTable table
  · rcases any with ⟨table, member, isTable⟩
    rcases List.append_of_mem member with ⟨front, back, rfl⟩
    rw [List.pairwise_append, List.pairwise_cons] at one
    refine .inr ⟨front, table, back, rfl, isTable, fun attr inside => ?_, fun attr inside => ?_⟩
    · apply other attr (List.mem_append_left _ inside)
      exact fun also => one.2.2 attr inside table List.mem_cons_self ⟨also, isTable⟩
    · apply other attr (List.mem_append_right _ (List.mem_cons_of_mem _ inside))
      exact fun also => one.2.1.1 attr inside ⟨isTable, also⟩
  · exact .inl fun attr member => other attr member fun isTable => any ⟨attr, member, isTable⟩

theorem WellFormed.holdsTable (wellFormed : written.WellFormed)
    (read : ClassImage.readBootstraps written.pool written.attributes = .ok bootstraps) :
    (written.image bootstraps).HoldsTable := by
  have same := Pool.constants_ofLists_congr written.constants bootstraps []
  have others : ∀ attr, ClassImage.IsOther written.pool attr →
      ClassImage.IsOther (written.image bootstraps).pool attr := by
    rintro attr ⟨name, isName, other⟩
    exact ⟨name, (Pool.utf8_congr same _).trans isName, other⟩
  have table_eq := Pool.bootstraps_ofLists written.constants bootstraps
  rcases split_table (ClassImage.readBootstraps_named read) wellFormed.one_table with
    none | ⟨front, table, back, whole, isTable, before, behind⟩
  · cases read.symm.trans (ClassImage.readBootstraps_others none)
    exact .inl ⟨table_eq, fun attr member => others attr (none attr member)⟩
  · have inside : table ∈ written.attributes := by
      rw [whole]
      exact List.mem_append_right _ List.mem_cons_self
    rcases wellFormed.table_filled table inside isTable with ⟨method, methods, filled⟩
    have encoded := BootstrapMethod.takes_table.toEnd filled
    rw [whole] at read
    cases read.symm.trans (ClassImage.readBootstraps_table before behind isTable encoded)
    refine .inr ⟨front, table, back, whole, fun attr member => others attr (before attr member),
      fun attr member => others attr (behind attr member), ?_, ?_, ?_⟩
    · exact (Pool.utf8_congr same _).trans isTable
    · change (Pool.ofLists _ _).bootstraps ≠ _
      rw [table_eq]
      exact nofun
    · change BootstrapMethod.encodeTable (Pool.ofLists _ _).bootstraps.toList = _
      rw [table_eq]
      exact encoded

theorem className_image {index : PoolIndex}
    (named : ∃ name, written.pool.className index = .ok name) :
    ∃ name, (written.image bootstraps).pool.className index = .ok name := by
  rcases named with ⟨name, isName⟩
  have same := Pool.constants_ofLists_congr written.constants bootstraps []
  exact ⟨name, (Pool.className_congr same _).trans isName⟩

theorem WellFormed.superName (wellFormed : written.WellFormed) :
    ∃ name?, (written.image bootstraps).superName = .ok name? := by
  change ∃ name?, written.superClass.mapM (written.image bootstraps).pool.className = .ok name?
  cases isSuper : written.superClass with
  | none => exact ⟨none, rfl⟩
  | some index =>
    rcases className_image (wellFormed.superClass_named index isSuper) with ⟨name, isName⟩
    exact ⟨some name, option_mapM_eq_ok.mpr (.some isName)⟩

theorem WellFormed.interfaceNames (wellFormed : written.WellFormed) :
    ∃ names, (written.image bootstraps).interfaceNames = .ok names :=
  exists_mapM_eq_ok fun index member => className_image (wellFormed.interfaces_named index member)

end Transcript

/-- A class file that was parsed has a transcript, and if this is well formed, then
the class file is encoded again byte by byte where nothing is computed. -/
theorem Settings.reencode_wellFormed {settings : Settings} (nothing : settings.mode = .nothing)
    {bytes : Bytes} {image : ClassImage} (parsed : ClassImage.parse bytes = .ok image) :
    ∃ written bootstraps, Transcript.read.toEnd.runOn bytes = .ok written ∧
      written.image bootstraps = image ∧
      (written.WellFormed → settings.reencode bytes = .ok bytes) := by
  rcases Transcript.parse_eq_ok.mp parsed with ⟨written, bootstraps, isWritten, areBootstraps, rfl⟩
  refine ⟨written, bootstraps, isWritten, rfl, fun wellFormed => ?_⟩
  have encoded := Transcript.takes.toEnd isWritten wellFormed.toFaithful bootstraps
  rcases @Transcript.className_image _ bootstraps _ wellFormed.thisClass_named with ⟨name, isName⟩
  rcases @Transcript.WellFormed.superName _ bootstraps wellFormed with ⟨superName, isSuper⟩
  rcases @Transcript.WellFormed.interfaceNames _ bootstraps wellFormed with
    ⟨interfaceNames, areInterfaces⟩
  have distinct : (written.image bootstraps).pool.Distinct := by
    rw [Pool.Distinct, Transcript.image, Pool.toList_ofLists]
    exact wellFormed.distinct
  rw [reencode_eq_encode nothing parsed distinct (ClassImage.count_lt encoded)
    (wellFormed.holdsTable areBootstraps) isName isSuper areInterfaces]
  exact encoded

/-- A class with a field, a method with code and a table of one bootstrap method. -/
theorem Settings.reencode_wellFormed_tabled :
    let bytes : Bytes := [0xCA, 0xFE, 0xBA, 0xBE, 0, 0, 0, 52, 0, 10,
      1, 0, 1, 65, 7, 0, 1, 1, 0, 1, 73, 1, 0, 3, 40, 41, 86, 1, 0, 4, 67, 111, 100, 101,
      1, 0, 16, 66, 111, 111, 116, 115, 116, 114, 97, 112, 77, 101, 116, 104, 111, 100, 115,
      12, 0, 1, 0, 4, 10, 0, 2, 0, 7, 15, 6, 0, 8,
      0, 0x21, 0, 2, 0, 0, 0, 0,
      0, 1, 0, 2, 0, 1, 0, 3, 0, 0,
      0, 1, 0, 9, 0, 1, 0, 4, 0, 1,
      0, 5, 0, 0, 0, 13, 0, 0, 0, 0, 0, 0, 0, 1, 0xB1, 0, 0, 0, 0,
      0, 1, 0, 6, 0, 0, 0, 6, 0, 1, 0, 9, 0, 0]
    ∃ image, ClassImage.parse bytes = .ok image ∧ image.fields.length = 1 ∧
      image.methods.length = 1 ∧ image.pool.bootstraps.size = 1 ∧
      (⟨.nothing, []⟩ : Settings).reencode bytes = .ok bytes := by
  intro bytes
  let field : MemberTranscript := ⟨0x0002, 1, 3, []⟩
  let code : Attribute := ⟨5, [0, 0, 0, 0, 0, 0, 0, 1, 0xB1, 0, 0, 0, 0]⟩
  let method : MemberTranscript := ⟨0x0009, 1, 4, [code]⟩
  let table : Attribute := ⟨6, [0, 1, 0, 9, 0, 0]⟩
  let written : Transcript := ⟨⟨0, 52⟩, [(.utf8 "A", [1, 0, 1, 65]), (.cls 1, [7, 0, 1]),
    (.utf8 "I", [1, 0, 1, 73]), (.utf8 "()V", [1, 0, 3, 40, 41, 86]),
    (.utf8 "Code", [1, 0, 4, 67, 111, 100, 101]),
    (.utf8 "BootstrapMethods", [1, 0, 16, 66, 111, 111, 116, 115, 116, 114, 97, 112, 77, 101, 116,
      104, 111, 100, 115]),
    (.nameAndType 1 4, [12, 0, 1, 0, 4]), (.methodRef 2 7 false, [10, 0, 2, 0, 7]),
    (.methodHandle .invokeStatic 8, [15, 6, 0, 8])],
    0x21, 2, none, [], [field], [method], [table]⟩
  have isWritten : Transcript.read.toEnd.runOn bytes = .ok written := by decide +kernel
  have areBootstraps : ClassImage.readBootstraps written.pool written.attributes =
      .ok [⟨9, []⟩] := by decide +kernel
  have parsed := Transcript.parse_eq_ok.mpr ⟨written, _, isWritten, areBootstraps, rfl⟩
  have wellFormed : written.WellFormed := {
    canonical := by
      simp only [written, List.forall_mem_cons]
      exact ⟨rfl, trivial, rfl, rfl, rfl, rfl, trivial, trivial, trivial, nofun⟩
    flags_known := by decide
    fields_known := List.forall_mem_singleton.mpr (by decide)
    methods_known := List.forall_mem_singleton.mpr (by decide)
    distinct := by decide
    thisClass_named := ⟨"A", by decide +kernel⟩
    superClass_named := nofun
    interfaces_named := nofun
    one_table := List.pairwise_singleton _ _
    table_filled := by
      rintro attr member -
      cases List.mem_singleton.mp member
      exact ⟨⟨9, []⟩, [], by decide +kernel⟩ }
  rcases @reencode_wellFormed ⟨.nothing, []⟩ rfl bytes _ parsed with ⟨written', _, same, -, again⟩
  cases isWritten.symm.trans same
  exact ⟨_, parsed, rfl, rfl, rfl, again wellFormed⟩

end ClassFile
