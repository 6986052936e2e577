import ClassFile.Proofs.Class.Reading
import ClassFile.Proofs.Class.Sessions

namespace ClassFile

/-!
# Finished classes

However a class was built, and whatever failed on the way, once it is written it
is read back with the header of the last visit and with the pool, the members and
the attributes that it was finished with.  Its members are those that were asked for.

The table of bootstrap methods is written from the pool, and its name joins the pool
only then.  It is the only attribute with this name, so reading it gives the methods
of the pool.
-/

/-- The header of an image is that of a visit. -/
structure Visit.Heads (visit : Visit) (image : ClassImage) : Prop where
  version_eq : image.version = visit.version
  access_eq : image.access = visit.access
  name_eq : image.name = .ok visit.name
  superName_eq : image.superName = .ok visit.superName
  interfaceNames_eq : image.interfaceNames = .ok visit.interfaceNames

/-- A pool that is grounded has no class at zero, which stands for none. -/
theorem Visit.Describes.superClass_ne {visit : Visit} {pool : Pool} {header : Header}
    (describes : visit.Describes pool header) (grounded : Pool.Grounded pool) :
    header.superClass ≠ some 0 := by
  intro isZero
  have known := describes.superClass
  rw [isZero] at known
  generalize visit.superName = name? at known
  cases known with
  | some found =>
    rcases Pool.className_eq_ok.mp found with ⟨text, isClass, -⟩
    exact absurd (grounded.pos_of_mem (Pool.entry_eq_ok.mp isClass)) (Nat.lt_irrefl 0)

/-- Places in the bootstrap table fit in a word. -/
theorem Pool.Grounded.bootstrap_lt {pool : Pool} (grounded : Grounded pool) :
    ∀ constant ∈ pool.constants.toList, ∀ position, constant.bootstrap? = some position →
      position < 65536 := by
  intro constant member position needed
  rcases List.mem_map.mp member with ⟨⟨slot, _⟩, inside, rfl⟩
  exact Nat.lt_of_lt_of_le (grounded.computed slot _ inside position needed) grounded.table_small

namespace ClassBuilder

variable {builder : ClassBuilder} {attributes : List Attribute} {pool : Pool}

/-- A class is finished as it is, or with the table of its bootstrap methods. -/
theorem finish_cases (finished : builder.finish = .ok (attributes, pool)) :
    builder.pool.bootstraps = #[] ∧ attributes = builder.attributes.toList ∧
        pool = builder.pool ∨
      ∃ info name, BootstrapMethod.encodeTable builder.pool.bootstraps.toList = .ok info ∧
        (Pool.addUtf8 Attribute.bootstrapMethods).run builder.pool = (name, pool) ∧
        attributes = builder.attributes.toList.take builder.bootstrapPlace ++
          ⟨name, info⟩ :: builder.attributes.toList.drop builder.bootstrapPlace := by
  rw [finish] at finished
  split at finished
  · next none =>
    cases finished
    exact .inl ⟨Array.isEmpty_iff.mp none, rfl, rfl⟩
  · rcases bind_eq_ok.mp finished with ⟨info, encoded, rest⟩
    cases rest
    exact .inr ⟨info, _, encoded, rfl, rfl⟩

/-- The parts of an image are those of the builder it was made of. -/
theorem image_eq_ok {image : ClassImage} (made : builder.image = .ok image) :
    ∃ header, builder.header = some header ∧
      builder.finish = .ok (image.attributes, image.pool) ∧
      image.version = header.version ∧ image.access = header.access ∧
      image.thisClass = header.thisClass ∧ image.superClass = header.superClass ∧
      image.interfaces = header.interfaces ∧ image.fields = builder.fields.toList ∧
      image.methods = builder.methods.toList := by
  rw [ClassBuilder.image] at made
  split at made
  · next header found =>
    rcases bind_eq_ok.mp made with ⟨⟨attributes, pool⟩, finished, rest⟩
    rcases bind_eq_ok.mp rest with ⟨_, -, last⟩
    cases last
    exact ⟨header, found, finished, rfl, rfl, rfl, rfl, rfl, rfl, rfl⟩
  · cases made

/-- Finishing a class adds no bootstrap methods, and its attributes tell those that
it has. -/
theorem Sound.finish {visited : Option Visit} (sound : Sound visited builder)
    (finished : builder.finish = .ok (attributes, pool)) :
    Pool.Grows builder.pool pool ∧ pool.bootstraps = builder.pool.bootstraps ∧
      ∀ found : Pool, found.constants = pool.constants →
        ClassImage.readBootstraps found attributes = .ok pool.bootstraps.toList := by
  rcases finish_cases finished with ⟨none, rfl, rfl⟩ | ⟨info, name, encoded, run, rfl⟩
  · -- Without bootstrap methods there is no table to be found.
    refine ⟨refl_of Pool.Grows builder.pool, rfl, fun found same => ?_⟩
    rw [none]
    apply ClassImage.readBootstraps_others
    intro attr member
    rcases sound.attributes attr member with ⟨name, isName, other⟩
    exact ⟨name, (Pool.utf8_congr same _).trans isName, other⟩
  · have grows : Pool.Grows builder.pool pool := by
      have along := Pool.Lasts.along fun _ => Pool.addUtf8_lasts Attribute.bootstrapMethods
      have here := along builder.pool
      rwa [Pool.run_lift, run] at here
    rcases Pool.intern_spec builder.pool (.utf8 Attribute.bootstrapMethods) with
      ⟨index, after, run', kept, isName, -⟩
    cases run'.symm.trans run
    have same_table : pool.bootstraps = builder.pool.bootstraps := by
      rcases kept with rfl | ⟨-, rfl⟩ <;> rfl
    refine ⟨grows, same_table, fun found same => ?_⟩
    have others : ∀ attr ∈ builder.attributes.toList, ClassImage.IsOther found attr := by
      intro attr member
      rcases sound.attributes attr member with ⟨name, isName, other⟩
      exact ⟨name, (Pool.utf8_congr same _).trans (grows.extends_.utf8 isName), other⟩
    rw [same_table]
    apply ClassImage.readBootstraps_table
    · exact fun attr member => others attr (List.mem_of_mem_take member)
    · exact fun attr member => others attr (List.mem_of_mem_drop member)
    · exact (Pool.utf8_congr same _).trans (Pool.utf8_eq_ok.mpr isName)
    · exact encoded

/-- A header that is that of a visit in a pool heads every image with its indices
and the entries of the pool. -/
theorem heads_of_describes {visit : Visit} {header : Header} {image : ClassImage}
    (describes : visit.Describes pool header) (same : image.pool.constants = pool.constants)
    (version_eq : image.version = header.version) (access_eq : image.access = header.access)
    (thisClass : image.thisClass = header.thisClass)
    (superClass : image.superClass = header.superClass)
    (interfaces : image.interfaces = header.interfaces) : visit.Heads image where
  version_eq := version_eq.trans describes.version_eq
  access_eq := access_eq.trans describes.access_eq
  name_eq := by
    rw [ClassImage.name, thisClass, Pool.className_congr same]
    exact describes.thisClass
  superName_eq := by
    rw [ClassImage.superName, superClass, option_mapM_eq_ok]
    exact optionRel_imp (fun _ _ known => (Pool.className_congr same _).trans known)
      describes.superClass
  interfaceNames_eq := by
    rw [ClassImage.interfaceNames, interfaces, mapM_eq_ok]
    exact describes.interfaces.imp fun _ _ known => (Pool.className_congr same _).trans known

/-- A sound class that is written is read back with what it was finished with. -/
theorem Sound.parse_encode {visited : Option Visit} (sound : Sound visited builder) {bytes : Bytes}
    (encoded : builder.encode = .ok bytes) :
    ∃ visit attributes pool image, visited = some visit ∧
      builder.finish = .ok (attributes, pool) ∧ ClassImage.parse bytes = .ok image ∧
      visit.Heads image ∧ image.pool.constants = pool.constants ∧
      image.pool.bootstraps = pool.bootstraps ∧ image.fields = builder.fields.toList ∧
      image.methods = builder.methods.toList ∧ image.attributes = attributes := by
  rcases bind_eq_ok.mp encoded with ⟨image, made, written⟩
  rcases image_eq_ok made with ⟨header, hasHeader, finished, isVersion, isAccess, isThis, isSuper,
    areInterfaces, areFields, areMethods⟩
  rcases sound.finish finished with ⟨grows, sameTable, bootstraps⟩
  have grounded := grows.grounded sound.grounded
  have same := Pool.constants_ofLists grounded.start_eq
  have isVisit := sound.header
  rw [hasHeader] at isVisit
  cases isVisit with
  | @some visit _ describes =>
    have described := describes.grow grows.extends_
    have parsed := ClassImage.parse_encode grounded.start_eq grounded.bootstrap_lt
      (isSuper ▸ described.superClass_ne grounded) (bootstraps _ (same [])) written
    refine ⟨visit, image.attributes, image.pool, _, rfl, finished, parsed, ?_, same _, ?_,
      areFields, areMethods, rfl⟩
    · exact heads_of_describes described (same _) isVersion isAccess isThis isSuper areInterfaces
    · rw [Pool.bootstraps_ofLists]

/-- The members that are read back are those that were asked for by the events that
succeeded, in their order. -/
theorem members_runAll (mode : ComputeMode) (hierarchy : Hierarchy) (events : List ClassEvent)
    (bytes : Bytes)
    (encoded : ((ofPool mode hierarchy .empty).runAll events).encode = .ok bytes) :
    ∃ image, ClassImage.parse bytes = .ok image ∧
      List.Forall₂ (fun head field => head.Describes image.pool field)
        (((ofPool mode hierarchy .empty).successes events).filterMap ClassEvent.field?)
        image.fields ∧
      List.Forall₂ (fun head method => head.Describes image.pool method)
        (((ofPool mode hierarchy .empty).successes events).filterMap ClassEvent.method?)
        image.methods := by
  have sound := Sound.runAll mode hierarchy events
  have consists := Consists.runAll mode hierarchy events
  rcases sound.parse_encode encoded with
    ⟨_, attributes, pool, image, -, finished, parsed, -, same, -, fields, methods, -⟩
  have grown := (sound.finish finished).1.extends_
  have read : ∀ {kind : AccessKind} (head : MemberHead kind) member,
      head.Describes ((ofPool mode hierarchy .empty).runAll events).pool member →
        head.Describes image.pool member := fun _ _ describes =>
    (describes.grow grown).congr same
  refine ⟨image, parsed, ?_, ?_⟩
  · rw [fields]
    exact consists.fields.imp read
  · rw [methods]
    exact consists.methods.imp read

/-- Whatever a class went through, when it is written it is read back: the header
of the last visit, and the pool, members and attributes it was finished with. -/
theorem parse_encode_runAll (mode : ComputeMode) (hierarchy : Hierarchy)
    (events : List ClassEvent) (bytes : Bytes)
    (encoded : ((ofPool mode hierarchy .empty).runAll events).encode = .ok bytes) :
    ∃ visit attributes pool image, lastVisit? events = some visit ∧
      ((ofPool mode hierarchy .empty).runAll events).finish = .ok (attributes, pool) ∧
      ClassImage.parse bytes = .ok image ∧ visit.Heads image ∧
      image.pool.constants = pool.constants ∧ image.pool.bootstraps = pool.bootstraps ∧
      image.fields = ((ofPool mode hierarchy .empty).runAll events).fields.toList ∧
      image.methods = ((ofPool mode hierarchy .empty).runAll events).methods.toList ∧
      image.attributes = attributes :=
  (Sound.runAll mode hierarchy events).parse_encode encoded

/-! ### A class with one part of each kind -/

def mixedVisit : Visit :=
  ⟨.standard, .ofBits 0x421, "A", none, []⟩

def mixedHandle : Handle :=
  ⟨.invokeStatic, "A", "A", "()V", false⟩

/-- A method before any header fails, and another one is given up half way. -/
def mixedEvents : List ClassEvent :=
  [.symbol (.bootstrap mixedHandle []),
    .method (.ofBits 1) "A" "()V" [] true,
    .visit mixedVisit,
    .field (.ofBits 2) "A" "I" none,
    .method (.ofBits 1) "f" "()V" [.returnResult] false,
    .method (.ofBits 0x401) "A" "()V" [] true,
    .attr "A" [7]]

/-- The entries of the bootstrap method. -/
def mixedPool : Pool :=
  .ofLists [.utf8 "A", .cls 1, .utf8 "()V", .nameAndType 1 3, .methodRef 2 4 false,
    .methodHandle .invokeStatic 5] [⟨6, []⟩]

def mixedLast : ClassBuilder where
  mode := .nothing
  pool := (mixedPool.append (.utf8 "I")).append (.utf8 "f")
  hierarchy := .ofGraph .empty []
  header := some ⟨.standard, .ofBits 0x421, "A", 2, none, []⟩
  fields := #[⟨.ofBits 2, 1, 7, []⟩]
  methods := #[⟨.ofBits 0x401, 1, 3, []⟩]
  attributes := #[⟨1, [7]⟩]
  bootstrapPlace := 0

def mixedBytes : Bytes :=
  [0xCA, 0xFE, 0xBA, 0xBE, 0, 0, 0, 52, 0, 10,
    1, 0, 1, 65, 7, 0, 1, 1, 0, 3, 40, 41, 86, 12, 0, 1, 0, 3, 10, 0, 2, 0, 4, 15, 6, 0, 5,
    1, 0, 1, 73, 1, 0, 1, 102,
    1, 0, 16, 66, 111, 111, 116, 115, 116, 114, 97, 112, 77, 101, 116, 104, 111, 100, 115,
    0x04, 0x21, 0, 2, 0, 0, 0, 0,
    0, 1, 0, 2, 0, 1, 0, 7, 0, 0,
    0, 1, 0x04, 0x01, 0, 1, 0, 3, 0, 0,
    0, 2, 0, 9, 0, 0, 0, 6, 0, 1, 0, 6, 0, 0, 0, 1, 0, 0, 0, 1, 7]

theorem run_addBootstrap_mixed :
    (Pool.addBootstrap mixedHandle []).run .empty = (.ok 0, mixedPool) := by
  let handled : Pool := .ofLists [.utf8 "A", .cls 1, .utf8 "()V", .nameAndType 1 3,
    .methodRef 2 4 false, .methodHandle .invokeStatic 5] []
  have isHandle : (liftM (Pool.addHandle mixedHandle) : Pool.Request PoolIndex).run .empty =
      (.ok 6, handled) := by
    simp only [Pool.run_lift, Pool.addHandle, Pool.addMethodRef, Pool.addNameAndType,
      Pool.addClass, Pool.addUtf8, Pool.intern_eq]
    rfl
  have isNew : handled.positions[(⟨6, []⟩ : BootstrapMethod)]? = none :=
    (handled.positions_eq _).trans rfl
  refine (run_bind_of_ok rfl).trans ((run_bind_of_ok isHandle).trans ?_)
  change (Pool.internBootstrap ⟨6, []⟩).run handled = _
  rw [Pool.internBootstrap, run_get_bind, isNew]
  rfl

theorem runAll_mixed :
    (ofPool .nothing (.ofGraph .empty []) .empty).runAll mixedEvents = mixedLast := by
  have parsed : MethodDescriptor.parse "()V" = .ok ⟨[], none⟩ := by decide +kernel
  have first : (ClassEvent.symbol (.bootstrap mixedHandle [])).build.run
      (ofPool .nothing (.ofGraph .empty []) .empty) =
        (.ok ⟨⟩, ofPool .nothing (.ofGraph .empty []) mixedPool) :=
    run_bind_of_ok (Build.run_symbol_of_run run_addBootstrap_mixed)
  rw [mixedEvents, runAll_cons first]
  simp only [runAll, List.foldl_cons, List.foldl_nil, ClassEvent.build, Build.setHeader,
    Build.addField, Build.beginMethod, Build.endMethod, Build.addAttribute, Pool.addClass,
    Pool.addUtf8, Pool.intern_eq, parsed]
  rfl

theorem finish_mixed : mixedLast.finish = .ok ([⟨9, [0, 1, 0, 6, 0, 0]⟩, ⟨1, [7]⟩],
    mixedLast.pool.append (.utf8 Attribute.bootstrapMethods)) := by
  have encoded : BootstrapMethod.encodeTable [⟨6, []⟩] = .ok [0, 1, 0, 6, 0, 0] := by
    decide +kernel
  have isTable : (Pool.addUtf8 Attribute.bootstrapMethods).run mixedLast.pool = (9, _) :=
    Pool.run_intern_of_none ((Pool.slots_eq _ _).trans rfl)
  rw [finish]
  refine (if_neg nofun).trans (bind_eq_ok.mpr ⟨_, encoded, ?_⟩)
  rw [isTable]
  rfl

/-- A class that is left with one field, one method, one attribute and one bootstrap
method. -/
theorem parse_encode_runAll_named :
    ((ofPool .nothing (.ofGraph .empty []) .empty).runAll mixedEvents).encode = .ok mixedBytes ∧
      ∃ image, ClassImage.parse mixedBytes = .ok image ∧ mixedVisit.Heads image ∧
        image.pool.bootstraps = #[⟨6, []⟩] ∧ image.fields = [⟨.ofBits 2, 1, 7, []⟩] ∧
        image.methods = [⟨.ofBits 0x401, 1, 3, []⟩] ∧
        image.attributes = [⟨9, [0, 1, 0, 6, 0, 0]⟩, ⟨1, [7]⟩] := by
  have encoded : ((ofPool .nothing (.ofGraph .empty []) .empty).runAll mixedEvents).encode =
      .ok mixedBytes := by
    rw [runAll_mixed, encode]
    have made : mixedLast.image = .ok _ :=
      bind_eq_ok.mpr ⟨_, finish_mixed, bind_eq_ok.mpr ⟨⟨⟩, if_pos (by decide +kernel), rfl⟩⟩
    refine bind_eq_ok.mpr ⟨_, made, ?_⟩
    decide +kernel
  rcases parse_encode_runAll _ _ mixedEvents mixedBytes encoded with
    ⟨_, attributes, pool, image, isLast, finished, parsed, heads, -, bootstraps, fields, methods, all⟩
  cases isLast
  rw [runAll_mixed] at finished fields methods
  cases finish_mixed.symm.trans finished
  exact ⟨encoded, image, parsed, heads, bootstraps, fields, methods, all⟩

end ClassBuilder
end ClassFile
