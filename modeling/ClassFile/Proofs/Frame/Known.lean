import ClassFile.Frame.Inference
import ClassFile.Proofs.Frame.Effects
import ClassFile.Proofs.Frame.Joining

namespace ClassFile

/-!
# Frames over known classes

Every type in a frame comes from the descriptor of the method, from the pool or
from a type that was there before.  So if all classes that the method and the
pool speak of are known, all classes in frames are, and the number of slots stays
what it was.
-/

/-- A handler is given the locals and what was caught, which is of a class that the pool names
or of the one of everything that can be thrown. -/
theorem Inference.caught_eq_ok {pool : Pool} {handler : Handler} {frame out : BlockFrame}
    (run : caught pool handler frame = .ok out) :
    ∃ cls, out = ⟨frame.locals, [.object cls]⟩ ∧
      ((∃ index, pool.className index = .ok cls) ∨ cls = ClassName.throwable.text) := by
  unfold caught at run
  dsimp only at run
  split at run
  · obtain ⟨cls, found, same⟩ := bind_eq_ok.1 run
    exact ⟨cls, (pure_eq_ok.1 same).symm, .inl ⟨_, found⟩⟩
  · exact ⟨_, (pure_eq_ok.1 run).symm, .inr rfl⟩

/-! ## Classes in field types -/

namespace FieldType

/-- The class whose objects the type is about, with arrays taken apart. -/
def leaf? : FieldType → Option ClassName
  | base _ => none
  | object name => some name
  | array element => element.leaf?

theorem chars_eq (type : FieldType) :
    ∃ dimensions element, type.chars = List.replicate dimensions '[' ++ element ∧
      element.head? ≠ some '[' ∧
      ∀ others, TypeName.elementClass? ⟨others, element⟩ = type.leaf?.map ClassName.text := by
  induction type with
  | base type =>
    exact ⟨0, [type.letter], rfl, by cases type <;> decide, fun _ => by cases type <;> rfl⟩
  | object name =>
    refine ⟨0, 'L' :: (name.text.toList ++ [';']), rfl, by simp, fun others => ?_⟩
    rw [TypeName.elementClass?_letter]
    rfl
  | array element ih =>
    obtain ⟨dimensions, rest, spelled, plain, found⟩ := ih
    refine ⟨dimensions + 1, rest, ?_, plain, found⟩
    rw [chars, spelled, List.replicate_succ, List.cons_append]

end FieldType

namespace Hierarchy

/-- The class of a reference type that is named as in a class constant. -/
theorem namedClass?_internalName {type : FieldType} (reference : type.isReference = true) :
    namedClass? type.internalName = type.leaf?.map ClassName.text := by
  cases type with
  | base => cases reference
  | object name =>
    rw [FieldType.internalName, namedClass?, if_pos (TypeName.dimensions_className name)]
    rfl
  | array element =>
    obtain ⟨dimensions, rest, spelled, plain, found⟩ := element.chars_eq
    have whole : (FieldType.array element).descriptor.toList =
        List.replicate (dimensions + 1) '[' ++ rest := by
      rw [FieldType.descriptor, String.toList_ofList, FieldType.chars, spelled,
        List.replicate_succ, List.cons_append]
    rw [FieldType.internalName, namedClass?, TypeName.ofString_of_toList whole plain,
      if_neg (Nat.succ_ne_zero dimensions), found]
    · rfl
    · exact fun name same => by cases same

variable {known : String → Option ClassInfo}

/-- A field type gives a known type if its class is known. -/
theorem typeKnown_ofFieldType {type : FieldType}
    (leafKnown : ∀ cls, type.leaf? = some cls → ∃ info, known cls.text = some info) :
    TypeKnown known (.ofFieldType type) := by
  intro name same cls named
  have reference : type.isReference = true := by
    cases type with
    | base type => cases type <;> cases same
    | object => rfl
    | array => rfl
  have isName : type.internalName = name := by
    cases type with
    | base => cases reference
    | object => exact VerificationType.object.inj same
    | array => exact VerificationType.object.inj same
  rw [← isName, namedClass?_internalName reference] at named
  obtain ⟨leaf, found, rfl⟩ := Option.map_eq_some_iff.1 named
  exact leafKnown leaf found

theorem nameKnown_className {name : ClassName} {info : ClassInfo}
    (found : known name.text = some info) : NameKnown known name.text := by
  intro cls named
  rw [namedClass?, if_pos (TypeName.dimensions_className name), Option.some.injEq] at named
  exact named ▸ ⟨info, found⟩

theorem leafKnown_of_nameKnown {name : String} {type : FieldType}
    (read : FieldType.ofInternalName name = .ok type) (nameKnown : NameKnown known name)
    (cls : ClassName) (leaf : type.leaf? = some cls) : ∃ info, known cls.text = some info := by
  obtain ⟨reference, rfl⟩ := FieldType.internalName_of_ofInternalName read
  refine nameKnown cls.text ?_
  rw [namedClass?_internalName reference, leaf]
  rfl

theorem typeKnown_arrayElement {type element : BlockType}
    (found : type.arrayElement? = some element) (arrayKnown : TypeKnown known type) :
    TypeKnown known element := by
  obtain ⟨name, inner, rfl, read, -, rfl⟩ := VerificationType.arrayElement?_eq_some found
  exact typeKnown_ofFieldType fun cls leaf => leafKnown_of_nameKnown read (arrayKnown name rfl) cls leaf

theorem typeKnown_root (rootKnown : ∃ info, known root = some info) :
    TypeKnown known (.object ClassName.object.text) := by
  rintro _ ⟨⟩
  obtain ⟨info, found⟩ := rootKnown
  exact nameKnown_className found

/-- What is loaded from an array of a known class is of a known class. -/
theorem typeKnown_elementType (rootKnown : ∃ info, known root = some info) {type : BlockType}
    (arrayKnown : TypeKnown known type) : TypeKnown known (CodeContext.elementType type) := by
  unfold CodeContext.elementType
  split
  · exact fun name same => by cases same
  · cases found : type.arrayElement? with
    | none => exact typeKnown_root rootKnown
    | some element => exact typeKnown_arrayElement found arrayKnown

/-! ## Instructions -/

/-- The classes that a method and its pool speak of are known. -/
structure NamesKnown (known : String → Option ClassInfo) (context : CodeContext) : Prop where
  root : ∃ info, known root = some info
  throwable : NameKnown known ClassName.throwable.text
  thisClass : NameKnown known context.method.thisClass
  parameters : ∀ type ∈ context.method.descriptor.parameters,
    TypeKnown known (.ofFieldType type)
  classes : ∀ index text, context.pool.className index = .ok text → NameKnown known text
  constants : ∀ index type, context.constantType index = .ok type → TypeKnown known type
  fields : ∀ index type, context.fieldType index = .ok type → TypeKnown known type
  results : ∀ index member descriptor type, context.pool.member index = .ok member →
    MethodDescriptor.parse member.descriptor = .ok descriptor → descriptor.result = some type →
      TypeKnown known (.ofFieldType type)
  dynamicResults : ∀ index signature descriptor type,
    context.pool.dynamicSignature index = .ok signature →
      MethodDescriptor.parse signature.descriptor = .ok descriptor →
        descriptor.result = some type → TypeKnown known (.ofFieldType type)

theorem typeKnown_top : TypeKnown known .top :=
  nofun

theorem FrameKnown.each {slots : Nat} {frame : BlockFrame} (frameKnown : FrameKnown known slots frame) :
    frame.Each (TypeKnown known) :=
  fun type member => member.elim (frameKnown.locals type) (frameKnown.stack type)

namespace NamesKnown

variable {context : CodeContext} {slots block : Nat} {frame after : BlockFrame}

theorem initializedClass (names : NamesKnown known context) {type : BlockType} {cls : String}
    (run : context.initializedClass type = .ok (some cls)) : NameKnown known cls := by
  rcases CodeContext.initializedClass_eq_some run with rfl | ⟨index, found⟩
  · exact names.thisClass
  · exact names.classes index cls found

/-- The type of an object made of the class that an instruction names. -/
theorem cls (names : NamesKnown known context) {index : PoolIndex} {name : String}
    (found : context.pool.className index = .ok name) : TypeKnown known (.object name) := by
  rintro _ ⟨⟩
  exact names.classes index name found

theorem arrayOfClass (names : NamesKnown known context) {index : PoolIndex} {name : String}
    {element : FieldType} (found : context.pool.className index = .ok name)
    (read : FieldType.ofInternalName name = .ok element) :
    TypeKnown known (.ofFieldType (.array element)) :=
  typeKnown_ofFieldType fun cls leaf =>
    leafKnown_of_nameKnown read (names.classes index name found) cls leaf

/-- What instructions give is of known classes. -/
theorem gives (names : NamesKnown known context) {instruction : Instruction} {type : BlockType}
    (given : context.Gives block instruction type) : TypeKnown known type := by
  cases given with
  | plain noObject => exact fun name same => absurd same (noObject name)
  | site => exact nofun
  | constant found => exact names.constants _ type found
  | field found => exact names.fields _ type found
  | result found parsed isResult => exact names.results _ _ _ _ found parsed isResult
  | dynamicResult found parsed isResult =>
    exact names.dynamicResults _ _ _ _ found parsed isResult
  | object found => exact names.cls found
  | arrayOf found read => exact names.arrayOfClass found read
  | arrayOfBase => exact typeKnown_ofFieldType nofun

/-- An instruction leads from known types to known types. -/
theorem step (names : NamesKnown known context) (before : FrameKnown known slots frame)
    {instruction : Instruction} (run : context.step block frame instruction = .ok after) :
    FrameKnown known slots after := by
  obtain ⟨effect, -, turns⟩ := (CodeContext.step_eq_ok block instruction after).1 run
  have each : after.Each (TypeKnown known) := by
    apply CodeContext.each_of_step run typeKnown_top
    · exact fun type given => names.gives given
    · exact fun type arrayKnown => typeKnown_elementType names.root arrayKnown
    · rintro receiver cls made _ ⟨⟩
      exact names.initializedClass made
    · exact before.each
  exact ⟨fun type inside => each type (.inl inside), fun type inside => each type (.inr inside),
    turns.length_locals.trans before.slots_eq⟩

/-- Taking the known frame of a block to its end. -/
theorem steps (names : NamesKnown known context) (before : FrameKnown known slots frame)
    {instructions : List Instruction}
    (run : instructions.foldlM (context.step block) frame = .ok after) :
    FrameKnown known slots after :=
  foldlM_preserves (fun _ _ _ _ here stepped => names.step here stepped) before run

theorem stepBranch (before : FrameKnown known slots frame) {branch : Branch Nat Nat Nat}
    (run : CodeContext.stepBranch frame branch = .ok after) : FrameKnown known slots after := by
  obtain ⟨same, fewer⟩ := CodeContext.suffix_of_stepBranch run
  refine ⟨?_, fun type inside => before.stack type (fewer.subset inside), ?_⟩
  · rw [same]
    exact before.locals
  · rw [same]
    exact before.slots_eq

theorem caught (names : NamesKnown known context) (before : FrameKnown known slots frame)
    {handler : Handler} (run : Inference.caught context.pool handler frame = .ok after) :
    FrameKnown known slots after := by
  obtain ⟨cls, rfl, origin⟩ := Inference.caught_eq_ok run
  refine ⟨before.locals, fun type member => ?_, before.slots_eq⟩
  obtain rfl := List.mem_singleton.1 member
  rintro _ ⟨⟩
  rcases origin with ⟨index, found⟩ | rfl
  · exact names.classes index cls found
  · exact names.throwable

/-- The first frame of a method, with room for more locals. -/
theorem entry (names : NamesKnown known context) (slots : Nat) :
    FrameKnown known slots (context.method.entryFrame.resize slots) := by
  have each : context.method.entryFrame.Each (TypeKnown known) := by
    apply MethodContext.each_entryFrame typeKnown_top nofun
    · rintro _ ⟨⟩
      exact names.thisClass
    · exact names.parameters
  have resized := each.resize typeKnown_top slots
  exact ⟨fun type inside => resized type (.inl inside), fun _ inside => (by cases inside),
    Frame.length_resize _ _⟩

end NamesKnown

end Hierarchy

/-! ## Types that are never met -/

theorem ofFieldType_ne_uninitialized (type : FieldType) (site : Nat) :
    (VerificationType.ofFieldType type : BlockType) ≠ .uninitialized site := by
  cases type with
  | base type => cases type <;> exact nofun
  | object | array => exact nofun

/-- The first frame of a method refers to no site. -/
theorem MethodContext.ne_uninitialized_of_mem {method : MethodContext} {type : BlockType}
    (member : type ∈ method.entryFrame.locals) (site : Nat) : type ≠ .uninitialized site := by
  have each : method.entryFrame.Each (· ≠ .uninitialized site) :=
    MethodContext.each_entryFrame nofun nofun nofun fun field _ =>
      ofFieldType_ne_uninitialized field site
  exact each type (.inl member)

end ClassFile
