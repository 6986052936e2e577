import ClassFile.Proofs.Frame.LeastUpper
import ClassFile.Proofs.Frame.Related

namespace ClassFile
namespace Hierarchy

/-!
# Instructions go up with the types

Where all names are those of classes or the descriptors of arrays, a frame below another
one is taken to a frame below what the other one is taken to, if no operand of that is
unusable.  What is loaded from arrays is the one place where this needs the names to be
formed: the elements of an array that is none are taken for plain objects.
-/

/-! ## Formed types -/

/-- The name of a class or the descriptor of an array. -/
def Spelled (text : String) : Prop :=
  ∃ type : FieldType, type.isReference = true ∧ type.internalName = text

section

variable {known : String → Option ClassInfo} {text : String}

theorem nameFormed_iff : NameFormed known text ↔ Spelled text ∧ NameKnown known text := by
  constructor
  · intro formed
    obtain ⟨type, reference, isName, -⟩ := id formed
    exact ⟨⟨type, reference, isName⟩, formed.nameKnown⟩
  · rintro ⟨⟨type, reference, rfl⟩, nameKnown⟩
    refine ⟨type, reference, rfl, fun cls leaf => nameKnown cls.text ?_⟩
    rw [namedClass?_internalName reference, leaf]
    rfl

theorem internalName_of_ofFieldType {type : FieldType}
    (same : (VerificationType.ofFieldType type : BlockType) = .object text) :
    type.isReference = true ∧ type.internalName = text := by
  cases type with
  | base type => cases type <;> cases same
  | object | array => exact ⟨rfl, VerificationType.object.inj same⟩

theorem typeFormed_ofFieldType {type : FieldType} (typeKnown : TypeKnown known (.ofFieldType type)) :
    TypeFormed known (.ofFieldType type) := by
  intro name same
  obtain ⟨reference, isName⟩ := internalName_of_ofFieldType same
  exact nameFormed_iff.2 ⟨⟨type, reference, isName⟩, typeKnown name same⟩

theorem typeFormed_top : TypeFormed known .top :=
  fun _ same => by cases same

theorem spelled_className (name : ClassName) : Spelled name.text :=
  ⟨.object name, rfl, rfl⟩

end

/-! ## Elements of arrays -/

section

open CodeContext (elementType isReference_elementType)

variable {known : String → Option ClassInfo} {lower upper : String} {type other : BlockType}

theorem elementType_className (name : ClassName) :
    elementType (.object name.text) = .object root := by
  have read : FieldType.ofInternalName name.text = .ok (.object name) :=
    @FieldType.ofInternalName_internalName (.object name) rfl
  unfold elementType VerificationType.arrayElement?
  dsimp only
  rw [read]
  rfl

theorem elementType_array (element : FieldType) :
    elementType (.object (FieldType.array element).internalName) =
      if element.isReference then .object element.internalName else .object root := by
  have read : FieldType.ofInternalName (FieldType.array element).internalName =
      .ok (.array element) := FieldType.ofInternalName_internalName rfl
  unfold elementType VerificationType.arrayElement?
  dsimp only
  rw [read]
  cases element with
  | base => rfl
  | object | array => rfl

theorem elementType_arrays {dimensions : Nat} (some_ : 0 < dimensions) (name : ClassName) :
    elementType (.object (TypeName.arrayOf dimensions name.text)) =
      .object (FieldType.arrays (dimensions - 1) (.object name)).internalName := by
  obtain ⟨less, rfl⟩ := Nat.exists_eq_add_of_le' some_
  rw [← FieldType.internalName_arrays some_, FieldType.arrays, elementType_array,
    if_pos (FieldType.isReference_arrays rfl _)]
  rfl

theorem elementType_objects (dimensions : Nat) :
    elementType (.object (TypeName.objects dimensions)) =
      .object (TypeName.objects (dimensions - 1)) := by
  cases dimensions with
  | zero => exact elementType_className .object
  | succ dimensions =>
    rw [TypeName.objects_of_pos (Nat.succ_pos dimensions), elementType_arrays (Nat.succ_pos dimensions),
      ← FieldType.internalName_objects]

/-- What is loaded from an array is a reference, and any is below the root. -/
theorem elementType_below_root (type : BlockType) :
    TypeBelow known (elementType type) (.object root) := by
  have reference := isReference_elementType type
  cases isType : elementType type with
  | null => exact .null _
  | object name => exact .object (.root name)
  | _ => rw [isType] at reference; exact reference.elim

theorem elementType_spelled (type : BlockType) {name : String}
    (same : elementType type = .object name) : Spelled name := by
  unfold elementType at same
  split at same
  · cases same
  · cases found : type.arrayElement? with
    | none =>
      rw [found] at same
      cases same
      exact spelled_className .object
    | some element =>
      rw [found] at same
      obtain rfl : element = .object name := same
      obtain ⟨-, inner, -, -, -, isType⟩ := VerificationType.arrayElement?_eq_some found
      obtain ⟨reference, isName⟩ := internalName_of_ofFieldType isType.symm
      exact ⟨inner, reference, isName⟩

theorem elementType_formed (rootKnown : ∃ info, known root = some info)
    (formed : TypeFormed known type) : TypeFormed known (elementType type) :=
  fun name same => nameFormed_iff.2 ⟨elementType_spelled type same,
    typeKnown_elementType rootKnown formed.typeKnown name same⟩

/-- Elements of a formed name below another one are below its elements. -/
theorem NameBelow.element (below : NameBelow known lower upper) (formed : NameFormed known lower) :
    TypeBelow known (elementType (.object lower)) (elementType (.object upper)) := by
  cases below with
  | same same => exact same ▸ .same _
  | objects dimensions enough same =>
    subst same
    rw [elementType_objects]
    cases dimensions with
    | zero => exact elementType_below_root _
    | succ dimensions =>
      obtain ⟨type, reference, rfl, -⟩ := formed
      cases type with
      | base => cases reference
      | object name =>
        have none := Nat.le_trans enough (TypeName.objectDimensions_le _)
        rw [FieldType.internalName, TypeName.dimensions_className] at none
        cases none
      | array element =>
        have reference := FieldType.isReference_of_objectDimensions enough
        rw [elementType_array, if_pos reference]
        rw [FieldType.internalName_array reference, TypeName.objectDimensions_nest] at enough
        exact .object (.objects dimensions (Nat.le_of_succ_le_succ enough) rfl)
  | arrays dimensions cls above some_ isLower isUpper below =>
    have named : namedClass? lower = some cls := by
      rw [isLower, namedClass?, TypeName.ofString_arrayOf, if_neg (Nat.ne_of_gt some_),
        TypeName.elementClass?_letter]
    obtain ⟨name, rfl, -⟩ := formed.named named
    obtain ⟨aboveName, rfl⟩ := below.className
    rw [isLower, isUpper, elementType_arrays some_, elementType_arrays some_]
    refine .object ?_
    cases fewer : dimensions - 1 with
    | zero =>
      exact .classes (TypeName.dimensions_className name) (TypeName.dimensions_className aboveName)
        below
    | succ less =>
      rw [FieldType.internalName_arrays (Nat.succ_pos less),
        FieldType.internalName_arrays (Nat.succ_pos less)]
      exact .arrays _ _ _ (Nat.succ_pos less) rfl rfl below
  | classes lowerPlain upperPlain below =>
    obtain ⟨name, rfl, -⟩ := formed.named (if_pos lowerPlain)
    obtain ⟨above, rfl⟩ := below.className
    rw [elementType_className, elementType_className]
    exact .same _

theorem TypeBelow.element (below : TypeBelow known type other) (formed : TypeFormed known type) :
    TypeBelow known (elementType type) (elementType other) := by
  cases below with
  | same => exact .same _
  | top => exact elementType_below_root type
  | null name =>
    have reference := isReference_elementType (.object name)
    cases isType : elementType (.object name) with
    | null => exact .same _
    | object => exact .null _
    | _ => rw [isType] at reference; exact reference.elim
  | object below => exact below.element (formed _ rfl)

end

/-! ## Instructions -/

/-- The classes that a method and its pool speak of are known, and their names are formed. -/
structure NamesFormed (known : String → Option ClassInfo) (context : CodeContext) : Prop
    extends NamesKnown known context where
  spelledThis : Spelled context.method.thisClass
  spelledClasses : ∀ index text, context.pool.className index = .ok text → Spelled text

/-- A formed type below another one. -/
def FormedBelow (known : String → Option ClassInfo) (type other : BlockType) : Prop :=
  TypeFormed known type ∧ TypeBelow known type other

namespace NamesFormed

variable {known : String → Option ClassInfo} {context : CodeContext}
  (names : NamesFormed known context)
include names

theorem cls {index : PoolIndex} {name : String} (found : context.pool.className index = .ok name) :
    TypeFormed known (.object name) := by
  rintro _ ⟨⟩
  exact nameFormed_iff.2 ⟨names.spelledClasses index name found, names.classes index name found⟩

theorem throwable_formed : TypeFormed known (.object ClassName.throwable.text) := by
  rintro _ ⟨⟩
  exact nameFormed_iff.2 ⟨spelled_className .throwable, names.throwable⟩

theorem constant {index : PoolIndex} {type : BlockType}
    (found : context.constantType index = .ok type) : TypeFormed known type := by
  intro name same
  refine nameFormed_iff.2 ⟨?_, names.constants index type found name same⟩
  subst same
  obtain ⟨entry, -, run⟩ := bind_eq_ok.1 found
  cases entry with
  | string | cls | methodType | methodHandle =>
    cases run
    exact spelled_className ⟨_, by decide⟩
  | dynamic =>
    obtain ⟨signature, -, run⟩ := bind_eq_ok.1 run
    obtain ⟨parsed, -, same⟩ := bind_eq_ok.1 run
    obtain ⟨reference, isName⟩ := internalName_of_ofFieldType (pure_eq_ok.1 same)
    exact ⟨parsed, reference, isName⟩
  | _ => cases run

theorem field {index : PoolIndex} {type : BlockType} (found : context.fieldType index = .ok type) :
    TypeFormed known type := by
  have typeKnown := names.fields index type found
  obtain ⟨member, -, run⟩ := bind_eq_ok.1 found
  obtain ⟨parsed, -, same⟩ := bind_eq_ok.1 run
  obtain rfl := pure_eq_ok.1 same
  exact typeFormed_ofFieldType typeKnown

theorem gives {block : Nat} {instruction : Instruction} {type : BlockType}
    (gives : context.Gives block instruction type) : TypeFormed known type := by
  cases gives with
  | plain noObject => exact fun name same => absurd same (noObject name)
  | site => exact fun _ same => by cases same
  | constant found => exact names.constant found
  | field found => exact names.field found
  | result found parsed isResult =>
    exact typeFormed_ofFieldType (names.results _ _ _ _ found parsed isResult)
  | dynamicResult found parsed isResult =>
    exact typeFormed_ofFieldType (names.dynamicResults _ _ _ _ found parsed isResult)
  | object found => exact names.cls found
  | arrayOf found read => exact typeFormed_ofFieldType (names.arrayOfClass found read)
  | arrayOfBase element =>
    exact typeFormed_ofFieldType (typeKnown_ofFieldType fun _ leaf => by cases leaf)

theorem initialized {receiver : BlockType} {cls : String}
    (run : context.initializedClass receiver = .ok (some cls)) :
    TypeFormed known (.object cls) := by
  rintro _ ⟨⟩
  refine nameFormed_iff.2 ⟨?_, names.initializedClass run⟩
  unfold CodeContext.initializedClass at run
  split at run
  · cases run
    exact names.spelledThis
  · obtain ⟨other, found, same⟩ := map_eq_ok.1 run
    obtain rfl := Option.some.inj same
    unfold CodeContext.siteClass at found
    dsimp only at found
    split at found
    · next index _ => exact names.spelledClasses index other found
    · cases found
  · cases run

/-- Instructions take formed types that are below others to such types again. -/
theorem stepsKeep : StepsKeep context (FormedBelow known) where
  cases type other related := by
    cases related.2 with
    | same => exact .inl rfl
    | top => exact .inr (.inl rfl)
    | null => exact .inr (.inr ⟨trivial, trivial⟩)
    | object => exact .inr (.inr ⟨trivial, trivial⟩)
  unusable _ _ related := ⟨related.1, .top _⟩
  top := ⟨typeFormed_top, .same _⟩
  element _ _ related :=
    ⟨elementType_formed names.root related.1, related.2.element related.1⟩
  given _ _ _ _ run given := ⟨names.gives (CodeContext.gives_of_effect run given), .same _⟩
  initialized _ _ run := ⟨names.initialized run, .same _⟩

end NamesFormed

end Hierarchy
end ClassFile
