import ClassFile.Proofs.Frame.Known
import ClassFile.Proofs.Hierarchy.Standard

namespace ClassFile

/-!
# Joins are least upper bounds

`Generated` is the order of types as the rules for references give it: classes
are below their superclasses, interfaces and arrays below the root, and arrays
below arrays wherever their elements are.  It is the order that inference rests on,
so it is antisymmetric, and the join of two types is the least one above both.
That a join does not depend on the order or the grouping of what is joined follows
from this alone.
-/

/-! ## Arrays of a reference type -/

namespace TypeName

/-- The name of the arrays of a reference type. -/
def nest (name : String) : String :=
  if (ofString name).dimensions = 0 then arrayOf 1 name else "[" ++ name

theorem nest_of_plain {name : String} (plain : (ofString name).dimensions = 0) :
    nest name = arrayOf 1 name :=
  if_pos plain

theorem nest_arrayOf {dimensions : Nat} (some_ : 0 < dimensions) (cls : String) :
    nest (arrayOf dimensions cls) = arrayOf (dimensions + 1) cls := by
  rw [nest, ofString_arrayOf, if_neg (Nat.ne_of_gt some_)]
  refine String.toList_inj.1 ?_
  rw [String.toList_append, toList_arrayOf, toList_arrayOf, List.replicate_succ]
  rfl

theorem nest_objects (dimensions : Nat) : nest (objects dimensions) = objects (dimensions + 1) := by
  rw [objects_of_pos (Nat.succ_pos dimensions)]
  cases dimensions with
  | zero => exact nest_of_plain (objects_dimensions 0)
  | succ dimensions =>
    rw [objects_of_pos (Nat.succ_pos dimensions), nest_arrayOf (Nat.succ_pos dimensions)]

theorem objectDimensions_nest (name : String) :
    (ofString (nest name)).objectDimensions = (ofString name).objectDimensions + 1 := by
  have least := objectDimensions_le (ofString name)
  rw [nest]
  split
  · next plain =>
    rw [plain, Nat.le_zero] at least
    rw [ofString_arrayOf, objectDimensions, elementClass?_letter, least]
    rfl
  · next several =>
    have plain : (ofString name).element.head? ≠ some '[' := by
      have first := List.head?_dropWhile_not (· == '[') name.toList
      intro bracket
      rw [ofString] at bracket
      rw [bracket] at first
      cases first
    have whole : ("[" ++ name).toList =
        List.replicate ((ofString name).dimensions + 1) '[' ++ (ofString name).element := by
      rw [List.replicate_succ, List.cons_append, ← toList_ofString, String.toList_append]
      rfl
    have same : elementClass? ⟨(ofString name).dimensions + 1, (ofString name).element⟩ =
        (ofString name).elementClass? := rfl
    rw [ofString_of_toList whole plain, objectDimensions, objectDimensions, same]
    dsimp only
    split
    · rfl
    · omega

end TypeName

namespace FieldType

theorem toList_internalName_array (type : FieldType) :
    (array type).internalName.toList = '[' :: type.chars :=
  String.toList_ofList

theorem internalName_array {type : FieldType} (reference : type.isReference = true) :
    (array type).internalName = TypeName.nest type.internalName := by
  refine String.toList_inj.1 ?_
  rw [toList_internalName_array]
  cases type with
  | base => cases reference
  | object name =>
    rw [internalName, TypeName.nest_of_plain (TypeName.dimensions_className name),
      TypeName.toList_arrayOf]
    rfl
  | array element =>
    have several : (TypeName.ofString (array element).internalName).dimensions ≠ 0 := by
      rw [TypeName.ofString, toList_internalName_array, List.takeWhile_cons, beq_self_eq_true]
      exact Nat.succ_ne_zero _
    rw [TypeName.nest, if_neg several, String.toList_append, toList_internalName_array]
    rfl

/-- Arrays of a type with some dimensions. -/
def arrays : Nat → FieldType → FieldType
  | 0, type => type
  | dimensions + 1, type => array (arrays dimensions type)

theorem isReference_arrays {type : FieldType} (reference : type.isReference = true)
    (dimensions : Nat) : (arrays dimensions type).isReference = true := by
  cases dimensions with
  | zero => exact reference
  | succ => rfl

theorem leaf?_arrays (dimensions : Nat) (type : FieldType) :
    (arrays dimensions type).leaf? = type.leaf? := by
  induction dimensions with
  | zero => rfl
  | succ dimensions ih => exact ih

theorem internalName_arrays {dimensions : Nat} (some_ : 0 < dimensions) (name : ClassName) :
    (arrays dimensions (object name)).internalName = TypeName.arrayOf dimensions name.text := by
  induction dimensions with
  | zero => cases some_
  | succ dimensions ih =>
    rw [arrays, internalName_array (isReference_arrays rfl dimensions)]
    cases dimensions with
    | zero => exact TypeName.nest_of_plain (TypeName.dimensions_className name)
    | succ dimensions =>
      rw [ih (Nat.succ_pos dimensions), TypeName.nest_arrayOf (Nat.succ_pos dimensions)]

theorem internalName_objects (dimensions : Nat) :
    (arrays dimensions (object .object)).internalName = TypeName.objects dimensions := by
  cases dimensions with
  | zero => rfl
  | succ dimensions =>
    rw [internalName_arrays (Nat.succ_pos dimensions), TypeName.objects_of_pos (Nat.succ_pos dimensions)]

/-- Only arrays of references belong to the arrays of objects with a dimension. -/
theorem isReference_of_objectDimensions {type : FieldType} {dimensions : Nat}
    (enough : dimensions + 1 ≤ (TypeName.ofString (array type).internalName).objectDimensions) :
    type.isReference = true := by
  cases type with
  | base type =>
    have none : (TypeName.ofString (array (base type)).internalName).objectDimensions = 0 := by
      cases type <;> decide
    rw [none] at enough
    cases enough
  | object => rfl
  | array => rfl

end FieldType

namespace Hierarchy

/-! ## The generated order -/

/-- The order of types that the rules for references generate. -/
inductive Generated (known : String → Option ClassInfo) : BlockType → BlockType → Prop
  | refl (type : BlockType) : Generated known type type
  | trans {lower middle upper : BlockType} (first : Generated known lower middle)
      (second : Generated known middle upper) : Generated known lower upper
  | top (type : BlockType) : Generated known type .top
  | null (name : String) : Generated known .null (.object name)
  | superclass {name above : ClassName} {info : ClassInfo} (found : known name.text = some info)
      (isClass : info.access.isInterface = false) (up : info.superclass = some above) :
      Generated known (.object name.text) (.object above.text)
  | interface {name : ClassName} {info : ClassInfo} (found : known name.text = some info)
      (isInterface : info.access.isInterface = true) :
      Generated known (.object name.text) (.object root)
  | array (element : FieldType) :
      Generated known (.object (FieldType.array element).internalName) (.object root)
  | elements {lower upper : FieldType} (lowerReference : lower.isReference = true)
      (upperReference : upper.isReference = true)
      (below : Generated known (.object lower.internalName) (.object upper.internalName)) :
      Generated known (.object (FieldType.array lower).internalName)
        (.object (FieldType.array upper).internalName)

/-- The name of a class or the descriptor of an array, over a known class if over
any. -/
def NameFormed (known : String → Option ClassInfo) (text : String) : Prop :=
  ∃ type : FieldType, type.isReference = true ∧ type.internalName = text ∧
    ∀ cls, type.leaf? = some cls → ∃ info, known cls.text = some info

/-- An object type is the name of a class or the descriptor of an array. -/
def TypeFormed (known : String → Option ClassInfo) (type : BlockType) : Prop :=
  ∀ name, type = .object name → NameFormed known name

section

variable {known : String → Option ClassInfo} {first second lower upper answer : String}

theorem NameFormed.nameKnown (formed : NameFormed known first) : NameKnown known first := by
  obtain ⟨type, reference, rfl, leafKnown⟩ := formed
  intro cls named
  rw [namedClass?_internalName reference] at named
  obtain ⟨leaf, found, rfl⟩ := Option.map_eq_some_iff.1 named
  exact leafKnown leaf found

theorem TypeFormed.typeKnown {type : BlockType} (formed : TypeFormed known type) :
    TypeKnown known type :=
  fun name same => (formed name same).nameKnown

/-- The class that a formed name speaks of. -/
theorem NameFormed.named (formed : NameFormed known first) {cls : String}
    (named : namedClass? first = some cls) :
    ∃ name : ClassName, name.text = cls ∧ ∃ info, known name.text = some info := by
  obtain ⟨type, reference, rfl, leafKnown⟩ := formed
  rw [namedClass?_internalName reference] at named
  obtain ⟨leaf, found, rfl⟩ := Option.map_eq_some_iff.1 named
  exact ⟨leaf, rfl, leafKnown leaf found⟩

theorem nameFormed_arrays {name : ClassName} (found : ∃ info, known name.text = some info)
    {dimensions : Nat} (some_ : 0 < dimensions) :
    NameFormed known (TypeName.arrayOf dimensions name.text) := by
  refine ⟨.arrays dimensions (.object name), FieldType.isReference_arrays rfl dimensions,
    FieldType.internalName_arrays some_ name, fun cls leaf => ?_⟩
  rw [FieldType.leaf?_arrays] at leaf
  exact Option.some.inj leaf ▸ found

theorem IsChain.className {name : ClassName} {names : List String}
    (chain : IsChain known name.text names) (member : upper ∈ names) :
    ∃ above : ClassName, above.text = upper := by
  generalize same : name.text = text at chain
  induction chain generalizing name with
  | last => exact ⟨name, same.trans (List.mem_singleton.1 member).symm⟩
  | next found up chain ih =>
    rcases List.mem_cons.1 member with here | later
    · exact ⟨name, same.trans here.symm⟩
    · exact ih later rfl

theorem Below.className {name : ClassName} (below : Below known name.text upper) :
    ∃ above : ClassName, above.text = upper := by
  rcases below with same | same | ⟨-, names, chain, member⟩
  · exact ⟨name, same⟩
  · exact ⟨.object, same.symm⟩
  · exact chain.className member

end

/-! ## The two orders are one -/

section

variable {known : String → Option ClassInfo} {lower upper : String}

theorem NameBelow.nest (below : NameBelow known lower upper) :
    NameBelow known (TypeName.nest lower) (TypeName.nest upper) := by
  cases below with
  | same same => exact .same (congrArg _ same)
  | objects dimensions enough same =>
    refine .objects (dimensions + 1) ?_ ?_
    · rw [TypeName.objectDimensions_nest]
      exact Nat.succ_le_succ enough
    · rw [same, TypeName.nest_objects]
  | arrays dimensions cls above some_ isLower isUpper below =>
    refine .arrays (dimensions + 1) cls above (Nat.succ_pos _) ?_ ?_ below
    · rw [isLower, TypeName.nest_arrayOf some_]
    · rw [isUpper, TypeName.nest_arrayOf some_]
  | classes lowerPlain upperPlain below =>
    exact .arrays 1 lower upper Nat.one_pos (TypeName.nest_of_plain lowerPlain)
      (TypeName.nest_of_plain upperPlain) below

theorem nameBelow_of_objects
    (below : TypeBelow known (.object lower) (.object upper)) : NameBelow known lower upper := by
  generalize isLower : (.object lower : BlockType) = one at below
  generalize isUpper : (.object upper : BlockType) = two at below
  cases below with
  | same =>
    cases isLower
    cases isUpper
    exact .same rfl
  | top => cases isUpper
  | null => cases isLower
  | object below =>
    cases isLower
    cases isUpper
    exact below

theorem NameBelow.root (text : String) : NameBelow known text Hierarchy.root :=
  .objects 0 (Nat.zero_le _) rfl

variable (rooted : Rooted known)
include rooted

theorem Generated.typeBelow {first second : BlockType} (generated : Generated known first second) :
    TypeBelow known first second := by
  induction generated with
  | refl type => exact .same type
  | trans _ _ lower upper => exact lower.trans rooted upper
  | top type => exact .top type
  | null name => exact .null name
  | @superclass name above info found isClass up =>
    obtain ⟨names, chain, -⟩ := rooted.chains name.text info found
    refine .object (.classes (TypeName.dimensions_className name)
      (TypeName.dimensions_className above) (.inr (.inr ⟨⟨info, found, isClass⟩, names, chain, ?_⟩)))
    obtain ⟨rest, rfl, onward⟩ := chain.above found up
    exact List.mem_cons_of_mem _ onward.mem_self
  | interface => exact .object (.root _)
  | array => exact .object (.root _)
  | elements lowerReference upperReference _ below =>
    rw [FieldType.internalName_array lowerReference, FieldType.internalName_array upperReference]
    exact .object (nameBelow_of_objects below).nest

theorem IsChain.generated {name : ClassName} {names : List String}
    (chain : IsChain known name.text names)
    (isClass : ∀ info, known name.text = some info → info.access.isInterface = false)
    (member : upper ∈ names) : Generated known (.object name.text) (.object upper) := by
  generalize same : name.text = text at chain
  induction chain generalizing name with
  | last => exact List.mem_singleton.1 member ▸ .refl _
  | @next text info above rest found up chain ih =>
    subst same
    rcases List.mem_cons.1 member with here | later
    · exact here ▸ .refl _
    · refine .trans (.superclass found (isClass info found) up) (ih ?_ later rfl)
      exact fun aboveInfo isAbove => rooted.classes name.text info above aboveInfo found up isAbove

/-- A known class is below the classes that cover it. -/
theorem Below.generated {name : ClassName} {info : ClassInfo} (found : known name.text = some info)
    (below : Below known name.text upper) :
    Generated known (.object name.text) (.object upper) := by
  rcases below with same | rfl | ⟨⟨info', found', isClass⟩, names, chain, member⟩
  · exact same ▸ .refl _
  · cases interface : info.access.isInterface with
    | true => exact .interface found interface
    | false =>
      obtain ⟨names, chain, -⟩ := rooted.chains name.text info found
      refine chain.generated rooted (fun other found' => ?_) (rooted.root_mem chain)
      rw [Option.some.inj (found'.symm.trans found), interface]
  · refine chain.generated rooted (fun other found'' => ?_) member
    rw [Option.some.inj (found''.symm.trans found'), isClass]

theorem Below.generated_arrays {name above : ClassName} {info : ClassInfo}
    (found : known name.text = some info) (below : Below known name.text above.text)
    (dimensions : Nat) :
    Generated known (.object (FieldType.arrays dimensions (.object name)).internalName)
      (.object (FieldType.arrays dimensions (.object above)).internalName) := by
  induction dimensions with
  | zero => exact below.generated rooted found
  | succ dimensions ih =>
    exact .elements (FieldType.isReference_arrays rfl _) (FieldType.isReference_arrays rfl _) ih

/-- A reference type is below the arrays of objects that it belongs to. -/
theorem generated_objects {type : FieldType} (reference : type.isReference = true)
    (leafKnown : ∀ cls, type.leaf? = some cls → ∃ info, known cls.text = some info)
    {dimensions : Nat}
    (enough : dimensions ≤ (TypeName.ofString type.internalName).objectDimensions) :
    Generated known (.object type.internalName) (.object (TypeName.objects dimensions)) := by
  induction type generalizing dimensions with
  | base => cases reference
  | object name =>
    have none := Nat.le_trans enough (TypeName.objectDimensions_le _)
    rw [FieldType.internalName, TypeName.dimensions_className, Nat.le_zero] at none
    subst none
    obtain ⟨info, found⟩ := leafKnown name rfl
    exact Below.generated rooted found (.inr (.inl rfl))
  | array element ih =>
    cases dimensions with
    | zero => exact .array element
    | succ dimensions =>
      have inner := FieldType.isReference_of_objectDimensions enough
      rw [FieldType.internalName_array inner, TypeName.objectDimensions_nest] at enough
      have below := ih inner leafKnown (Nat.le_of_succ_le_succ enough)
      rw [← FieldType.internalName_objects] at below ⊢
      exact .elements inner (FieldType.isReference_arrays rfl dimensions) below

theorem NameBelow.generated (formed : NameFormed known lower)
    (below : NameBelow known lower upper) : Generated known (.object lower) (.object upper) := by
  cases below with
  | same same => exact same ▸ .refl _
  | objects dimensions enough same =>
    obtain ⟨type, reference, rfl, leafKnown⟩ := formed
    exact same ▸ generated_objects rooted reference leafKnown enough
  | arrays dimensions cls above some_ isLower isUpper below =>
    have named : namedClass? lower = some cls := by
      rw [isLower, namedClass?, TypeName.ofString_arrayOf, if_neg (Nat.ne_of_gt some_),
        TypeName.elementClass?_letter]
    obtain ⟨name, rfl, info, found⟩ := formed.named named
    obtain ⟨above, rfl⟩ := below.className
    rw [isLower, isUpper, ← FieldType.internalName_arrays some_,
      ← FieldType.internalName_arrays some_]
    exact below.generated_arrays rooted found dimensions
  | classes lowerPlain upperPlain below =>
    obtain ⟨name, rfl, info, found⟩ := formed.named (if_pos lowerPlain)
    exact below.generated rooted found

/-- The order that inference rests on is the generated one. -/
theorem generated_iff {first second : BlockType} (formed : TypeFormed known first) :
    Generated known first second ↔ TypeBelow known first second := by
  refine ⟨fun generated => generated.typeBelow rooted, fun below => ?_⟩
  cases below with
  | same => exact .refl _
  | top => exact .top _
  | null name => exact .null name
  | object below => exact below.generated rooted (formed _ rfl)

end

/-! ## No two types are below each other -/

section

variable {known : String → Option ClassInfo} {lower upper : String}

theorem NameBelow.objectDimensions_le (below : NameBelow known lower upper) :
    (TypeName.ofString upper).objectDimensions ≤ (TypeName.ofString lower).objectDimensions := by
  cases below with
  | same same => exact same ▸ Nat.le_refl _
  | objects dimensions enough same => rwa [same, TypeName.objects_objectDimensions]
  | arrays dimensions cls above some_ isLower isUpper =>
    rw [isLower, isUpper, TypeName.ofString_arrayOf, TypeName.ofString_arrayOf,
      TypeName.objectDimensions, TypeName.objectDimensions, TypeName.elementClass?_letter,
      TypeName.elementClass?_letter]
    exact Nat.le_refl _
  | classes lowerPlain upperPlain =>
    have none := TypeName.objectDimensions_le (TypeName.ofString upper)
    rw [upperPlain] at none
    exact Nat.le_trans none (Nat.zero_le _)

/-- What covers a class. -/
theorem NameBelow.of_plain (below : NameBelow known lower upper)
    (plain : (TypeName.ofString lower).dimensions = 0) :
    (TypeName.ofString upper).dimensions = 0 ∧ Below known lower upper := by
  cases below with
  | same same => exact ⟨same ▸ plain, .inl same⟩
  | objects dimensions enough same =>
    have none := Nat.le_trans enough (TypeName.objectDimensions_le _)
    rw [plain, Nat.le_zero] at none
    subst none
    exact ⟨same ▸ TypeName.objects_dimensions 0, .inr (.inl same)⟩
  | arrays dimensions cls above some_ isLower =>
    rw [isLower, TypeName.ofString_arrayOf] at plain
    exact absurd plain (Nat.ne_of_gt some_)
  | classes _ upperPlain below => exact ⟨upperPlain, below⟩

/-- What covers an array of objects. -/
theorem NameBelow.of_arrayOf {dimensions : Nat} {cls : String}
    (below : NameBelow known (TypeName.arrayOf dimensions cls) upper) (some_ : 0 < dimensions) :
    (∃ fewer ≤ dimensions, upper = TypeName.objects fewer) ∨
      ∃ above, upper = TypeName.arrayOf dimensions above ∧ Below known cls above := by
  cases below with
  | same same => exact .inr ⟨cls, same.symm, .inl rfl⟩
  | objects fewer enough same =>
    rw [TypeName.ofString_arrayOf, TypeName.objectDimensions, TypeName.elementClass?_letter] at enough
    exact .inl ⟨fewer, enough, same⟩
  | arrays others lower above _ isLower isUpper below =>
    obtain ⟨rfl, rfl⟩ := TypeName.arrayOf_inj isLower
    exact .inr ⟨above, isUpper, below⟩
  | classes plain =>
    rw [TypeName.ofString_arrayOf] at plain
    exact absurd plain (Nat.ne_of_gt some_)

variable (rooted : Rooted known)
include rooted

theorem Below.antisymm (below : Below known lower upper) (above : Below known upper lower) :
    lower = upper := by
  rcases below with same | rfl | ⟨-, names, chain, member⟩
  · exact same
  · exact above.eq_root rooted
  · rcases above with same | rfl | ⟨-, others, other, inside⟩
    · exact same.symm
    · rw [rooted.chain_root chain, List.mem_singleton] at member
      exact member.symm
    · -- Each class is on the chain of the other one, so neither chain is the longer one.
      obtain ⟨front, back, rfl⟩ := List.append_of_mem member
      rw [other.unique chain.suffix] at inside
      obtain ⟨rest, whole⟩ := chain.head
      cases front with
      | nil => exact (List.cons.inj whole).1.symm
      | cons first front =>
        obtain rfl : first = lower := (List.cons.inj whole).1
        exact absurd (List.mem_append_right front inside) (List.nodup_cons.1 chain.nodup).1

theorem NameBelow.antisymm (below : NameBelow known lower upper)
    (above : NameBelow known upper lower) : lower = upper := by
  have dims := Nat.le_antisymm above.objectDimensions_le below.objectDimensions_le
  cases below with
  | same same => exact same
  | objects dimensions enough same =>
    subst same
    rw [TypeName.objects_objectDimensions] at dims
    cases above with
    | same same => exact same.symm
    | objects others enough' same' =>
      rw [same', TypeName.objects_objectDimensions] at dims
      rw [same', dims]
    | arrays others cls above some_ isUpper isLower below =>
      have several := congrArg (fun text => (TypeName.ofString text).dimensions) isUpper
      rw [TypeName.objects_dimensions, TypeName.ofString_arrayOf] at several
      dsimp only at several
      subst several
      rw [TypeName.objects_of_pos some_] at isUpper
      obtain ⟨-, rfl⟩ := TypeName.arrayOf_inj isUpper
      rw [isLower, below.eq_root rooted, TypeName.objects_of_pos some_]
      rfl
    | classes upperPlain lowerPlain below =>
      rw [TypeName.objects_dimensions] at upperPlain
      subst upperPlain
      exact below.eq_root rooted
  | arrays dimensions cls above some_ isLower isUpper below =>
    subst isLower isUpper
    rcases NameBelow.of_arrayOf above some_ with ⟨fewer, enough, isLower⟩ | ⟨again, isLower, above'⟩
    · have several := congrArg (fun text => (TypeName.ofString text).dimensions) isLower
      rw [TypeName.objects_dimensions, TypeName.ofString_arrayOf] at several
      dsimp only at several
      subst several
      rw [TypeName.objects_of_pos some_] at isLower
      obtain ⟨-, rfl⟩ := TypeName.arrayOf_inj isLower
      rw [Below.eq_root rooted below]
      rfl
    · obtain ⟨-, rfl⟩ := TypeName.arrayOf_inj isLower
      rw [Below.antisymm rooted below above']
  | classes _ upperPlain below => exact below.antisymm rooted (above.of_plain upperPlain).2

theorem TypeBelow.antisymm {first second : BlockType} (below : TypeBelow known first second)
    (above : TypeBelow known second first) : first = second := by
  cases below with
  | same => rfl
  | top =>
    cases above with
    | same => rfl
    | top => rfl
  | null => cases above
  | object below => rw [below.antisymm rooted (nameBelow_of_objects above)]

/-! ## Least upper bounds -/

theorem Answered.least {first second answer upper : String}
    (answered : Answered known first second answer) (different : first ≠ second)
    (aboveFirst : Below known first upper) (aboveSecond : Below known second upper) :
    Below known answer upper := by
  rcases eq_or_ne upper root with rfl | proper
  · exact .inr (.inl rfl)
  cases answered with
  | @general firstInfo secondInfo foundFirst foundSecond atOnce =>
    -- A class other than the root covers an interface only if it is that interface.
    have interfaces : ∀ {one two : String} {info : ClassInfo}, one ≠ two →
        known one = some info → info.access.isInterface = true →
        Below known one upper → Below known two upper → False := by
      intro one two info apart found isInterface aboveOne aboveTwo
      rcases aboveOne with rfl | same | ⟨⟨info', found', isClass⟩, -⟩
      · rcases aboveTwo with same | same | ⟨-, names, chain, member⟩
        · exact apart same.symm
        · exact proper same
        · rw [rooted.not_interface chain member apart found] at isInterface
          cases isInterface
      · exact proper same
      · rw [Option.some.inj (found'.symm.trans found), isInterface] at isClass
        cases isClass
    rcases atOnce with rfl | rfl | isInterface | isInterface
    · exact absurd (aboveFirst.eq_root rooted) proper
    · exact absurd (aboveSecond.eq_root rooted) proper
    · exact (interfaces different foundFirst isInterface aboveFirst aboveSecond).elim
    · exact (interfaces different.symm foundSecond isInterface aboveSecond aboveFirst).elim
  | @searched firstInfo secondInfo ancestors _ foundFirst foundSecond special chain meets =>
    obtain ⟨others, other, -⟩ := rooted.chains second secondInfo foundSecond
    obtain ⟨inside, front, back, rfl, before⟩ := rooted.meets chain other meets
    have onChain : ∀ {one : String} {names : List String}, IsChain known one names →
        Below known one upper → upper ∈ names := by
      rintro one names chain (rfl | same | ⟨-, others, other, member⟩)
      · exact chain.mem_self
      · exact absurd same proper
      · exact chain.unique other ▸ member
    have notInterface : ∃ info, known answer = some info ∧ info.access.isInterface = false := by
      obtain ⟨info, found⟩ := chain.found inside
      refine ⟨info, found, ?_⟩
      rcases eq_or_ne answer first with rfl | above
      · rw [Trivial] at special
        simp only [not_or, Bool.not_eq_true] at special
        rw [Option.some.inj (found.symm.trans foundFirst), special.2.2.1]
      · exact rooted.not_interface chain inside above found
    refine .inr (.inr ⟨notInterface, answer :: back, other.suffix, ?_⟩)
    rcases List.mem_append.1 (onChain other aboveSecond) with early | late
    · exact absurd (onChain chain aboveFirst) (before upper early)
    · exact late

theorem Common.least {first second answer upper : String}
    (common : Common known first second answer) (different : first ≠ second)
    (aboveFirst : Below known first upper) (aboveSecond : Below known second upper) :
    Below known answer upper := by
  rcases common with answered | answered
  · exact answered.least rooted different aboveFirst aboveSecond
  · exact answered.least rooted different.symm aboveSecond aboveFirst

theorem NameJoined.least (rootKnown : ∃ info, known Hierarchy.root = some info)
    {first second answer upper : String} (joined : NameJoined known first second answer)
    (different : first ≠ second) (aboveFirst : NameBelow known first upper)
    (aboveSecond : NameBelow known second upper) : NameBelow known answer upper := by
  cases joined with
  | classes firstPlain secondPlain common =>
    obtain ⟨upperPlain, aboveFirst⟩ := aboveFirst.of_plain firstPlain
    obtain ⟨-, aboveSecond⟩ := aboveSecond.of_plain secondPlain
    exact .classes (common.dimensions rooted firstPlain secondPlain) upperPlain
      (common.least rooted different aboveFirst aboveSecond)
  | @arrays dimensions cls other answer some_ isFirst isSecond common =>
    subst isFirst isSecond
    have objects : ∀ fewer ≤ dimensions, upper = TypeName.objects fewer →
        NameBelow known (TypeName.arrayOf dimensions answer) upper := by
      intro fewer enough isUpper
      refine .objects fewer ?_ isUpper
      rwa [TypeName.ofString_arrayOf, TypeName.objectDimensions, TypeName.elementClass?_letter]
    rcases aboveFirst.of_arrayOf some_ with ⟨fewer, enough, isUpper⟩ | ⟨above, isUpper, aboveFirst⟩
    · exact objects fewer enough isUpper
    rcases aboveSecond.of_arrayOf some_ with ⟨fewer, enough, isUpper'⟩ | ⟨again, isUpper', aboveSecond⟩
    · exact objects fewer enough isUpper'
    obtain ⟨-, rfl⟩ := TypeName.arrayOf_inj (isUpper.symm.trans isUpper')
    refine .arrays dimensions answer above some_ rfl isUpper ?_
    exact common.least rooted (fun same => different (congrArg _ same)) aboveFirst aboveSecond
  | objects array unlike =>
    have objects : ∀ dimensions, upper = TypeName.objects dimensions →
        NameBelow known (TypeName.objects (min (TypeName.ofString first).objectDimensions
          (TypeName.ofString second).objectDimensions)) upper := by
      rintro dimensions rfl
      have enough := aboveFirst.objectDimensions_le
      have enough' := aboveSecond.objectDimensions_le
      rw [TypeName.objects_objectDimensions] at enough enough'
      refine .objects dimensions ?_ rfl
      rw [TypeName.objects_objectDimensions]
      exact Nat.le_min.2 ⟨enough, enough'⟩
    have isJoin := isJoin_objects rootKnown different array unlike
    have isJoin' := isJoin_objects rootKnown different.symm array.symm fun same =>
      (unlike same.symm).symm
    rw [Nat.min_comm] at isJoin'
    cases aboveFirst with
    | same same => exact .same ((isJoin.settled (same ▸ aboveSecond)).trans same)
    | objects dimensions enough same => exact objects dimensions same
    | arrays dimensions cls above some_ isFirst isUpper below =>
      cases aboveSecond with
      | same same =>
        refine .same ((isJoin'.settled ?_).trans same)
        exact same ▸ .arrays dimensions cls above some_ isFirst isUpper below
      | objects dimensions enough same => exact objects dimensions same
      | arrays others other again _ isSecond isUpper' =>
        obtain ⟨rfl, -⟩ := TypeName.arrayOf_inj (isUpper.symm.trans isUpper')
        rw [isFirst, isSecond, TypeName.ofString_arrayOf, TypeName.ofString_arrayOf,
          TypeName.elementClass?_letter, TypeName.elementClass?_letter] at unlike
        rcases unlike rfl with absent | absent
        · cases absent
        · cases absent
      | classes _ upperPlain =>
        rw [isUpper, TypeName.ofString_arrayOf] at upperPlain
        exact absurd upperPlain (Nat.ne_of_gt some_)
    | classes firstPlain upperPlain below =>
      cases aboveSecond with
      | same same =>
        refine .same ((isJoin'.settled ?_).trans same)
        exact same ▸ .classes firstPlain upperPlain below
      | objects dimensions enough same => exact objects dimensions same
      | arrays others other again some_ isSecond isUpper =>
        rw [isUpper, TypeName.ofString_arrayOf] at upperPlain
        exact absurd upperPlain (Nat.ne_of_gt some_)
      | classes secondPlain =>
        rcases array with isArray | isArray
        · exact absurd firstPlain isArray
        · exact absurd secondPlain isArray

theorem TypeJoined.least (rootKnown : ∃ info, known Hierarchy.root = some info)
    {first second answer upper : BlockType} (joined : TypeJoined known first second answer)
    (aboveFirst : TypeBelow known first upper) (aboveSecond : TypeBelow known second upper) :
    TypeBelow known answer upper := by
  cases joined with
  | same => exact aboveFirst
  | nullFirst => exact aboveSecond
  | nullSecond => exact aboveFirst
  | objects different joined =>
    cases upper with
    | top => exact .top _
    | object upper =>
      exact .object (joined.least rooted rootKnown different (nameBelow_of_objects aboveFirst)
        (nameBelow_of_objects aboveSecond))
    | _ => cases aboveFirst
  | apart different noNull noNull' noObjects =>
    cases aboveFirst with
    | same =>
      cases aboveSecond with
      | same => exact absurd rfl different
      | top => exact .top _
      | null name => exact absurd rfl (noNull' name rfl)
      | object => exact absurd rfl (noObjects _ _ rfl)
    | top => exact .top _
    | null name =>
      cases aboveSecond with
      | same => exact absurd rfl (noNull name rfl)
      | null => exact absurd rfl different
      | object => exact absurd rfl (noNull _ rfl)
    | object =>
      cases aboveSecond with
      | same => exact absurd rfl (noObjects _ _ rfl)
      | null => exact absurd rfl (noNull' _ rfl)
      | object => exact absurd rfl (noObjects _ _ rfl)

/-! ## Joins of formed types are formed -/

theorem Common.formed {first second : ClassName} {answer : String}
    (common : Common known first.text second.text answer) :
    ∃ name : ClassName, name.text = answer ∧ ∃ info, known name.text = some info := by
  obtain ⟨names, chain | chain, member⟩ := common.mem rooted
  · obtain ⟨name, rfl⟩ := chain.className member
    exact ⟨name, rfl, chain.found member⟩
  · obtain ⟨name, rfl⟩ := chain.className member
    exact ⟨name, rfl, chain.found member⟩

theorem NameJoined.formed (rootKnown : ∃ info, known Hierarchy.root = some info)
    {first second answer : String} (joined : NameJoined known first second answer)
    (firstFormed : NameFormed known first) (secondFormed : NameFormed known second) :
    NameFormed known answer := by
  cases joined with
  | classes firstPlain secondPlain common =>
    obtain ⟨one, rfl, -⟩ := firstFormed.named (if_pos firstPlain)
    obtain ⟨two, rfl, -⟩ := secondFormed.named (if_pos secondPlain)
    obtain ⟨name, rfl, found⟩ := common.formed rooted
    exact ⟨.object name, rfl, rfl, fun cls leaf => Option.some.inj leaf ▸ found⟩
  | @arrays dimensions cls other answer some_ isFirst isSecond common =>
    have named : ∀ cls, namedClass? (TypeName.arrayOf dimensions cls) = some cls := by
      intro cls
      rw [namedClass?, TypeName.ofString_arrayOf, if_neg (Nat.ne_of_gt some_),
        TypeName.elementClass?_letter]
    subst isFirst isSecond
    obtain ⟨one, rfl, -⟩ := firstFormed.named (named cls)
    obtain ⟨two, rfl, -⟩ := secondFormed.named (named other)
    obtain ⟨name, rfl, found⟩ := common.formed rooted
    exact nameFormed_arrays found some_
  | objects =>
    rw [← FieldType.internalName_objects]
    refine ⟨_, FieldType.isReference_arrays rfl _, rfl, fun cls leaf => ?_⟩
    rw [FieldType.leaf?_arrays] at leaf
    exact Option.some.inj leaf ▸ rootKnown

theorem TypeJoined.formed (rootKnown : ∃ info, known Hierarchy.root = some info)
    {first second answer : BlockType} (joined : TypeJoined known first second answer)
    (firstFormed : TypeFormed known first) (secondFormed : TypeFormed known second) :
    TypeFormed known answer := by
  cases joined with
  | same => exact firstFormed
  | nullFirst => exact secondFormed
  | nullSecond => exact firstFormed
  | objects different joined =>
    rintro _ ⟨⟩
    exact joined.formed rooted rootKnown (firstFormed _ rfl) (secondFormed _ rfl)
  | apart => exact fun name same => by cases same

end

/-! ## The laws of joins -/

/-- A least upper bound of two types. -/
structure IsLeastUpper (known : String → Option ClassInfo) (first second upper : BlockType) :
    Prop where
  covers : Generated known first upper
  coversOther : Generated known second upper
  least : ∀ other, Generated known first other → Generated known second other →
    Generated known upper other

theorem TypeJoined.isLeastUpper {known : String → Option ClassInfo} (rooted : Rooted known)
    (rootKnown : ∃ info, known root = some info) {first second answer : BlockType}
    (joined : TypeJoined known first second answer) (firstFormed : TypeFormed known first)
    (secondFormed : TypeFormed known second) : IsLeastUpper known first second answer := by
  have isJoin := joined.isJoin rooted rootKnown firstFormed.typeKnown secondFormed.typeKnown
  have formed := joined.formed rooted rootKnown firstFormed secondFormed
  refine ⟨(generated_iff rooted firstFormed).2 isJoin.covers,
    (generated_iff rooted secondFormed).2 isJoin.coversOther, fun other one two => ?_⟩
  exact (generated_iff rooted formed).2
    (joined.least rooted rootKnown (one.typeBelow rooted) (two.typeBelow rooted))

section

variable {known : String → Option ClassInfo} (rooted : Rooted known)
  {first second third upper other : BlockType}
include rooted

theorem Generated.antisymm (below : Generated known first second)
    (above : Generated known second first) : first = second :=
  (below.typeBelow rooted).antisymm rooted (above.typeBelow rooted)

theorem IsLeastUpper.unique (one : IsLeastUpper known first second upper)
    (two : IsLeastUpper known first second other) : upper = other :=
  (one.least _ two.covers two.coversOther).antisymm rooted
    (two.least _ one.covers one.coversOther)

omit rooted in
theorem IsLeastUpper.symm (bound : IsLeastUpper known first second upper) :
    IsLeastUpper known second first upper :=
  ⟨bound.coversOther, bound.covers, fun other one two => bound.least other two one⟩

omit rooted in
theorem IsLeastUpper.self (type : BlockType) : IsLeastUpper known type type type :=
  ⟨.refl _, .refl _, fun _ one _ => one⟩

/-- Three types have one least upper bound, whichever two are taken first. -/
theorem IsLeastUpper.assoc {left right : BlockType}
    (firstTwo : IsLeastUpper known first second left)
    (lastTwo : IsLeastUpper known second third right)
    (one : IsLeastUpper known left third upper) (two : IsLeastUpper known first right other) :
    upper = other := by
  refine Generated.antisymm rooted ?_ ?_
  · refine one.least _ (firstTwo.least _ two.covers ?_) ?_
    · exact lastTwo.covers.trans two.coversOther
    · exact lastTwo.coversOther.trans two.coversOther
  · refine two.least _ ?_ (lastTwo.least _ ?_ one.coversOther)
    · exact firstTwo.covers.trans one.covers
    · exact firstTwo.coversOther.trans one.covers

end

/-- Joining formed types is taking least upper bounds in the generated order. -/
structure JoinsAreLeast (known : String → Option ClassInfo)
    (join : BlockType → BlockType → BlockType) : Prop where
  antisymm : ∀ first second, Generated known first second → Generated known second first →
    first = second
  formed : ∀ first second, TypeFormed known first → TypeFormed known second →
    TypeFormed known (join first second)
  least : ∀ first second, TypeFormed known first → TypeFormed known second →
    IsLeastUpper known first second (join first second)
  comm : ∀ first second, TypeFormed known first → TypeFormed known second →
    join first second = join second first
  assoc : ∀ first second third, TypeFormed known first → TypeFormed known second →
    TypeFormed known third → join (join first second) third = join first (join second third)
  self : ∀ type, TypeFormed known type → join type type = type

/-- The join of two types, where a hierarchy finds one. -/
def joined (hierarchy : Hierarchy) (first second : BlockType) : BlockType :=
  match ((joinTypes first second).run hierarchy).1 with
  | .ok answer => answer
  | .error _ => .top

section

variable {origin : Hierarchy} (learned : Learned origin) (rooted : Rooted origin.known)
  (rootKnown : ∃ info, origin.known root = some info)
include learned rooted

theorem joined_typeJoined {first second : BlockType} (firstFormed : TypeFormed origin.known first)
    (secondFormed : TypeFormed origin.known second) :
    TypeJoined origin.known first second (origin.joined first second) := by
  obtain ⟨answer, after, run, -, joined⟩ :=
    joinTypes_joined rooted firstFormed.typeKnown secondFormed.typeKnown origin learned.follows
  rwa [Hierarchy.joined, run]

include rootKnown

/-- Where all chains of superclasses end at the root, the join of two types exists and
is their least upper bound, whatever was asked before. -/
theorem joinTypes_least :
    JoinsAreLeast origin.known origin.joined ∧
      ∀ first second, TypeFormed origin.known first → TypeFormed origin.known second →
        ∀ hierarchy, Follows origin hierarchy → ∃ after,
          (joinTypes first second).run hierarchy = (.ok (origin.joined first second), after) ∧
            Follows origin after := by
  have formed : ∀ {first second}, TypeFormed origin.known first → TypeFormed origin.known second →
      TypeFormed origin.known (origin.joined first second) := fun one two =>
    (joined_typeJoined learned rooted one two).formed rooted rootKnown one two
  have least : ∀ {first second}, TypeFormed origin.known first →
      TypeFormed origin.known second →
      IsLeastUpper origin.known first second (origin.joined first second) := fun one two =>
    (joined_typeJoined learned rooted one two).isLeastUpper rooted rootKnown one two
  constructor
  · constructor
    case antisymm => exact fun _ _ below above => below.antisymm rooted above
    case formed => exact fun _ _ one two => formed one two
    case least => exact fun _ _ one two => least one two
    case comm => exact fun _ _ one two => (least one two).unique rooted (least two one).symm
    case assoc =>
      exact fun _ _ _ one two three => IsLeastUpper.assoc rooted (least one two) (least two three)
        (least (formed one two) three) (least one (formed two three))
    case self => exact fun type one => (least one one).unique rooted (.self type)
  · intro first second one two hierarchy follows
    obtain ⟨answer, after, run, follows', joined⟩ :=
      joinTypes_joined rooted one.typeKnown two.typeKnown hierarchy follows
    have same := (joined.isLeastUpper rooted rootKnown one two).unique rooted (least one two)
    exact ⟨after, same ▸ run, follows'⟩

end

/-- The standard classes are a hierarchy of that kind. -/
theorem joinTypes_least_standard :
    JoinsAreLeast (ofGraph .standard []).known (ofGraph .standard []).joined ∧
      ∀ first second, TypeFormed (ofGraph .standard []).known first →
        TypeFormed (ofGraph .standard []).known second →
        ∀ hierarchy, Follows (ofGraph .standard []) hierarchy → ∃ after,
          (joinTypes first second).run hierarchy =
              (.ok ((ofGraph .standard []).joined first second), after) ∧
            Follows (ofGraph .standard []) after := by
  have known := known_ofGraph .standard
  have rooted : Rooted (ofGraph .standard []).known := known ▸ ClassGraph.standard_rooted
  have rootKnown : ∃ info, (ofGraph .standard []).known root = some info := by
    rw [known]
    exact ⟨_, ClassGraph.find?_standard List.mem_cons_self⟩
  exact joinTypes_least (.fresh .standard []) rooted rootKnown

end Hierarchy
end ClassFile
