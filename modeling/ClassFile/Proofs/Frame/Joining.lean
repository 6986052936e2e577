import ClassFile.Proofs.Frame.Order

namespace ClassFile
namespace Hierarchy

/-!
# Joining types

Joining two types gives one that covers both, and gives back the first one where
that covers the second.  So a join that changed nothing shows that one type covers
the other, and a type that covers another one is not changed by joining it.
-/

/-- What a join is to the two values it was made from. -/
structure IsJoin {α : Type} (below : α → α → Prop) (isKnown : α → Prop)
    (first second joined : α) : Prop where
  covers : below first joined
  coversOther : below second joined
  known : isKnown joined
  settled : below second first → joined = first

theorem forall₂_trans {α : Type} {below : α → α → Prop}
    (trans : ∀ one two three, below one two → below two three → below one three)
    {lower middle upper : List α} (first : List.Forall₂ below lower middle)
    (second : List.Forall₂ below middle upper) : List.Forall₂ below lower upper := by
  refine (forall₂_comp first second).imp ?_
  rintro one three ⟨two, here, there⟩
  exact trans one two three here there

/-- Joining two lists value by value. -/
theorem IsJoin.lists {α : Type} {below : α → α → Prop} {isKnown : α → Prop}
    {firsts seconds joined : List α} (same : firsts.length = seconds.length)
    (each : List.Forall₂ (fun pair join => IsJoin below isKnown pair.1 pair.2 join)
      (firsts.zip seconds) joined) :
    IsJoin (List.Forall₂ below) (fun values => ∀ value ∈ values, isKnown value)
      firsts seconds joined := by
  induction firsts generalizing seconds joined with
  | nil =>
    obtain rfl := List.length_eq_zero_iff.1 same.symm
    obtain rfl := List.forall₂_nil_left_iff.1 each
    exact ⟨.nil, .nil, fun _ member => (by cases member), fun _ => rfl⟩
  | cons first firsts ih =>
    cases seconds with
    | nil => cases same
    | cons second seconds =>
      rw [List.zip_cons_cons] at each
      obtain ⟨join, joins, here, rest, rfl⟩ := List.forall₂_cons_left_iff.1 each
      have later := ih (Nat.succ.inj same) rest
      refine ⟨.cons here.covers later.covers, .cons here.coversOther later.coversOther, ?_, ?_⟩
      · intro value member
        rcases List.mem_cons.1 member with rfl | member
        · exact here.known
        · exact later.known value member
      · intro covered
        obtain ⟨one, others⟩ := List.forall₂_cons.1 covered
        rw [here.settled one, later.settled others]

/-! ## What a join finds -/

/-- What the join of two reference types is: the common superclass of two classes,
the array of it for two arrays of objects that have the same dimensions, and
otherwise an array of objects. -/
inductive NameJoined (known : String → Option ClassInfo) (first second : String) : String → Prop
  | classes {answer : String} (firstPlain : (TypeName.ofString first).dimensions = 0)
      (secondPlain : (TypeName.ofString second).dimensions = 0)
      (common : Common known first second answer) : NameJoined known first second answer
  | arrays {dimensions : Nat} {cls other answer : String} (some_ : 0 < dimensions)
      (isFirst : first = TypeName.arrayOf dimensions cls)
      (isSecond : second = TypeName.arrayOf dimensions other)
      (common : Common known cls other answer) :
      NameJoined known first second (TypeName.arrayOf dimensions answer)
  | objects
      (array : (TypeName.ofString first).dimensions ≠ 0 ∨ (TypeName.ofString second).dimensions ≠ 0)
      (unlike : (TypeName.ofString first).dimensions = (TypeName.ofString second).dimensions →
        (TypeName.ofString first).elementClass? = none ∨
          (TypeName.ofString second).elementClass? = none) :
      NameJoined known first second
        (TypeName.objects (min (TypeName.ofString first).objectDimensions
          (TypeName.ofString second).objectDimensions))

/-- What the join of two types is. -/
inductive TypeJoined (known : String → Option ClassInfo) : BlockType → BlockType → BlockType → Prop
  | same (type : BlockType) : TypeJoined known type type type
  | nullFirst (name : String) : TypeJoined known .null (.object name) (.object name)
  | nullSecond (name : String) : TypeJoined known (.object name) .null (.object name)
  | objects {first second answer : String} (different : first ≠ second)
      (joined : NameJoined known first second answer) :
      TypeJoined known (.object first) (.object second) (.object answer)
  | apart {first second : BlockType} (different : first ≠ second)
      (noNull : ∀ name, first = .null → second ≠ .object name)
      (noNull' : ∀ name, first = .object name → second ≠ .null)
      (noObjects : ∀ name other, first = .object name → second ≠ .object other) :
      TypeJoined known first second .top

section

variable {keeps : Hierarchy → Prop} {kind : Fault → Prop} {known : String → Option ClassInfo}

/-- Joining two reference types asks for no more than the common superclass of their classes. -/
theorem joinNames_resolves {first second : String}
    (commons : ∀ cls other, namedClass? first = some cls → namedClass? second = some other →
      Query.Resolves keeps kind (commonSuperclass cls other) (Common known cls other)) :
    Query.Resolves keeps kind (joinNames first second) (NameJoined known first second) := by
  rw [joinNames]
  dsimp only
  split
  · next plain =>
    rw [Bool.and_eq_true, Bool.not_eq_true', Bool.not_eq_true', TypeName.isArray, TypeName.isArray,
      decide_eq_false_iff_not, decide_eq_false_iff_not, Nat.not_lt, Nat.not_lt, Nat.le_zero,
      Nat.le_zero] at plain
    obtain ⟨firstPlain, secondPlain⟩ := plain
    exact (commons first second (if_pos firstPlain) (if_pos secondPlain)).mono fun answer common =>
      .classes firstPlain secondPlain common
  · next arrays =>
    have array : (TypeName.ofString first).dimensions ≠ 0 ∨
        (TypeName.ofString second).dimensions ≠ 0 := by
      rw [Bool.and_eq_true, Bool.not_eq_true', Bool.not_eq_true', TypeName.isArray,
        TypeName.isArray, decide_eq_false_iff_not, decide_eq_false_iff_not] at arrays
      omega
    split
    · next cls other both =>
      split at both
      · next sameDimensions =>
        obtain ⟨_, isCls, found⟩ := Option.bind_eq_some_iff.1 both
        obtain ⟨_, isOther, same⟩ := Option.map_eq_some_iff.1 found
        cases same
        have several : (TypeName.ofString first).dimensions ≠ 0 := by omega
        have isFirst := TypeName.eq_arrayOf isCls
        have isSecond := TypeName.eq_arrayOf isOther
        rw [← sameDimensions] at isSecond
        have asked := commons cls other ((if_neg several).trans isCls)
          ((if_neg (sameDimensions ▸ several)).trans isOther)
        refine asked.bind fun answer common => ?_
        exact Query.resolves_pure
          (.arrays (Nat.pos_of_ne_zero several) isFirst isSecond common)
      · cases both
    · next neither =>
      refine Query.resolves_pure (.objects array fun same => ?_)
      rw [if_pos same] at neither
      cases isCls : (TypeName.ofString first).elementClass? with
      | none => exact .inl rfl
      | some cls =>
        cases isOther : (TypeName.ofString second).elementClass? with
        | none => exact .inr rfl
        | some other =>
          rw [isCls, isOther] at neither
          cases neither

theorem joinTypes_resolves {first second : BlockType}
    (names : ∀ name other, first = .object name → second = .object other →
      Query.Resolves keeps kind (joinNames name other) (NameJoined known name other)) :
    Query.Resolves keeps kind (joinTypes first second) (TypeJoined known first second) := by
  unfold joinTypes
  by_cases different : first = second
  · subst different
    rw [if_pos rfl]
    exact Query.resolves_pure (.same _)
  · rw [if_neg different]
    split
    · next name => exact Query.resolves_pure (.nullFirst name)
    · next name => exact Query.resolves_pure (.nullSecond name)
    · next a b =>
      have apart : a ≠ b := fun same => different (congrArg _ same)
      refine (names a b rfl rfl).bind fun answer joined => ?_
      exact Query.resolves_pure (.objects apart joined)
    · next noNull noNull' noObjects =>
      exact Query.resolves_pure (.apart different noNull noNull' noObjects)

end

section

variable {origin : Hierarchy} (rooted : Rooted origin.known)
include rooted

theorem joinNames_joined {first second : String}
    (firstKnown : NameKnown origin.known first) (secondKnown : NameKnown origin.known second) :
    Query.Succeeds (Follows origin) (joinNames first second)
      (NameJoined origin.known first second) :=
  Query.resolves_surely.1 (joinNames_resolves fun cls other isFirst isSecond =>
    Query.resolves_surely.2 (commonSuperclass_succeeds rooted (firstKnown cls isFirst)
      (secondKnown other isSecond)))

theorem joinTypes_joined {first second : BlockType} (firstKnown : TypeKnown origin.known first)
    (secondKnown : TypeKnown origin.known second) :
    Query.Succeeds (Follows origin) (joinTypes first second)
      (TypeJoined origin.known first second) :=
  Query.resolves_surely.1 (joinTypes_resolves fun name other isFirst isSecond =>
    Query.resolves_surely.2 (joinNames_joined rooted (firstKnown name isFirst)
      (secondKnown other isSecond)))

end

section

variable {known : String → Option ClassInfo} (rooted : Rooted known)
  (rootKnown : ∃ info, known root = some info)
include rooted

/-! ## Reference types -/

/-- Joining two classes. -/
theorem Common.isJoin {first second answer : String}
    (common : Common known first second answer) (different : first ≠ second)
    (firstPlain : (TypeName.ofString first).dimensions = 0)
    (secondPlain : (TypeName.ofString second).dimensions = 0) :
    IsJoin (NameBelow known) (NameKnown known) first second answer := by
  have answerPlain := common.dimensions rooted firstPlain secondPlain
  obtain ⟨belowFirst, belowSecond⟩ := common.below rooted
  refine ⟨.classes firstPlain answerPlain belowFirst, .classes secondPlain answerPlain belowSecond,
    ?_, fun covered => ?_⟩
  · intro cls named
    rw [namedClass?, if_pos answerPlain, Option.some.injEq] at named
    exact named ▸ common.found rooted
  · cases covered with
    | same same => exact absurd same.symm different
    | objects dimensions enough same =>
      subst same
      rw [TypeName.objects_dimensions] at firstPlain
      subst firstPlain
      exact belowFirst.eq_root rooted
    | arrays dimensions cls above some_ isSecond =>
      rw [isSecond, TypeName.ofString_arrayOf] at secondPlain
      exact absurd secondPlain (Nat.ne_of_gt some_)
    | classes _ _ below => exact common.eq_first rooted different below

/-- Joining two arrays of objects that have the same dimensions. -/
theorem Common.isJoin_arrays {dimensions : Nat} {cls other answer : String}
    (common : Common known cls other answer) (different : cls ≠ other)
    (some_ : 0 < dimensions) :
    IsJoin (NameBelow known) (NameKnown known)
      (TypeName.arrayOf dimensions cls) (TypeName.arrayOf dimensions other)
      (TypeName.arrayOf dimensions answer) := by
  obtain ⟨belowFirst, belowSecond⟩ := common.below rooted
  refine ⟨.arrays dimensions cls answer some_ rfl rfl belowFirst,
    .arrays dimensions other answer some_ rfl rfl belowSecond, ?_, fun covered => ?_⟩
  · intro name named
    rw [namedClass?, TypeName.ofString_arrayOf, if_neg (Nat.ne_of_gt some_),
      TypeName.elementClass?_letter, Option.some.injEq] at named
    exact named ▸ common.found rooted
  · cases covered with
    | same same => exact absurd (TypeName.arrayOf_inj same).2.symm different
    | objects others enough same =>
      have dims := congrArg (fun text => (TypeName.ofString text).dimensions) same
      rw [TypeName.objects_dimensions, TypeName.ofString_arrayOf] at dims
      dsimp only at dims
      subst dims
      rw [TypeName.objects_of_pos some_] at same
      obtain ⟨-, rfl⟩ := TypeName.arrayOf_inj same
      rw [belowFirst.eq_root rooted]
      rfl
    | arrays others lower above _ isSecond isFirst below =>
      obtain ⟨-, rfl⟩ := TypeName.arrayOf_inj isSecond
      obtain ⟨-, rfl⟩ := TypeName.arrayOf_inj isFirst
      rw [common.eq_first rooted different below]
    | classes plain =>
      rw [TypeName.ofString_arrayOf] at plain
      exact absurd plain (Nat.ne_of_gt some_)

omit rooted in
/-- Joining reference types of which at least one is an array, when they are not
arrays of objects that have the same dimensions. -/
theorem isJoin_objects (rootKnown : ∃ info, known root = some info)
    {first second : String} (different : first ≠ second)
    (array : (TypeName.ofString first).dimensions ≠ 0 ∨ (TypeName.ofString second).dimensions ≠ 0)
    (unlike : (TypeName.ofString first).dimensions = (TypeName.ofString second).dimensions →
      (TypeName.ofString first).elementClass? = none ∨
        (TypeName.ofString second).elementClass? = none) :
    IsJoin (NameBelow known) (NameKnown known) first second
      (TypeName.objects (min (TypeName.ofString first).objectDimensions
        (TypeName.ofString second).objectDimensions)) := by
  refine ⟨.objects _ (Nat.min_le_left _ _) rfl, .objects _ (Nat.min_le_right _ _) rfl, ?_,
    fun covered => ?_⟩
  · intro name named
    rw [namedClass?, TypeName.objects_dimensions] at named
    split at named
    · next none =>
      rw [none, Option.some.injEq] at named
      exact named ▸ rootKnown
    · next several =>
      rw [TypeName.objects_of_pos (Nat.pos_of_ne_zero several), TypeName.ofString_arrayOf,
        TypeName.elementClass?_letter, Option.some.injEq] at named
      exact named ▸ rootKnown
  · cases covered with
    | same same => exact absurd same.symm different
    | objects dimensions enough same =>
      have own : (TypeName.ofString first).objectDimensions = dimensions :=
        same ▸ TypeName.objects_objectDimensions dimensions
      rw [own, Nat.min_eq_left enough, same]
    | arrays dimensions lower above some_ isSecond isFirst =>
      rw [isFirst, isSecond, TypeName.ofString_arrayOf, TypeName.ofString_arrayOf,
        TypeName.elementClass?_letter, TypeName.elementClass?_letter] at unlike
      rcases unlike rfl with absent | absent
      · cases absent
      · cases absent
    | classes secondPlain firstPlain =>
      rcases array with isArray | isArray
      · exact absurd firstPlain isArray
      · exact absurd secondPlain isArray

include rootKnown

theorem NameJoined.isJoin {first second answer : String}
    (joined : NameJoined known first second answer) (different : first ≠ second) :
    IsJoin (NameBelow known) (NameKnown known) first second answer := by
  cases joined with
  | classes firstPlain secondPlain common =>
    exact common.isJoin rooted different firstPlain secondPlain
  | arrays some_ isFirst isSecond common =>
    subst isFirst isSecond
    exact common.isJoin_arrays rooted (fun same => different (congrArg _ same)) some_
  | objects array unlike => exact isJoin_objects rootKnown different array unlike

/-! ## Types and frames -/

theorem TypeJoined.isJoin {first second answer : BlockType}
    (joined : TypeJoined known first second answer)
    (firstKnown : TypeKnown known first) (secondKnown : TypeKnown known second) :
    IsJoin (TypeBelow known) (TypeKnown known) first second answer := by
  cases joined with
  | same => exact ⟨.same _, .same _, firstKnown, fun _ => rfl⟩
  | nullFirst name =>
    exact ⟨.null name, .same _, secondKnown, fun covered => by cases covered⟩
  | nullSecond name => exact ⟨.same _, .null name, firstKnown, fun _ => rfl⟩
  | objects different joined =>
    have isJoin := joined.isJoin rooted rootKnown different
    refine ⟨.object isJoin.covers, .object isJoin.coversOther, ?_, fun covered => ?_⟩
    · rintro _ ⟨⟩
      exact isJoin.known
    · cases covered with
      | same => exact absurd rfl different
      | object below => rw [isJoin.settled below]
  | apart different noNull noNull' noObjects =>
    refine ⟨.top _, .top _, fun _ same => (by cases same), fun covered => ?_⟩
    cases covered with
    | same => exact absurd rfl different
    | top => rfl
    | null name => exact absurd rfl (noNull' name rfl)
    | object => exact absurd rfl (noObjects _ _ rfl)

end

theorem joinTypes_succeeds {origin : Hierarchy} (rooted : Rooted origin.known)
    (rootKnown : ∃ info, origin.known root = some info) {first second : BlockType}
    (firstKnown : TypeKnown origin.known first)
    (secondKnown : TypeKnown origin.known second) :
    Query.Succeeds (Follows origin) (joinTypes first second)
      (IsJoin (TypeBelow origin.known) (TypeKnown origin.known) first second) :=
  (joinTypes_joined rooted firstKnown secondKnown).mono fun _ joined =>
    joined.isJoin rooted rootKnown firstKnown secondKnown

section

variable {known : String → Option ClassInfo}

theorem TypeBelow.trans (rooted : Rooted known) {lower middle upper : BlockType}
    (first : TypeBelow known lower middle) (second : TypeBelow known middle upper) :
    TypeBelow known lower upper := by
  cases first with
  | same => exact second
  | top =>
    cases second with
    | same => exact .top _
    | top => exact .top _
  | null name =>
    cases second with
    | same => exact .null name
    | top => exact .top _
    | object => exact .null _
  | object below =>
    cases second with
    | same => exact .object below
    | top => exact .top _
    | object below' => exact .object (below.trans rooted below')

/-- A frame covers another one slot by slot and operand by operand. -/
structure FrameBelow (known : String → Option ClassInfo) (lower upper : BlockFrame) : Prop where
  locals : List.Forall₂ (TypeBelow known) lower.locals upper.locals
  stack : List.Forall₂ (TypeBelow known) lower.stack upper.stack

/-- A frame with a number of slots that speaks of known classes only. -/
structure FrameKnown (known : String → Option ClassInfo) (slots : Nat) (frame : BlockFrame) :
    Prop where
  locals : ∀ type ∈ frame.locals, TypeKnown known type
  stack : ∀ type ∈ frame.stack, TypeKnown known type
  slots_eq : frame.locals.length = slots

theorem FrameBelow.refl (known : String → Option ClassInfo) (frame : BlockFrame) :
    FrameBelow known frame frame :=
  ⟨List.forall₂_same.2 fun _ _ => .same _, List.forall₂_same.2 fun _ _ => .same _⟩

theorem FrameBelow.trans (rooted : Rooted known) {lower middle upper : BlockFrame}
    (first : FrameBelow known lower middle) (second : FrameBelow known middle upper) :
    FrameBelow known lower upper := by
  have steps : ∀ one two three, TypeBelow known one two → TypeBelow known two three →
      TypeBelow known one three := fun _ _ _ below above => below.trans rooted above
  exact ⟨forall₂_trans steps first.locals second.locals,
    forall₂_trans steps first.stack second.stack⟩

end

section

variable {keeps : Hierarchy → Prop} {joins : BlockType × BlockType → BlockType → Prop}
  {known incoming : BlockFrame}

theorem zip_operands (sameStack : known.stack.length = incoming.stack.length) :
    known.operands.zip incoming.operands = (known.stack.zip incoming.stack).reverse := by
  rw [List.zip_eq_zipWith, List.zip_eq_zipWith, List.reverse_zipWith sameStack]
  rfl

/-- What holds of the joins of types holds throughout a join of frames, which fails as they
do or for the heights of the stacks. -/
theorem joinFrames_resolves {kind : Fault → Prop} (block : Nat)
    (sameLocals : known.locals.length = incoming.locals.length)
    (mismatch : ∀ expected found, kind (.incompatibleHeights block expected found))
    (onLocals : ∀ pair ∈ known.locals.zip incoming.locals,
      Query.Resolves keeps kind (joinTypes pair.1 pair.2) (joins pair))
    (onStack : ∀ pair ∈ known.stack.zip incoming.stack,
      Query.Resolves keeps kind (joinTypes pair.1 pair.2) (joins pair)) :
    Query.Resolves keeps kind (joinFrames block known incoming) fun joined =>
      List.Forall₂ joins (known.locals.zip incoming.locals) joined.locals ∧
        known.stack.length = incoming.stack.length ∧
          List.Forall₂ joins (known.stack.zip incoming.stack) joined.stack := by
  rw [joinFrames]
  dsimp only
  split
  · exact Query.resolves_throw (mismatch _ _)
  · next sameHeight =>
    have sameStack : known.stack.length = incoming.stack.length := Decidable.not_not.1 sameHeight
    rw [zip_operands sameStack]
    have onOperands : ∀ pair ∈ (known.stack.zip incoming.stack).reverse, Query.Resolves keeps kind
        (if pair.1.width = pair.2.width then joinTypes pair.1 pair.2
          else throw (.incompatibleHeights block known.height incoming.height))
        (joins pair) := by
      intro pair member
      split
      · exact onStack pair (List.mem_reverse.1 member)
      · exact Query.resolves_throw (mismatch _ _)
    refine (Query.resolves_mapM onOperands).bind fun operands eachOperand => ?_
    have locals : Query.Resolves keeps kind (joinLocals known.locals incoming.locals)
        (List.Forall₂ joins (known.locals.zip incoming.locals)) := by
      rw [joinLocals]
      refine (Query.resolves_mapM onLocals).bind fun shared eachLocal => ?_
      rw [sameLocals, Nat.max_self, Nat.min_self, Nat.sub_self]
      dsimp only
      rw [List.replicate_zero, List.append_nil]
      exact Query.resolves_pure eachLocal
    refine locals.bind fun locals eachLocal => Query.resolves_pure ⟨eachLocal, sameStack, ?_⟩
    have each := List.rel_reverse eachOperand
    rwa [List.reverse_reverse] at each

theorem joinFrames_each (block : Nat) (sameLocals : known.locals.length = incoming.locals.length)
    (onLocals : ∀ pair ∈ known.locals.zip incoming.locals,
      Query.Answers keeps (joinTypes pair.1 pair.2) (joins pair))
    (onStack : ∀ pair ∈ known.stack.zip incoming.stack,
      Query.Answers keeps (joinTypes pair.1 pair.2) (joins pair)) :
    Query.Answers keeps (joinFrames block known incoming) fun joined =>
      List.Forall₂ joins (known.locals.zip incoming.locals) joined.locals ∧
        known.stack.length = incoming.stack.length ∧
          List.Forall₂ joins (known.stack.zip incoming.stack) joined.stack :=
  Query.resolves_anyhow.1 (joinFrames_resolves block sameLocals (fun _ _ => trivial)
    (fun pair member => Query.resolves_anyhow.2 (onLocals pair member))
    fun pair member => Query.resolves_anyhow.2 (onStack pair member))

end

/-- The frame that a join of frames arrives at covers both. -/
theorem joinFrames_answers {origin : Hierarchy} (rooted : Rooted origin.known)
    (rootKnown : ∃ info, origin.known root = some info) {slots : Nat} (block : Nat)
    {known incoming : BlockFrame} (knownKnown : FrameKnown origin.known slots known)
    (incomingKnown : FrameKnown origin.known slots incoming) :
    Query.Answers (Follows origin) (joinFrames block known incoming)
      (IsJoin (FrameBelow origin.known) (FrameKnown origin.known slots) known incoming) := by
  have sameLocals : known.locals.length = incoming.locals.length :=
    knownKnown.slots_eq.trans incomingKnown.slots_eq.symm
  have each : ∀ {types others : List BlockType},
      (∀ type ∈ types, TypeKnown origin.known type) →
        (∀ type ∈ others, TypeKnown origin.known type) →
          ∀ pair ∈ types.zip others, Query.Answers (Follows origin) (joinTypes pair.1 pair.2)
            (IsJoin (TypeBelow origin.known) (TypeKnown origin.known) pair.1 pair.2) := by
    intro types others typesKnown othersKnown pair member
    obtain ⟨inTypes, inOthers⟩ := List.of_mem_zip member
    exact (joinTypes_succeeds rooted rootKnown (typesKnown _ inTypes)
      (othersKnown _ inOthers)).answers
  refine (joinFrames_each block sameLocals (each knownKnown.locals incomingKnown.locals)
    (each knownKnown.stack incomingKnown.stack)).mono fun joined ⟨onLocals, sameStack, onStack⟩ => ?_
  have locals := IsJoin.lists sameLocals onLocals
  have stack := IsJoin.lists sameStack onStack
  refine ⟨⟨locals.covers, stack.covers⟩, ⟨locals.coversOther, stack.coversOther⟩,
    ⟨locals.known, stack.known, ?_⟩, fun covered => ?_⟩
  · exact locals.covers.length_eq.symm.trans knownKnown.slots_eq
  · rw [Frame.mk.injEq]
    exact ⟨locals.settled covered.locals, stack.settled covered.stack⟩

end Hierarchy
end ClassFile
