import ClassFile.Frame.Join
import ClassFile.Proofs.Hierarchy.Questions
import ClassFile.Proofs.Spelling

namespace ClassFile

/-!
# The order of types

A type covers another one if every value of the second is one of the first.
Joining two types gives one that covers both, and gives back the first one where
that covers the second.  With transitivity this is all that inference needs to
know of types.  The order speaks of classes through what a hierarchy knows of
them, and everything here is about types whose classes are known.
-/

/-! ## Names of array types -/

namespace TypeName

theorem ofString_of_toList {text : String} {dimensions : Nat} {element : List Char}
    (spelled : text.toList = List.replicate dimensions '[' ++ element)
    (plain : element.head? ≠ some '[') : ofString text = ⟨dimensions, element⟩ := by
  have parts : (text.toList.takeWhile (· == '[')).length = dimensions ∧
      text.toList.dropWhile (· == '[') = element := by
    rw [spelled]
    clear spelled
    induction dimensions with
    | zero =>
      cases element with
      | nil => exact ⟨rfl, rfl⟩
      | cons first rest =>
        have different : (first == '[') = false := by simpa using plain
        rw [List.replicate_zero, List.nil_append, List.takeWhile_cons, List.dropWhile_cons,
          different]
        exact ⟨rfl, rfl⟩
    | succ dimensions ih =>
      rw [List.replicate_succ, List.cons_append, List.takeWhile_cons, List.dropWhile_cons]
      exact ⟨congrArg Nat.succ ih.1, ih.2⟩
  rw [ofString, parts.1, parts.2]

theorem toList_ofString (text : String) :
    text.toList =
      List.replicate (ofString text).dimensions '[' ++ (ofString text).element := by
  have brackets : text.toList.takeWhile (· == '[') =
      List.replicate (text.toList.takeWhile (· == '[')).length '[' := by
    refine List.eq_replicate_iff.2 ⟨rfl, fun c member => ?_⟩
    exact eq_of_beq (List.all_eq_true.1 List.all_takeWhile c member)
  rw [ofString]
  dsimp only
  rw [← brackets, List.takeWhile_append_dropWhile]

theorem toList_arrayOf (dimensions : Nat) (cls : String) :
    (arrayOf dimensions cls).toList =
      List.replicate dimensions '[' ++ 'L' :: (cls.toList ++ [';']) := by
  simp [arrayOf]

@[simp] theorem ofString_arrayOf (dimensions : Nat) (cls : String) :
    ofString (arrayOf dimensions cls) = ⟨dimensions, 'L' :: (cls.toList ++ [';'])⟩ :=
  ofString_of_toList (toList_arrayOf dimensions cls) (by simp)

@[simp] theorem elementClass?_letter (dimensions : Nat) (cls : String) :
    elementClass? ⟨dimensions, 'L' :: (cls.toList ++ [';'])⟩ = some cls := by
  simp [elementClass?]

theorem arrayOf_inj {dimensions others : Nat} {cls other : String}
    (same : arrayOf dimensions cls = arrayOf others other) : dimensions = others ∧ cls = other := by
  have parts := congrArg ofString same
  rw [ofString_arrayOf, ofString_arrayOf, TypeName.mk.injEq] at parts
  obtain ⟨rfl, element⟩ := parts
  refine ⟨rfl, String.toList_inj.1 ?_⟩
  exact List.append_cancel_right (List.cons.inj element).2

/-- A type name whose elements are objects of a class is spelled in one way. -/
theorem eq_arrayOf {text cls : String} (element : (ofString text).elementClass? = some cls) :
    text = arrayOf (ofString text).dimensions cls := by
  refine String.toList_inj.1 ?_
  rw [toList_arrayOf]
  conv_lhs => rw [toList_ofString text]
  congr 1
  rw [elementClass?] at element
  split at element
  · next rest spelled =>
    split at element
    · next last =>
      obtain ⟨front, rfl⟩ := List.getLast?_eq_some_iff.1 last
      rw [spelled, ← Option.some.inj element, List.dropLast_concat, String.toList_ofList]
    · cases element
  · cases element

@[simp] theorem ofString_root : ofString ClassName.object.text = ⟨0, ClassName.object.text.toList⟩ :=
  ofString_of_toList rfl (by decide)

theorem objects_dimensions (dimensions : Nat) :
    (ofString (objects dimensions)).dimensions = dimensions := by
  rw [objects]
  split
  · next none => rw [ofString_root, none]
  · rw [ofString_arrayOf]

theorem objects_objectDimensions (dimensions : Nat) :
    (ofString (objects dimensions)).objectDimensions = dimensions := by
  rw [objects]
  split
  · next none =>
    rw [ofString_root, none]
    decide
  · rw [ofString_arrayOf, objectDimensions, elementClass?_letter]
    rfl

theorem objects_of_pos {dimensions : Nat} (some_ : 0 < dimensions) :
    objects dimensions = arrayOf dimensions ClassName.object.text :=
  if_neg (Nat.ne_of_gt some_)

theorem objectDimensions_le (name : TypeName) : name.objectDimensions ≤ name.dimensions := by
  rw [objectDimensions]
  split
  · exact Nat.le_refl _
  · exact Nat.sub_le _ _

/-- A class name has no brackets in front. -/
theorem dimensions_className (name : ClassName) : (ofString name.text).dimensions = 0 := by
  have plain := name.head?_ne_bracket
  rw [ofString]
  cases chars : name.text.toList with
  | nil => rfl
  | cons first rest =>
    rw [chars] at plain
    have different : (first == '[') = false := by simpa using plain
    rw [List.takeWhile_cons, different]
    rfl

end TypeName

namespace Hierarchy

/-! ## The order -/

/-- A reference type covers another one: an array of objects all that have as
many dimensions, and apart from these a class other classes, and an array of a
class arrays of other classes. -/
inductive NameBelow (known : String → Option ClassInfo) (lower upper : String) : Prop
  | same (same : lower = upper)
  | objects (dimensions : Nat) (enough : dimensions ≤ (TypeName.ofString lower).objectDimensions)
      (same : upper = TypeName.objects dimensions)
  | arrays (dimensions : Nat) (cls above : String) (some_ : 0 < dimensions)
      (isLower : lower = TypeName.arrayOf dimensions cls) (isUpper : upper = TypeName.arrayOf dimensions above)
      (below : Below known cls above)
  | classes (lowerPlain : (TypeName.ofString lower).dimensions = 0)
      (upperPlain : (TypeName.ofString upper).dimensions = 0) (below : Below known lower upper)

/-- A type covers another one. -/
inductive TypeBelow (known : String → Option ClassInfo) : BlockType → BlockType → Prop
  | same (type : BlockType) : TypeBelow known type type
  | top (type : BlockType) : TypeBelow known type .top
  | null (name : String) : TypeBelow known .null (.object name)
  | object {lower upper : String} (below : NameBelow known lower upper) :
      TypeBelow known (.object lower) (.object upper)

/-- The class that has to be known to join a reference type with others. -/
def namedClass? (text : String) : Option String :=
  if (TypeName.ofString text).dimensions = 0 then some text else (TypeName.ofString text).elementClass?

/-- The class of a reference type is known. -/
def NameKnown (known : String → Option ClassInfo) (text : String) : Prop :=
  ∀ cls, namedClass? text = some cls → ∃ info, known cls = some info

/-- If a type is a reference type, its class is known. -/
def TypeKnown (known : String → Option ClassInfo) (type : BlockType) : Prop :=
  ∀ name, type = .object name → NameKnown known name

section

variable {known : String → Option ClassInfo} {lower middle upper : String}

theorem NameBelow.trans (rooted : Rooted known) (first : NameBelow known lower middle)
    (second : NameBelow known middle upper) : NameBelow known lower upper := by
  cases first with
  | same same => exact same ▸ second
  | objects dimensions enough same =>
    subst same
    cases second with
    | same same => exact .objects dimensions enough same.symm
    | objects fewer fits same =>
      rw [TypeName.objects_objectDimensions] at fits
      exact .objects fewer (Nat.le_trans fits enough) same
    | arrays others cls above some_ isMiddle isUpper below =>
      have dims := congrArg (fun text => (TypeName.ofString text).dimensions) isMiddle
      rw [TypeName.objects_dimensions, TypeName.ofString_arrayOf] at dims
      dsimp only at dims
      subst dims
      rw [TypeName.objects_of_pos some_] at isMiddle
      obtain ⟨-, rfl⟩ := TypeName.arrayOf_inj isMiddle
      refine .objects dimensions enough ?_
      rw [isUpper, below.eq_root rooted, TypeName.objects_of_pos some_]
      rfl
    | classes middlePlain upperPlain below =>
      rw [TypeName.objects_dimensions] at middlePlain
      subst middlePlain
      exact .objects 0 enough (below.eq_root rooted)
  | arrays dimensions cls above some_ isLower isMiddle below =>
    subst isLower isMiddle
    cases second with
    | same same => exact .arrays dimensions cls above some_ rfl same.symm below
    | objects fewer fits same =>
      refine .objects fewer ?_ same
      rw [TypeName.ofString_arrayOf, TypeName.objectDimensions, TypeName.elementClass?_letter] at fits ⊢
      exact fits
    | arrays others cls' above' some_' isMiddle isUpper below' =>
      obtain ⟨rfl, rfl⟩ := TypeName.arrayOf_inj isMiddle
      exact .arrays dimensions cls above' some_ rfl isUpper (below.trans rooted below')
    | classes middlePlain =>
      rw [TypeName.ofString_arrayOf] at middlePlain
      exact absurd middlePlain (Nat.ne_of_gt some_)
  | classes lowerPlain middlePlain below =>
    cases second with
    | same same => exact same ▸ .classes lowerPlain middlePlain below
    | objects fewer fits same =>
      have none := Nat.le_trans fits (TypeName.objectDimensions_le _)
      rw [middlePlain] at none
      exact .objects fewer (Nat.le_trans none (Nat.zero_le _)) same
    | arrays others cls' above' some_ isMiddle =>
      rw [isMiddle, TypeName.ofString_arrayOf] at middlePlain
      exact absurd middlePlain (Nat.ne_of_gt some_)
    | classes _ upperPlain below' =>
      exact .classes lowerPlain upperPlain (below.trans rooted below')

theorem IsChain.dimensions {name : String} {names : List String}
    (chain : IsChain known name names) (plain : (TypeName.ofString name).dimensions = 0) :
    ∀ upper ∈ names, (TypeName.ofString upper).dimensions = 0 := by
  induction chain with
  | last =>
    intro upper member
    rw [List.mem_singleton.1 member]
    exact plain
  | @next name info above rest found up chain ih =>
    intro upper member
    rcases List.mem_cons.1 member with rfl | later
    · exact plain
    · exact ih (TypeName.dimensions_className above) upper later

theorem Common.dimensions (rooted : Rooted known) {first second answer : String}
    (common : Common known first second answer)
    (firstPlain : (TypeName.ofString first).dimensions = 0)
    (secondPlain : (TypeName.ofString second).dimensions = 0) :
    (TypeName.ofString answer).dimensions = 0 := by
  obtain ⟨names, chain | chain, member⟩ := common.mem rooted
  · exact chain.dimensions firstPlain answer member
  · exact chain.dimensions secondPlain answer member

end

end Hierarchy
end ClassFile
