import ClassFile.Proofs.Frame.Known
import ClassFile.Proofs.Frame.Ranks
import ClassFile.Proofs.Pool.Growth

namespace ClassFile

/-!
# Dimensions of arrays in frames

Every array in a frame is named by a text of the pool or of the method, or is an array of
what such a text names, or an element of an array.  So none has more than one dimension
beyond the length of the longest text.
-/

/-! ## Dimensions -/

theorem TypeName.dimensions_le_length (text : String) :
    (TypeName.ofString text).dimensions ≤ text.length :=
  (List.takeWhile_sublist _).length_le

namespace FieldType

/-- The brackets of a reference type are those in front of its spelling. -/
theorem dimensions_internalName (type : FieldType) :
    (TypeName.ofString type.internalName).dimensions = (type.chars.takeWhile (· == '[')).length := by
  cases type with
  | base type => cases type <;> decide
  | object name =>
    rw [internalName, TypeName.dimensions_className]
    rfl
  | array element =>
    rw [internalName, descriptor, TypeName.ofString, String.toList_ofList]
    intro name same
    cases same

theorem dimensions_array (element : FieldType) :
    (TypeName.ofString (array element).internalName).dimensions =
      (TypeName.ofString element.internalName).dimensions + 1 := by
  rw [dimensions_internalName, dimensions_internalName]
  rfl

theorem dimensions_le_chars (type : FieldType) :
    (TypeName.ofString type.internalName).dimensions ≤ type.chars.length := by
  rw [dimensions_internalName]
  exact (List.takeWhile_sublist _).length_le

theorem length_chars_of_parse {text : String} {type : FieldType} (read : parse text = .ok type) :
    type.chars.length ≤ text.length := by
  rw [parse] at read
  split at read
  · next found =>
    obtain rfl := Except.ok.inj read
    rw [← descriptor_of_parse found, descriptor, String.length_ofList]
  · cases read

end FieldType

namespace MethodDescriptor

theorem length_parameter_le {method : MethodDescriptor} {type : FieldType}
    (isParameter : type ∈ method.parameters) : type.chars.length ≤ method.chars.length := by
  have inside : type.chars.Sublist (method.parameters.flatMap FieldType.chars) := by
    rw [List.flatMap_def]
    exact List.sublist_flatten_of_mem (List.mem_map_of_mem isParameter)
  have := inside.length_le
  simp only [chars, List.length_cons, List.length_append]
  omega

theorem length_result_le {method : MethodDescriptor} {type : FieldType}
    (isResult : method.result = some type) : type.chars.length ≤ method.chars.length := by
  simp only [chars, isResult, Option.elim_some, List.length_cons, List.length_append]
  omega

end MethodDescriptor

/-! ## Texts -/

namespace Inference

variable {context : CodeContext}

theorem length_le_longest {entries : List (PoolIndex × Constant)} {start : Nat} :
    start ≤ entries.foldl (fun most entry =>
        match entry.2 with
        | .utf8 text => max most text.length
        | _ => most) start ∧
      ∀ index text, (index, Constant.utf8 text) ∈ entries →
        text.length ≤ entries.foldl (fun most entry =>
          match entry.2 with
          | .utf8 text => max most text.length
          | _ => most) start := by
  induction entries generalizing start with
  | nil => exact ⟨Nat.le_refl _, fun _ _ member => absurd member List.not_mem_nil⟩
  | cons entry entries ih =>
    rw [List.foldl_cons]
    constructor
    · refine Nat.le_trans ?_ ih.1
      split
      · exact Nat.le_max_left _ _
      · exact Nat.le_refl _
    · intro index text member
      cases List.mem_cons.1 member with
      | inl same =>
        subst same
        exact Nat.le_trans (Nat.le_max_right _ _) ih.1
      | inr later => exact ih.2 index text later

theorem length_utf8_le {index : PoolIndex} {text : String}
    (found : context.pool.utf8 index = .ok text) : text.length ≤ longestText context :=
  length_le_longest.2 index text (Pool.entry_eq_ok.1 (Pool.utf8_eq_ok.1 found))

theorem length_className_le {index : PoolIndex} {name : String}
    (found : context.pool.className index = .ok name) : name.length ≤ longestText context := by
  obtain ⟨text, -, named⟩ := Pool.className_eq_ok.1 found
  exact length_utf8_le named

theorem length_signature_le {index : PoolIndex} {signature : Pool.Signature}
    (found : context.pool.signature index = .ok signature) :
    signature.descriptor.length ≤ longestText context := by
  obtain ⟨name, descriptor, -, -, spelled⟩ := Pool.signature_eq_ok.1 found
  exact length_utf8_le spelled

theorem length_member_le {index : PoolIndex} {member : Pool.Member}
    (found : context.pool.member index = .ok member) :
    member.descriptor.length ≤ longestText context := by
  obtain ⟨constant, owner, signature, -, -, named, -⟩ := Pool.member_eq_ok.1 found
  exact length_signature_le named

theorem length_dynamicSignature_le {index : PoolIndex} {signature : Pool.Signature}
    (found : context.pool.dynamicSignature index = .ok signature) :
    signature.descriptor.length ≤ longestText context := by
  obtain ⟨constant, -, found⟩ := bind_eq_ok.1 found
  cases constant with
  | dynamic | invokeDynamic => exact length_signature_le found
  | _ => cases found

theorem length_method_le (context : CodeContext) :
    context.method.thisClass.length + context.method.descriptor.chars.length ≤ longestText context :=
  length_le_longest.1

/-! ## Frames -/

open Hierarchy (Shallow)

/-- More dimensions than any array in a frame of a method has. -/
def deepest (context : CodeContext) : Nat :=
  longestText context + 1

theorem shallow_ofFieldType {type : FieldType} {most : Nat}
    (few : (TypeName.ofString type.internalName).dimensions ≤ most) :
    Shallow most (.ofFieldType type) := by
  intro name same
  cases type with
  | base type => cases type <;> cases same
  | object | array =>
    cases same
    exact few

theorem shallow_of_length {text : String} (short : text.length ≤ longestText context) :
    Shallow (deepest context) (.object text) := by
  rintro _ ⟨⟩
  exact Nat.le_succ_of_le (Nat.le_trans (TypeName.dimensions_le_length text) short)

theorem shallow_of_chars {type : FieldType} (short : type.chars.length ≤ longestText context) :
    Shallow (deepest context) (.ofFieldType type) :=
  shallow_ofFieldType (Nat.le_succ_of_le (Nat.le_trans type.dimensions_le_chars short))

theorem shallow_className (most : Nat) (name : ClassName) : Shallow most (.object name.text) := by
  rintro _ ⟨⟩
  rw [TypeName.dimensions_className]
  exact Nat.zero_le _

theorem shallow_of_parse {text : String} {type : FieldType} (read : FieldType.parse text = .ok type)
    (short : text.length ≤ longestText context) : Shallow (deepest context) (.ofFieldType type) :=
  shallow_of_chars (Nat.le_trans (FieldType.length_chars_of_parse read) short)

theorem shallow_result {text : String} {method : MethodDescriptor} {type : FieldType}
    (read : MethodDescriptor.parse text = .ok method) (isResult : method.result = some type)
    (short : text.length ≤ longestText context) : Shallow (deepest context) (.ofFieldType type) := by
  apply shallow_of_chars
  calc type.chars.length
      ≤ method.chars.length := MethodDescriptor.length_result_le isResult
    _ = text.length := by rw [← MethodDescriptor.chars_of_parse read, String.length_toList]
    _ ≤ longestText context := short

theorem shallow_constant {index : PoolIndex} {type : BlockType}
    (found : context.constantType index = .ok type) : Shallow (deepest context) type := by
  obtain ⟨constant, -, run⟩ := bind_eq_ok.1 found
  cases constant with
  | dynamic =>
    obtain ⟨signature, named, run⟩ := bind_eq_ok.1 run
    obtain ⟨parsed, read, same⟩ := bind_eq_ok.1 run
    obtain rfl := pure_eq_ok.1 same
    exact shallow_of_parse read (length_dynamicSignature_le named)
  | integer | float | long | double =>
    obtain rfl := pure_eq_ok.1 run
    exact nofun
  | string | cls | methodType | methodHandle =>
    obtain rfl := pure_eq_ok.1 run
    rintro _ ⟨⟩
    exact Nat.zero_le _
  | _ => cases run

theorem shallow_gives {block : Nat} {instruction : Instruction} {type : BlockType}
    (given : context.Gives block instruction type) : Shallow (deepest context) type := by
  cases given with
  | plain noObject => exact fun name same => absurd same (noObject name)
  | site => exact nofun
  | constant found => exact shallow_constant found
  | field found =>
    obtain ⟨member, named, run⟩ := bind_eq_ok.1 found
    obtain ⟨parsed, read, same⟩ := bind_eq_ok.1 run
    obtain rfl := pure_eq_ok.1 same
    exact shallow_of_parse read (length_member_le named)
  | result found parsed isResult => exact shallow_result parsed isResult (length_member_le found)
  | dynamicResult found parsed isResult =>
    exact shallow_result parsed isResult (length_dynamicSignature_le found)
  | object found => exact shallow_of_length (length_className_le found)
  | arrayOf found read =>
    apply shallow_ofFieldType
    rw [FieldType.dimensions_array, (FieldType.internalName_of_ofInternalName read).2]
    apply Nat.succ_le_succ
    exact Nat.le_trans (TypeName.dimensions_le_length _) (length_className_le found)
  | arrayOfBase element =>
    apply shallow_ofFieldType
    rw [FieldType.dimensions_array]
    cases element <;> exact Nat.succ_le_succ (Nat.zero_le _)

/-- An element of an array has fewer dimensions. -/
theorem shallow_elementType {most : Nat} {type : BlockType} (shallow : Shallow most type) :
    Shallow most (CodeContext.elementType type) := by
  unfold CodeContext.elementType
  split
  · exact nofun
  · cases found : type.arrayElement? with
    | none => exact shallow_className most ClassName.object
    | some element =>
      obtain ⟨name, inner, rfl, read, -, rfl⟩ := VerificationType.arrayElement?_eq_some found
      apply shallow_ofFieldType
      have few := shallow name rfl
      rw [← (FieldType.internalName_of_ofInternalName read).2, FieldType.dimensions_array] at few
      exact Nat.le_of_succ_le few

theorem shallow_initialized {receiver : BlockType} {cls : String}
    (made : context.initializedClass receiver = .ok (some cls)) :
    Shallow (deepest context) (.object cls) := by
  apply shallow_of_length
  rcases CodeContext.initializedClass_eq_some made with rfl | ⟨index, found⟩
  · exact Nat.le_trans (Nat.le_add_right _ _) (length_method_le context)
  · exact length_className_le found

section

variable {frame after : BlockFrame} (before : frame.Each (Shallow (deepest context)))
include before

/-- No instruction makes an array deeper than a text is long. -/
theorem shallow_step {block : Nat} {instruction : Instruction}
    (run : context.step block frame instruction = .ok after) :
    after.Each (Shallow (deepest context)) := by
  refine CodeContext.each_of_step run nofun ?_ ?_ ?_ before
  · exact fun type given => shallow_gives given
  · exact fun type shallow => shallow_elementType shallow
  · exact fun receiver cls made => shallow_initialized made

theorem shallow_caught {handler : Handler} (run : caught context.pool handler frame = .ok after) :
    after.Each (Shallow (deepest context)) := by
  obtain ⟨cls, rfl, origin⟩ := caught_eq_ok run
  have thrown : Shallow (deepest context) (.object cls) := by
    rcases origin with ⟨index, found⟩ | rfl
    · exact shallow_of_length (length_className_le found)
    · exact shallow_className _ ClassName.throwable
  exact (before.leave (List.nil_subset _)).push thrown

end

theorem shallow_entry (context : CodeContext) (slots : Nat) :
    (context.method.entryFrame.resize slots).Each (Shallow (deepest context)) := by
  have own := length_method_le context
  refine Frame.Each.resize (MethodContext.each_entryFrame nofun nofun ?_ ?_) nofun slots
  · exact shallow_of_length (by omega)
  · intro type isParameter
    have := MethodDescriptor.length_parameter_le isParameter
    exact shallow_of_chars (by omega)

end Inference
end ClassFile
