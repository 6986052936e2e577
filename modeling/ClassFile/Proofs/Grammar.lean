import Mathlib.Data.Set.List
import ClassFile.Proofs.Spelling

namespace ClassFile

/-!
# The grammar of descriptors

The grammar says which texts are class names, field types and method descriptors, and does
not mention how they are read.  Reading accepts just the texts of the grammar.  What was
read is written as the text that it was read from, and what is written is read again.
-/

/-- Texts are read just where they follow a grammar, and reading and writing are inverse to
each other on what is written. -/
structure ReadsExactly {α : Type} (grammar : List Char → Prop) (isWritten : α → Prop)
    (read : String → Except Fault α) (write : α → String) : Prop where
  accepts : ∀ text, (∃ value, read text = .ok value) ↔ grammar text.toList
  write_read : ∀ text value, read text = .ok value → isWritten value ∧ write value = text
  read_write : ∀ value, isWritten value → read (write value) = .ok value

/-! ## Class names -/

namespace ClassName

/-- The characters that mean something else in a descriptor or between segments. -/
def reserved : List Char := ['.', ';', '[', '/']

/-- Segments with a slash between each two of them, none empty and none with a reserved
character. -/
def Grammar (text : List Char) : Prop :=
  ∃ segments : List (List Char), segments ≠ [] ∧
    (∀ segment ∈ segments, segment ≠ [] ∧ ∀ c ∈ segment, c ∉ reserved) ∧
    text = ['/'].intercalate segments

theorem slash_not_mem_splitOn (text : List Char) :
    ∀ segment ∈ text.splitOn '/', '/' ∉ segment := by
  induction text with
  | nil => simp
  | cons first rest ih =>
    rw [List.splitOn_cons_eq_if_modifyHead]
    split
    · exact List.forall_mem_cons.2 ⟨List.not_mem_nil, ih⟩
    · next other =>
      rcases List.exists_cons_of_ne_nil (List.splitOn_ne_nil '/' rest) with ⟨segment, segments, split⟩
      rw [split, List.forall_mem_cons] at ih
      rw [split, List.modifyHead_cons, List.forall_mem_cons]
      refine ⟨?_, ih.2⟩
      rw [List.mem_cons, not_or]
      exact ⟨fun same => other (beq_iff_eq.2 same.symm), ih.1⟩

/-- A segment without a slash is checked for the other reserved characters. -/
theorem isSegment_iff {segment : List Char} (plain : '/' ∉ segment) :
    isSegment segment = true ↔ segment ≠ [] ∧ ∀ c ∈ segment, c ∉ reserved := by
  have each : ∀ c ∈ segment, (isSegmentChar c = true ↔ c ∉ reserved) := by
    intro c member
    have notSlash : c ≠ '/' := fun same => plain (same ▸ member)
    simp [isSegmentChar, reserved, notSlash, and_assoc]
  simp only [isSegment, Bool.and_eq_true, Bool.not_eq_true', List.isEmpty_eq_false_iff,
    List.all_eq_true]
  exact and_congr_right fun _ => forall₂_congr each

/-- The check of a class name accepts just the texts of the grammar. -/
theorem isInternal_iff (text : List Char) : isInternal text = true ↔ Grammar text := by
  rw [isInternal, List.all_eq_true]
  constructor
  · intro all
    refine ⟨text.splitOn '/', List.splitOn_ne_nil _ _, fun segment member => ?_, ?_⟩
    · exact (isSegment_iff (slash_not_mem_splitOn text segment member)).1 (all segment member)
    · exact (List.intercalate_splitOn '/').symm
  · rintro ⟨segments, some_, each, rfl⟩
    have plain : ∀ segment ∈ segments, '/' ∉ segment := by
      intro segment member slash
      apply (each segment member).2 '/' slash
      decide
    rw [List.splitOn_intercalate '/' plain some_]
    intro segment member
    exact (isSegment_iff (plain segment member)).2 (each segment member)

/-- The texts of the grammar are those of class names. -/
theorem grammar_iff (text : List Char) :
    Grammar text ↔ ∃ name : ClassName, name.text.toList = text := by
  rw [← isInternal_iff]
  constructor
  · intro internal
    have spelled : (String.ofList text).toList = text := String.toList_ofList
    exact ⟨⟨String.ofList text, spelled.symm ▸ internal⟩, spelled⟩
  · rintro ⟨name, rfl⟩
    exact name.internal

theorem exists_parse_iff (text : String) :
    (∃ name, parse text = .ok name) ↔ Grammar text.toList := by
  rw [grammar_iff]
  constructor
  · rintro ⟨name, read⟩
    exact ⟨name, congrArg String.toList (text_of_parse read)⟩
  · rintro ⟨name, spelled⟩
    obtain rfl := String.toList_inj.1 spelled
    refine ⟨name, ?_⟩
    rw [parse, ofString_text]

end ClassName

/-! ## Field types -/

namespace FieldType

/-- The letters of the primitive types. -/
def letters : List Char := ['B', 'C', 'D', 'F', 'I', 'J', 'S', 'Z']

/-- Any number of brackets, and then the letter of a primitive type or a class name between
an `L` and a semicolon. -/
def Grammar (text : List Char) : Prop :=
  ∃ dimensions element, text = List.replicate dimensions '[' ++ element ∧
    ((∃ letter ∈ letters, element = [letter]) ∨
      ∃ name, ClassName.Grammar name ∧ element = 'L' :: (name ++ [';']))

theorem letter_mem_letters (type : BaseType) : type.letter ∈ letters := by
  cases type <;> decide

theorem exists_letter {letter : Char} (member : letter ∈ letters) :
    ∃ type : BaseType, type.letter = letter := by
  have known : letters.all (fun letter => (BaseType.ofLetter? letter).isSome) = true := rfl
  rcases Option.isSome_iff_exists.1 (List.all_eq_true.1 known letter member) with ⟨type, found⟩
  exact ⟨type, letter_of_ofLetter found⟩

/-- The texts of the grammar are the spellings of types. -/
theorem grammar_iff (text : List Char) : Grammar text ↔ ∃ type : FieldType, type.chars = text := by
  constructor
  · rintro ⟨dimensions, element, rfl, single⟩
    induction dimensions with
    | zero =>
      rw [List.replicate_zero, List.nil_append]
      rcases single with ⟨letter, isLetter, rfl⟩ | ⟨name, isName, rfl⟩
      · rcases exists_letter isLetter with ⟨type, rfl⟩
        exact ⟨base type, rfl⟩
      · rcases (ClassName.grammar_iff name).1 isName with ⟨name, rfl⟩
        exact ⟨object name, rfl⟩
    | succ dimensions ih =>
      rcases ih with ⟨type, spelled⟩
      refine ⟨array type, ?_⟩
      rw [chars, spelled, List.replicate_succ, List.cons_append]
  · rintro ⟨type, rfl⟩
    induction type with
    | base type => exact ⟨0, _, rfl, .inl ⟨_, letter_mem_letters type, rfl⟩⟩
    | object name =>
      exact ⟨0, _, rfl, .inr ⟨_, (ClassName.grammar_iff _).2 ⟨name, rfl⟩, rfl⟩⟩
    | array element ih =>
      rcases ih with ⟨dimensions, single, spelled, isSingle⟩
      refine ⟨dimensions + 1, single, ?_, isSingle⟩
      rw [chars, spelled, List.replicate_succ, List.cons_append]

theorem parse?_descriptor (type : FieldType) : parse? type.descriptor = some type := by
  have read := read_chars type []
  rw [List.append_nil] at read
  rw [parse?, descriptor, String.toList_ofList, read]

theorem parse_eq_ok {text : String} {type : FieldType} :
    parse text = .ok type ↔ text = type.descriptor := by
  constructor
  · intro read
    rw [parse] at read
    split at read
    · next found =>
      obtain rfl := Except.ok.inj read
      exact (descriptor_of_parse found).symm
    · cases read
  · rintro rfl
    rw [parse, parse?_descriptor]

/-- No spelling starts with the parenthesis that ends the parameters of a method, or with
the letter for no result. -/
theorem exists_chars_cons (type : FieldType) :
    ∃ first rest, type.chars = first :: rest ∧ first ≠ ')' ∧ first ≠ 'V' := by
  cases type with
  | base type => cases type <;> exact ⟨_, _, rfl, by decide, by decide⟩
  | object | array => exact ⟨_, _, rfl, by decide, by decide⟩

theorem readsExactly :
    ReadsExactly Grammar (fun _ : FieldType => True) parse descriptor where
  accepts text := by
    simp only [parse_eq_ok, grammar_iff, ← String.toList_inj, descriptor, String.toList_ofList]
    exact exists_congr fun _ => eq_comm
  write_read text type read := ⟨trivial, (parse_eq_ok.1 read).symm⟩
  read_write type _ := parse_eq_ok.2 rfl

end FieldType

/-! ## Methods -/

namespace MethodDescriptor

/-- The spellings of any number of field types in parentheses, and then that of a field type
or a `V`. -/
def Grammar (text : List Char) : Prop :=
  ∃ (parameters : List (List Char)) (result : List Char),
    (∀ parameter ∈ parameters, FieldType.Grammar parameter) ∧
    (FieldType.Grammar result ∨ result = ['V']) ∧
    text = '(' :: (parameters.flatten ++ ')' :: result)

theorem readParameters_chars (types : List FieldType) (rest : List Char) :
    readParameters? (types.flatMap FieldType.chars ++ ')' :: rest) = some (types, rest) := by
  induction types with
  | nil =>
    rw [List.flatMap_nil, List.nil_append, readParameters?]
  | cons type types ih =>
    rcases type.exists_chars_cons with ⟨first, others, spelled, open_, -⟩
    have read := type.read_chars (types.flatMap FieldType.chars ++ ')' :: rest)
    rw [List.flatMap_cons, List.append_assoc]
    rw [spelled, List.cons_append] at read ⊢
    rw [readParameters?]
    · split
      · next failed => cases read.symm.trans failed
      · next found =>
        cases read.symm.trans found
        rw [ih]
        rfl
    · intro _ same
      exact open_ (List.cons.inj same).1

theorem readResult_chars (result : Option FieldType) :
    readResult? (result.elim ['V'] FieldType.chars) = some (result, []) := by
  cases result with
  | none => rfl
  | some type =>
    rcases type.exists_chars_cons with ⟨first, others, spelled, -, notVoid⟩
    have read := type.read_chars []
    rw [List.append_nil] at read
    rw [Option.elim_some]
    rw [spelled] at read ⊢
    rw [readResult?, read]
    · rfl
    · intro _ same
      exact notVoid (List.cons.inj same).1

theorem parse?_descriptor (method : MethodDescriptor) : parse? method.descriptor = some method := by
  have spelled : method.descriptor.toList = method.chars := String.toList_ofList
  simp only [parse?, spelled, chars, readParameters_chars, readResult_chars, Option.bind_eq_bind,
    Option.bind_some]

theorem parse_eq_ok {text : String} {method : MethodDescriptor} :
    parse text = .ok method ↔ text = method.descriptor := by
  constructor
  · intro read
    apply String.toList_inj.1
    rw [chars_of_parse read, descriptor, String.toList_ofList]
  · rintro rfl
    rw [parse, parse?_descriptor]

/-- The texts of the grammar are the spellings of signatures. -/
theorem grammar_iff (text : List Char) :
    Grammar text ↔ ∃ method : MethodDescriptor, method.chars = text := by
  constructor
  · rintro ⟨parameters, result, areTypes, isResult, rfl⟩
    have spelled : parameters ∈ Set.range (List.map FieldType.chars) := by
      rw [Set.range_list_map]
      exact fun parameter member => (FieldType.grammar_iff parameter).1 (areTypes parameter member)
    rcases spelled with ⟨types, rfl⟩
    rw [← List.flatMap_def]
    rcases isResult with isType | rfl
    · rcases (FieldType.grammar_iff result).1 isType with ⟨type, rfl⟩
      exact ⟨⟨types, some type⟩, rfl⟩
    · exact ⟨⟨types, none⟩, rfl⟩
  · rintro ⟨method, rfl⟩
    refine ⟨method.parameters.map FieldType.chars, _, ?_, ?_, rfl⟩
    · rw [List.forall_mem_map]
      exact fun type _ => (FieldType.grammar_iff _).2 ⟨type, rfl⟩
    · cases method.result with
      | none => exact .inr rfl
      | some type => exact .inl ((FieldType.grammar_iff _).2 ⟨type, rfl⟩)

theorem readsExactly :
    ReadsExactly Grammar (fun _ : MethodDescriptor => True) parse descriptor where
  accepts text := by
    simp only [parse_eq_ok, grammar_iff, ← String.toList_inj, descriptor, String.toList_ofList]
    exact exists_congr fun _ => eq_comm
  write_read text method read := ⟨trivial, (parse_eq_ok.1 read).symm⟩
  read_write method _ := parse_eq_ok.2 rfl

end MethodDescriptor

/-! ## Internal names -/

namespace FieldType

/-- The spelling of a class name, or that of an array type. -/
def InternalGrammar (text : List Char) : Prop :=
  ClassName.Grammar text ∨ text.head? = some '[' ∧ Grammar text

/-- What starts with a bracket is an array. -/
theorem exists_array {type : FieldType} (bracket : type.chars.head? = some '[') :
    ∃ element, type = array element := by
  cases type with
  | base type => cases type <;> cases bracket
  | object name => cases bracket
  | array element => exact ⟨element, rfl⟩

/-- The texts of internal names are those of reference types. -/
theorem internalGrammar_iff (text : List Char) : InternalGrammar text ↔
    ∃ type : FieldType, type.isReference = true ∧ type.internalName.toList = text := by
  rw [InternalGrammar, ClassName.grammar_iff, grammar_iff]
  constructor
  · rintro (⟨name, rfl⟩ | ⟨bracket, type, rfl⟩)
    · exact ⟨object name, rfl, rfl⟩
    · rcases exists_array bracket with ⟨element, rfl⟩
      exact ⟨array element, rfl, String.toList_ofList⟩
  · rintro ⟨type, reference, rfl⟩
    cases type with
    | base => cases reference
    | object name => exact .inl ⟨name, rfl⟩
    | array element =>
      have spelled : (array element).internalName.toList = (array element).chars :=
        String.toList_ofList
      rw [spelled]
      exact .inr ⟨rfl, _, rfl⟩

theorem readsExactly_internal :
    ReadsExactly InternalGrammar (fun type => type.isReference = true) ofInternalName
      internalName where
  accepts text := by
    rw [internalGrammar_iff]
    constructor
    · rintro ⟨type, read⟩
      rcases internalName_of_ofInternalName read with ⟨reference, rfl⟩
      exact ⟨type, reference, rfl⟩
    · rintro ⟨type, reference, spelled⟩
      obtain rfl := String.toList_inj.1 spelled
      exact ⟨type, ofInternalName_internalName reference⟩
  write_read _ _ := internalName_of_ofInternalName
  read_write _ := ofInternalName_internalName

end FieldType

/-- Field types, method descriptors and the names in class constants are read just where
they follow their grammar, and are written as they were read. -/
theorem descriptors_read_exactly :
    ReadsExactly FieldType.Grammar (fun _ => True) FieldType.parse FieldType.descriptor ∧
      ReadsExactly MethodDescriptor.Grammar (fun _ => True) MethodDescriptor.parse
        MethodDescriptor.descriptor ∧
      ReadsExactly FieldType.InternalGrammar (fun type => type.isReference = true)
        FieldType.ofInternalName FieldType.internalName :=
  ⟨FieldType.readsExactly, MethodDescriptor.readsExactly, FieldType.readsExactly_internal⟩

end ClassFile
