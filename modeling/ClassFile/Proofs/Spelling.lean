import ClassFile.Descriptor.Checked
import ClassFile.Proofs.Success

namespace ClassFile

/-!
# What was read is what is spelled

A name or a type that was read from a text spells that text.
-/

namespace ClassName

theorem text_of_ofString {text : String} {name : ClassName} (read : ofString text = .ok name) :
    name.text = text := by
  rw [ofString] at read
  split at read
  · cases read
    rfl
  · cases read

/-- A class name is not the descriptor of an array. -/
theorem head?_ne_bracket (name : ClassName) : name.text.toList.head? ≠ some '[' := by
  have internal := name.internal
  rw [isInternal] at internal
  cases chars : name.text.toList with
  | nil => exact nofun
  | cons first rest =>
    rw [chars, List.splitOn_cons_eq_if_modifyHead] at internal
    intro bracket
    cases bracket
    rcases List.exists_cons_of_ne_nil (List.splitOn_ne_nil '/' rest) with ⟨segment, segments, split⟩
    rw [split] at internal
    simp [isSegment, isSegmentChar] at internal

/-- A class name has no character that descriptors reserve. -/
theorem isSegmentChar_of_mem (name : ClassName) {c : Char} (member : c ∈ name.text.toList) :
    isSegmentChar c = true := by
  have segments : ∀ chars : List Char, (chars.splitOn '/').all (·.all isSegmentChar) = true →
      ∀ c ∈ chars, isSegmentChar c = true := by
    intro chars all
    induction chars with
    | nil => exact fun _ member => absurd member List.not_mem_nil
    | cons first rest ih =>
      rw [List.splitOn_cons_eq_if_modifyHead] at all
      rcases List.exists_cons_of_ne_nil (List.splitOn_ne_nil '/' rest) with ⟨segment, more, split⟩
      rw [split] at ih all
      rw [List.forall_mem_cons]
      split at all
      · next slash =>
        have isSlash : first = '/' := by simpa using slash
        exact ⟨isSlash ▸ by decide, ih (by simpa using all)⟩
      · simp only [List.modifyHead_cons, List.all_cons, Bool.and_eq_true] at all ih
        exact ⟨all.1.1, ih ⟨all.1.2, all.2⟩⟩
  refine segments _ ?_ c member
  rw [List.all_eq_true]
  intro segment inside
  have isSegment := List.all_eq_true.1 name.internal segment inside
  rw [ClassName.isSegment, Bool.and_eq_true] at isSegment
  exact isSegment.2

theorem text_of_parse {text : String} {name : ClassName} (read : parse text = .ok name) :
    name.text = text := by
  rw [parse] at read
  split at read
  · next found =>
    cases read
    exact text_of_ofString found
  · cases read

end ClassName

namespace FieldType

theorem letter_of_ofLetter {letter : Char} {type : BaseType}
    (found : BaseType.ofLetter? letter = some type) : type.letter = letter := by
  unfold BaseType.ofLetter? at found
  split at found
  all_goals cases found
  all_goals rfl

/-- What is read off the front of a text is spelled there. -/
theorem chars_of_read {text rest : List Char} {type : FieldType}
    (found : read? text = some (type, rest)) : text = type.chars ++ rest := by
  fun_induction read? text generalizing type rest with
  | case1 => cases found
  | case2 tail ih =>
    obtain ⟨⟨element, left⟩, inner, same⟩ := Option.map_eq_some_iff.1 found
    cases same
    rw [ih inner]
    rfl
  | case3 tail name closing left dropped parsed =>
    cases found
    have closed : closing = ';' := by
      have first := List.head?_dropWhile_not (· != ';') tail
      rw [dropped] at first
      simpa using first
    have spelled : name.text.toList = tail.takeWhile (· != ';') := by
      cases read : ClassName.ofString (String.ofList (tail.takeWhile (· != ';'))) with
      | error defect =>
        rw [read] at parsed
        cases parsed
      | ok other =>
        rw [read] at parsed
        cases parsed
        rw [ClassName.text_of_ofString read, String.toList_ofList]
    have whole := List.takeWhile_append_dropWhile (p := (· != ';')) (l := tail)
    rw [dropped, closed, ← spelled] at whole
    rw [chars, ← whole]
    simp
  | case4 => cases found
  | case5 letter tail =>
    obtain ⟨type, found', same⟩ := Option.map_eq_some_iff.1 found
    cases same
    rw [chars, letter_of_ofLetter found']
    rfl

theorem descriptor_of_parse {text : String} {type : FieldType} (read : parse? text = some type) :
    type.descriptor = text := by
  rw [parse?] at read
  split at read
  · next found =>
    obtain rfl := Option.some.inj read
    refine String.toList_inj.1 ?_
    rw [chars_of_read found, List.append_nil, descriptor, String.toList_ofList]
  · cases read

/-- The spelling of a class constant is that of the type it denotes. -/
theorem internalName_of_ofInternalName {text : String} {type : FieldType}
    (read : ofInternalName text = .ok type) :
    type.isReference = true ∧ type.internalName = text := by
  rw [ofInternalName] at read
  split at read
  · next bracket =>
    rw [parseReference] at read
    split at read
    · next other found =>
      obtain rfl : other = type := Except.ok.inj read
      obtain ⟨parsed, reference⟩ := Option.filter_eq_some_iff.1 found
      have spelled := descriptor_of_parse parsed
      refine ⟨reference, ?_⟩
      cases other with
      | base => exact spelled
      | array => exact spelled
      | object name =>
        rw [← spelled, descriptor, String.toList_ofList] at bracket
        cases bracket
    · cases read
  · obtain ⟨name, parsed, same⟩ := bind_eq_ok.1 read
    obtain rfl := pure_eq_ok.1 same
    exact ⟨rfl, ClassName.text_of_parse parsed⟩

/-- A type that is spelled in front of a text is read off it. -/
theorem read_chars (type : FieldType) (rest : List Char) :
    read? (type.chars ++ rest) = some (type, rest) := by
  induction type with
  | base type => cases type <;> rfl
  | array element ih =>
    rw [chars, List.cons_append, read?, ih]
    rfl
  | object name =>
    have plain : ∀ c ∈ name.text.toList, (c != ';') = true := by
      intro c member
      have := name.isSegmentChar_of_mem member
      simp only [ClassName.isSegmentChar, Bool.and_eq_true] at this
      exact this.1.2
    have front : (name.text.toList ++ [';'] ++ rest).takeWhile (· != ';') = name.text.toList := by
      rw [List.append_assoc, List.takeWhile_append_of_pos plain]
      simp
    have back : (name.text.toList ++ [';'] ++ rest).dropWhile (· != ';') = ';' :: rest := by
      rw [List.append_assoc, List.dropWhile_append_of_pos plain]
      simp
    rw [chars, List.cons_append, read?, front, back, String.ofList_toList, ClassName.ofString_text]
    rfl

/-- The internal name of a reference type denotes it. -/
theorem ofInternalName_internalName {type : FieldType} (reference : type.isReference = true) :
    ofInternalName type.internalName = .ok type := by
  cases type with
  | base => cases reference
  | object name =>
    rw [internalName, ofInternalName, if_neg name.head?_ne_bracket, ClassName.parse,
      ClassName.ofString_text]
    rfl
  | array element =>
    have spelled : (array element).descriptor.toList = (array element).chars := String.toList_ofList
    have read := read_chars (array element) []
    rw [List.append_nil] at read
    have isArray : (array element).chars.head? = some '[' := rfl
    rw [internalName, ofInternalName, spelled, if_pos isArray, parseReference, parseReference?,
      parse?, spelled, read]
    · rfl
    · exact fun _ same => by cases same

end FieldType

namespace MethodDescriptor

theorem chars_of_readParameters {text rest : List Char} {types : List FieldType}
    (found : readParameters? text = some (types, rest)) :
    text = types.flatMap FieldType.chars ++ ')' :: rest := by
  fun_induction readParameters? text generalizing types rest with
  | case1 tail =>
    cases found
    rfl
  | case2 => cases found
  | case3 text _ type left first _ ih =>
    obtain ⟨⟨others, last⟩, later, same⟩ := Option.map_eq_some_iff.1 found
    cases same
    rw [FieldType.chars_of_read first, ih later, List.flatMap_cons, List.append_assoc]

theorem chars_of_readResult {text rest : List Char} {result : Option FieldType}
    (found : readResult? text = some (result, rest)) :
    text = result.elim ['V'] FieldType.chars ++ rest := by
  unfold readResult? at found
  split at found
  · cases found
    rfl
  · obtain ⟨⟨type, left⟩, read, same⟩ := Option.map_eq_some_iff.1 found
    cases same
    exact FieldType.chars_of_read read

/-- What was read from a method descriptor is spelled by it. -/
theorem chars_of_parse {text : String} {method : MethodDescriptor}
    (read : parse text = .ok method) : text.toList = method.chars := by
  unfold parse at read
  split at read
  · next parsed found =>
    obtain rfl := Except.ok.inj read
    unfold parse? at found
    split at found
    · next inner spelled =>
      obtain ⟨⟨parameters, rest⟩, isParameters, found⟩ := Option.bind_eq_some_iff.1 found
      obtain ⟨⟨result, left⟩, isResult, found⟩ := Option.bind_eq_some_iff.1 found
      split at found
      · next isEnd =>
        cases isEnd
        cases found
        rw [spelled, chars_of_readParameters isParameters, chars_of_readResult isResult,
          List.append_nil, chars]
      · cases found
    · cases found
  · cases read

end MethodDescriptor
end ClassFile
