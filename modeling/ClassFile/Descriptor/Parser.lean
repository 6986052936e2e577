import ClassFile.Descriptor.Basic

namespace ClassFile

/-!
# Reading descriptors

`FieldType.read?` takes one field type off the front of a text.  It always uses
up at least one character, so the parameters of a method are read until the
closing parenthesis by recursion on the length of what is left.  The parsers
accept a text only when nothing is left over.
-/

namespace FieldType

/-- Take a field type off the front of a text. -/
def read? : List Char → Option (FieldType × List Char)
  | [] => none
  | '[' :: rest => (read? rest).map fun (element, rest) => (array element, rest)
  | 'L' :: rest =>
    match (ClassName.ofString (String.ofList (rest.takeWhile (· != ';')))).toOption,
        rest.dropWhile (· != ';') with
    | some name, _ :: rest => some (object name, rest)
    | _, _ => none
  | letter :: rest => (BaseType.ofLetter? letter).map fun type => (base type, rest)

theorem length_lt_of_read {text rest : List Char} {type : FieldType}
    (found : read? text = some (type, rest)) : rest.length < text.length := by
  fun_induction read? text generalizing type rest with
  | case1 => cases found
  | case2 tail ih =>
    obtain ⟨⟨element, left⟩, inner, same⟩ := Option.map_eq_some_iff.1 found
    cases same
    exact Nat.lt_succ_of_lt (ih inner)
  | case3 tail name closing left dropped _ =>
    cases found
    have := (List.dropWhile_sublist (· != ';') (l := tail)).length_le
    rw [dropped] at this
    exact Nat.lt_succ_of_lt this
  | case4 => cases found
  | case5 letter tail =>
    obtain ⟨type, _, same⟩ := Option.map_eq_some_iff.1 found
    cases same
    exact Nat.lt_succ_self _

def parse? (text : String) : Option FieldType :=
  match read? text.toList with
  | some (type, []) => some type
  | _ => none

/-- A descriptor of an object or an array. -/
def parseReference? (text : String) : Option FieldType :=
  (parse? text).filter isReference

end FieldType

namespace MethodDescriptor

/-- Take field types off the front of a text up to a closing parenthesis, which
is used up too. -/
def readParameters? : List Char → Option (List FieldType × List Char)
  | ')' :: rest => some ([], rest)
  | text =>
    match found : FieldType.read? text with
    | none => none
    | some (type, rest) =>
      have := FieldType.length_lt_of_read found
      (readParameters? rest).map fun (types, rest) => (type :: types, rest)
termination_by text => text.length

def readResult? : List Char → Option (Option FieldType × List Char)
  | 'V' :: rest => some (none, rest)
  | text => (FieldType.read? text).map fun (type, rest) => (some type, rest)

def parse? (text : String) : Option MethodDescriptor :=
  match text.toList with
  | '(' :: inner => do
    let (parameters, rest) ← readParameters? inner
    match ← readResult? rest with
    | (result, []) => some ⟨parameters, result⟩
    | _ => none
  | _ => none

end MethodDescriptor
end ClassFile
