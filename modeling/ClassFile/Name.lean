namespace ClassFile

/-!
# Names

Classes are named in internal form: segments separated by slashes, none of
them empty and none holding a character that descriptors reserve.  The name of
a field or a method is one such segment, and only `<init>` and `<clinit>` may
hold angle brackets.
-/

/-- What is wrong with a name. -/
inductive NameDefect
  | empty
  | reserved (name : String)
  | bracketed (name : String)
  | notInternal (name : String)
deriving DecidableEq, Repr

namespace NameDefect

def message : NameDefect → String
  | empty => "empty method or field name"
  | reserved name => s!"'{name}' contains one of '.', ';', '[', '/'"
  | bracketed name => s!"'{name}' contains an angle bracket"
  | notInternal name => s!"'{name}' is not a class name in internal form"

end NameDefect

namespace ClassName

/-- A character that may stand between two slashes of a class name. -/
def isSegmentChar (c : Char) : Bool :=
  c != '.' && c != ';' && c != '['

def isSegment (chars : List Char) : Bool :=
  !chars.isEmpty && chars.all isSegmentChar

def isInternal (chars : List Char) : Bool :=
  (chars.splitOn '/').all isSegment

end ClassName

/-- The name of a class or interface in internal form, such as
`java/lang/Object`. -/
structure ClassName where
  text : String
  internal : ClassName.isInternal text.toList = true := by decide
deriving DecidableEq

namespace ClassName

instance : Repr ClassName :=
  ⟨fun name precedence => reprPrec name.text precedence⟩

def ofString (text : String) : Except NameDefect ClassName :=
  if internal : isInternal text.toList = true then .ok ⟨text, internal⟩
  else .error (.notInternal text)

theorem ofString_text (name : ClassName) : ofString name.text = .ok name :=
  dif_pos name.internal

def object : ClassName := { text := "java/lang/Object" }

def throwable : ClassName := { text := "java/lang/Throwable" }

end ClassName

namespace MemberName

def isReserved (c : Char) : Bool :=
  c == '.' || c == ';' || c == '[' || c == '/'

def isBracket (c : Char) : Bool :=
  c == '<' || c == '>'

/-- The two method names that the virtual machine itself gives. -/
def isSpecial (name : String) : Bool :=
  name == "<init>" || name == "<clinit>"

/-- The first defect of a field or method name. -/
def defect? (name : String) : Option NameDefect :=
  if name.isEmpty then some .empty
  else if name.toList.any isReserved then some (.reserved name)
  else if !isSpecial name && name.toList.any isBracket then some (.bracketed name)
  else none

end MemberName
end ClassFile
