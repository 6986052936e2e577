import ClassFile.Descriptor.Parser
import ClassFile.Fault

namespace ClassFile

/-!
# Descriptors and names that must be valid

Where a descriptor comes from outside, a text that is none is a fault which
names the whole text.  A bad name is a fault that says what is wrong with it.
-/

namespace ClassName

def parse (text : String) : Except Fault ClassName :=
  match ofString text with
  | .ok name => .ok name
  | .error defect => .error (.invalidName defect)

end ClassName

namespace MemberName

def require (name : String) : Except Fault Unit :=
  match defect? name with
  | some defect => .error (.invalidName defect)
  | none => .ok ()

end MemberName

namespace FieldType

def parse (text : String) : Except Fault FieldType :=
  match parse? text with
  | some type => .ok type
  | none => .error (.invalidDescriptor text)

def parseReference (text : String) : Except Fault FieldType :=
  match parseReference? text with
  | some type => .ok type
  | none => .error (.invalidDescriptor text)

/-- Read the spelling of a class constant: arrays are named by descriptors. -/
def ofInternalName (text : String) : Except Fault FieldType :=
  if text.toList.head? = some '[' then parseReference text
  else return .object (← ClassName.parse text)

end FieldType

namespace MethodDescriptor

def parse (text : String) : Except Fault MethodDescriptor :=
  match parse? text with
  | some method => .ok method
  | none => .error (.invalidDescriptor text)

end MethodDescriptor
end ClassFile
