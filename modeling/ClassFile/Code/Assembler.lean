import ClassFile.Hierarchy.Ancestor
import ClassFile.Pool.Request

namespace ClassFile

/-!
# What assembling changes

Code is assembled against a constant pool, which grows, and a class hierarchy,
which learns.  Both keep what they gained when assembling fails.
-/

structure Assembler.State where
  pool : Pool
  hierarchy : Hierarchy

abbrev Assembler := ExceptT Fault (StateM Assembler.State)

namespace Assembler

variable {α : Type}

def symbol (request : Pool.Request α) : Assembler α := fun ⟨pool, hierarchy⟩ =>
  let (answer, pool) := request.run pool
  (answer, ⟨pool, hierarchy⟩)

def query (question : Hierarchy.Query α) : Assembler α := fun ⟨pool, hierarchy⟩ =>
  let (answer, hierarchy) := question.run hierarchy
  (answer, ⟨pool, hierarchy⟩)

end Assembler
end ClassFile
