import ClassFile.Class.Image
import ClassFile.Code.Image
import ClassFile.Proofs.Frame.Writing

namespace ClassFile

/-!
# What does not fit its field

Writing a part of a class fails where something is too large for the field that it goes into:
an index, the number of the parts of a sequence, the length of an attribute, or the last key of
a switch.  Nothing is written of what does not fit.  So an index that is refused is past 65535,
and one that is written is never cut short.
-/

/-- Something does not fit its encoding.  An index does not if it has more than 16 bits. -/
def Fault.OfEncoding : Fault → Prop
  | .codec (.wideIndex index) => 65536 ≤ index
  | .codec .longPool => False
  | .codec _ | .overflow => True
  | _ => False

open Fault (OfEncoding)
open FailsOnly

theorem FailsWide.ofEncoding {α : Type} {result : Except Fault α} (fails : FailsWide result) :
    FailsOnly OfEncoding result := by
  intro fault run
  rcases fails fault run with ⟨index, large, rfl⟩
  exact large

namespace Encoding

variable {α : Type} {one : α → Except Fault Bytes}

theorem index_fails (index : PoolIndex) : FailsOnly OfEncoding (Encoding.index index) :=
  (FailsWide.index index).ofEncoding

theorem payload_fails (bytes : Bytes) : FailsOnly OfEncoding (payload bytes) := by
  rw [payload]
  split
  · exact ok _
  · exact error trivial

theorem sequence_fails (every : ∀ part, FailsOnly OfEncoding (one part)) (parts : List α) :
    FailsOnly OfEncoding (sequence one parts) :=
  FailsOnly.sequence (fun _ => trivial) fun part _ => every part

end Encoding

open Encoding

/-! ## Entries -/

theorem Constant.encode_fails (constant : Constant) : FailsOnly OfEncoding constant.encode := by
  refine bind ?_ fun body _ => ok _
  cases constant with
  | utf8 text =>
    rw [encodeBody]
    split
    · exact ok _
    · exact error trivial
  | cls index | string index | methodType index | module index | package index =>
    exact index_fails index
  | fieldRef first second | methodRef first second | nameAndType first second =>
    exact (index_fails first).bind fun _ _ => (index_fails second).bind fun _ _ => ok _
  | methodHandle kind member => exact (index_fails member).bind fun _ _ => ok _
  | dynamic bootstrap signature | invokeDynamic bootstrap signature =>
    exact (index_fails signature).bind fun _ _ => ok _
  | _ => exact ok _

theorem BootstrapMethod.encodeTable_fails (methods : List BootstrapMethod) :
    FailsOnly OfEncoding (encodeTable methods) := by
  rw [encodeTable]
  split
  · refine (FailsOnly.each fun method _ => ?_).bind fun _ _ => ok _
    exact (index_fails method.handle).bind fun _ _ =>
      (sequence_fails index_fails method.arguments).bind fun _ _ => ok _
  · exact error trivial

/-! ## Code -/

theorem Instruction.failsWide_encode (instruction : Instruction) :
    FailsWide instruction.encode := by
  refine FailsWide.bind ?_ fun operands _ => .ok _
  unfold encodeOperands
  cases instruction with
  | loadConstant constant =>
    dsimp only
    split
    · exact .ok _
    · exact .index _
  | loadWideConstant | accessField | withClass => exact .index _
  | invoke | invokeDynamic | newMultiArray => exact (FailsWide.index _).bind fun _ _ => .ok _
  | increment =>
    dsimp only
    split <;> exact .ok _
  | _ => exact .ok _

/-- Only the last key of a switch may not fit. -/
theorem Branch.encode_fails (branch : Branch Int16 Int32 Unit) :
    FailsOnly OfEncoding branch.encode := by
  refine bind ?_ fun operands _ => ok _
  cases branch with
  | tableSwitch padding otherwise low targets =>
    refine bind ?_ fun high _ => ok _
    rw [lastKey]
    split
    · exact ok _
    · exact error trivial
  | _ => exact ok _

theorem StackMapEntry.encode_fails (entry : StackMapEntry) : FailsOnly OfEncoding entry.encode := by
  have types := sequence_fails fun type => (FailsWide.type type).ofEncoding
  cases entry with
  | same delta => exact ok _
  | sameOne delta operand => exact (FailsWide.type operand).ofEncoding.bind fun _ _ => ok _
  | chop delta count =>
    rw [encode]
    split
    · exact ok _
    · exact error trivial
  | append delta locals =>
    rw [encode]
    split
    · exact (FailsWide.types locals).ofEncoding.bind fun _ _ => ok _
    · exact error trivial
  | full delta locals operands =>
    exact (types locals).bind fun _ _ => (types operands).bind fun _ _ => ok _

theorem StackMapEntry.encodeTable_fails (entries : List StackMapEntry) :
    FailsOnly OfEncoding (encodeTable entries) :=
  sequence_fails encode_fails entries

theorem Attribute.encode_fails (attr : Attribute) : FailsOnly OfEncoding attr.encode :=
  (index_fails attr.name).bind fun _ _ => (payload_fails attr.info).bind fun _ _ => ok _

theorem ExceptionEntry.encode_fails (exception : ExceptionEntry) :
    FailsOnly OfEncoding exception.encode :=
  (index_fails exception.catches).bind fun _ _ => ok _

theorem CodeImage.encode_fails (code : CodeImage) : FailsOnly OfEncoding code.encode := by
  refine (payload_fails code.bytes).bind fun _ _ => ?_
  refine (sequence_fails ExceptionEntry.encode_fails code.exceptions).bind fun _ _ => ?_
  exact (sequence_fails Attribute.encode_fails code.attributes).bind fun _ _ => ok _

/-! ## Classes -/

theorem Member.encode_fails {kind : AccessKind} (member : Member kind) :
    FailsOnly OfEncoding member.encode := by
  refine (index_fails member.name).bind fun _ _ => ?_
  refine (index_fails member.descriptor).bind fun _ _ => ?_
  exact (sequence_fails Attribute.encode_fails member.attributes).bind fun _ _ => ok _

theorem ClassImage.encode_fails {image : ClassImage} (small : image.pool.count < 65536) :
    FailsOnly OfEncoding image.encode := by
  have entries : FailsOnly OfEncoding image.pool.encode := by
    rw [Pool.encode, if_pos small]
    exact (FailsOnly.each fun constant _ => constant.encode_fails).bind fun _ _ => ok _
  refine entries.bind fun _ _ => (index_fails image.thisClass).bind fun _ _ => ?_
  refine (index_fails _).bind fun _ _ => (sequence_fails index_fails _).bind fun _ _ => ?_
  refine (sequence_fails Member.encode_fails image.fields).bind fun _ _ => ?_
  refine (sequence_fails Member.encode_fails image.methods).bind fun _ _ => ?_
  exact (sequence_fails Attribute.encode_fails image.attributes).bind fun _ _ => ok _

end ClassFile
