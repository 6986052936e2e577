import ClassFile.Code.Operation
import ClassFile.Proofs.Bytes.Reads

namespace ClassFile

/-!
# Reading instructions back

An instruction that was written is read back as itself, and it takes as many
bytes as its width says.  An instruction without operands is found in the table
of plain ones, and the opcodes with operands of their own are in none of the
tables.
-/

namespace Instruction

variable {instruction : Instruction} {bytes operands : Bytes}

/-! ## Instructions that are their opcode alone -/

theorem slot_of_small {slot : UInt16} (small : slot.toNat < 4) :
    slot = 0 ∨ slot = 1 ∨ slot = 2 ∨ slot = 3 := by
  simp only [← UInt16.toNat_inj]
  simp
  omega

/-- An instruction without operands is the one that its opcode stands for. -/
theorem findPlain_opcode (alone : instruction.operandWidth = 0) :
    findPlain? instruction.opcode = some instruction := by
  cases instruction with
  | nop | pushNull | compareLongs | arrayLength | monitorEnter | monitorExit => decide +kernel
  | pushInt nth | pushLong nth | pushFloat nth | pushDouble nth => decide +kernel +revert
  | load kind slot | store kind slot =>
    have small : slot.toNat < 4 := by
      by_contra large
      rw [operandWidth, if_neg large] at alone
      split at alone <;> cases alone
    rcases slot_of_small small with rfl | rfl | rfl | rfl <;> cases kind <;> decide +kernel
  | arrayLoad kind | arrayStore kind | negate kind | shuffle kind | convert kind
  | compareFloats kind | compareDoubles kind => cases kind <;> decide +kernel
  | arithmetic op kind | shift op kind | bitwise op kind =>
    cases op <;> cases kind <;> decide +kernel
  | loadConstant constant =>
    rw [operandWidth] at alone
    split at alone <;> cases alone
  | increment slot amount =>
    rw [operandWidth] at alone
    split at alone <;> cases alone
  | invoke mode method => cases mode <;> cases alone
  | pushByte | pushShort | loadWideConstant | accessField | invokeDynamic | withClass | newArray
  | newMultiArray => cases alone

/-! ## Widths -/

theorem length_encodeSlot (slot : UInt16) :
    (encodeSlot slot).length =
      if slot.toNat < 4 then 0 else if 0xFF < slot.toNat then 2 else 1 := by
  rw [encodeSlot]
  split
  · rfl
  · split
    · rw [if_neg (by omega)]
      rfl
    · rw [if_pos (by omega)]
      rfl

theorem length_index {index : PoolIndex} (written : Encoding.index index = .ok bytes) :
    bytes.length = 2 := by
  rw [Encoding.index] at written
  split at written
  · exact Except.ok.inj written ▸ BigEndian.length_encode 2 index
  · cases written

theorem length_encodeOperands (written : instruction.encodeOperands = .ok operands) :
    operands.length = instruction.operandWidth := by
  cases instruction with
  | load kind slot | store kind slot =>
    cases written
    rw [length_encodeSlot, operandWidth, isWide]
    simp only [decide_eq_true_eq]
  | loadConstant constant =>
    rw [encodeOperands] at written
    rw [operandWidth]
    split at written
    · cases written
      rw [if_pos ‹_›]
      rfl
    · rw [if_neg ‹_›]
      exact length_index written
  | loadWideConstant index | accessField _ index | withClass _ index => exact length_index written
  | invoke mode method =>
    rcases bind_eq_ok.1 written with ⟨index, found, same⟩
    rw [← pure_eq_ok.1 same, List.length_append, length_index found]
    cases mode <;> rfl
  | invokeDynamic callSite =>
    rcases bind_eq_ok.1 written with ⟨index, found, same⟩
    rw [← pure_eq_ok.1 same, List.length_append, length_index found]
    rfl
  | newMultiArray cls dimensions =>
    rcases bind_eq_ok.1 written with ⟨index, found, same⟩
    rw [← pure_eq_ok.1 same, List.length_append, length_index found]
    rfl
  | increment slot amount =>
    rw [encodeOperands] at written
    rw [operandWidth]
    split at written
    · cases written
      rw [if_pos ‹_›]
      rfl
    · cases written
      rw [if_neg ‹_›]
      rfl
  | _ =>
    cases written
    rfl

/-- An instruction is as wide as its encoding is long. -/
theorem length_encode (written : instruction.encode = .ok bytes) :
    bytes.length = instruction.width := by
  rcases bind_eq_ok.1 written with ⟨operands, found, same⟩
  have count := length_encodeOperands found
  rw [← pure_eq_ok.1 same, width]
  split
  · next wide =>
    rw [wide, List.length_cons, List.length_cons, count]
    simp only [Bool.toNat_true]
    omega
  · next narrow =>
    rw [Bool.eq_false_iff.2 narrow, List.length_cons, count]
    simp only [Bool.toNat_false]
    omega

end Instruction

/-! ## Reading by opcode -/

namespace Operation

variable {start : Nat} {opcode : UInt8} {bytes : Bytes} {operation : Operation}

/-- The opcode is that of an instruction in one of the tables. -/
def isListed (opcode : UInt8) : Bool :=
  (Instruction.findPlain? opcode).isSome || (Instruction.ofSlotOpcode? opcode).isSome ||
    (Instruction.ofPoolOpcode? opcode).isSome

/-- The opcode is that of a branch in one of the tables. -/
def isBranching (opcode : UInt8) : Bool :=
  (Branch.ofOpcode? opcode).isSome || (Branch.ofShortOpcode? opcode).isSome ||
    (Branch.ofWideOpcode? opcode).isSome

theorem reads_plain {found : Instruction} (known : Instruction.findPlain? opcode = some found) :
    Reads read start [opcode] (instruction found) := by
  apply Reads.position.bind_nil
  apply (Reads.u1 opcode).bind_pure
  rw [Instruction.ofOpcode_eq_findPlain, known]
  exact Reads.pure _

theorem reads_slot {access : UInt16 → Instruction} {slot : UInt16}
    (fresh : Instruction.findPlain? opcode = none)
    (known : Instruction.ofSlotOpcode? opcode = some access)
    (operand : Reads (readSlot 1) (start + 1) bytes slot) :
    Reads read start (opcode :: bytes) (instruction (access slot)) := by
  apply Reads.position.bind_nil
  apply (Reads.u1 opcode).bind
  rw [Instruction.ofOpcode_eq_findPlain, fresh, known]
  exact operand.bind_pure (Reads.pure _)

/-- The opcode is that of an instruction with a position in the constant pool. -/
def IsPooled (opcode : UInt8) (access : PoolIndex → Instruction) : Prop :=
  Instruction.findPlain? opcode = none ∧ Instruction.ofSlotOpcode? opcode = none ∧
    Instruction.ofPoolOpcode? opcode = some access

theorem reads_pool {access : PoolIndex → Instruction} {index : PoolIndex}
    (pooled : IsPooled opcode access)
    (operand : Reads Constant.readIndex (start + 1) bytes index) :
    Reads read start (opcode :: bytes) (instruction (access index)) := by
  rcases pooled with ⟨fresh, unslotted, known⟩
  apply Reads.position.bind_nil
  apply (Reads.u1 opcode).bind
  rw [Instruction.ofOpcode_eq_findPlain, fresh, unslotted, known]
  exact operand.bind_pure (Reads.pure _)

theorem reads_unlisted (unlisted : isListed opcode = false)
    (operands : Reads (readBranch start opcode) (start + 1) bytes operation) :
    Reads read start (opcode :: bytes) operation := by
  simp only [isListed, Bool.or_eq_false_iff, Option.isSome_eq_false_iff, Option.isNone_iff_eq_none]
    at unlisted
  rcases unlisted with ⟨⟨fresh, unslotted⟩, unpooled⟩
  apply Reads.position.bind_nil
  apply (Reads.u1 opcode).bind
  rw [Instruction.ofOpcode_eq_findPlain, fresh, unslotted, unpooled]
  exact operands

/-- The opcodes with operands of their own. -/
def ownOpcodes : List UInt8 :=
  [0x10, 0x11, 0x12, 0x84, 0xA9, 0xAA, 0xAB, 0xB9, 0xBA, 0xBC, 0xC4, 0xC5]

theorem own_unlisted : ∀ opcode ∈ ownOpcodes, isListed opcode = false ∧ isBranching opcode = false := by
  decide +kernel

/-- The opcodes that a local variable or a position in the constant pool follows. -/
def accessOpcodes : List UInt8 :=
  [0x13, 0x14, 0x15, 0x16, 0x17, 0x18, 0x19, 0x36, 0x37, 0x38, 0x39, 0x3A, 0xB2, 0xB3, 0xB4, 0xB5,
    0xB6, 0xB7, 0xB8, 0xBB, 0xBD, 0xC0, 0xC1]

theorem access_fresh : ∀ opcode ∈ accessOpcodes, Instruction.findPlain? opcode = none := by
  decide +kernel

/-- The opcodes of branches other than switches. -/
def branchOpcodes : List UInt8 :=
  [0x99, 0x9A, 0x9B, 0x9C, 0x9D, 0x9E, 0x9F, 0xA0, 0xA1, 0xA2, 0xA3, 0xA4, 0xA5, 0xA6, 0xA7, 0xA8,
    0xAC, 0xAD, 0xAE, 0xAF, 0xB0, 0xB1, 0xBF, 0xC6, 0xC7, 0xC8, 0xC9]

theorem branch_unlisted : ∀ opcode ∈ branchOpcodes, isListed opcode = false := by
  decide +kernel

theorem reads_own (own : opcode ∈ ownOpcodes)
    (operands : Reads (readOwn start opcode) (start + 1) bytes operation) :
    Reads read start (opcode :: bytes) operation := by
  rcases own_unlisted opcode own with ⟨unlisted, straight⟩
  simp only [isBranching, Bool.or_eq_false_iff, Option.isSome_eq_false_iff,
    Option.isNone_iff_eq_none] at straight
  rcases straight with ⟨⟨alone, short⟩, wide⟩
  apply reads_unlisted unlisted
  rw [readBranch, alone, short, wide]
  exact operands

/-! ## Operands -/

theorem reads_byteSlot {slot : UInt16} (small : slot.toNat ≤ 0xFF) :
    Reads (readSlot 1) start [slot.toUInt8] slot := by
  have read := (@Reads.byte start slot.toUInt8).map UInt16.ofNat
  have same : UInt16.ofNat slot.toUInt8.toNat = slot := by
    rw [← UInt16.toNat_inj, UInt16.toNat_ofNat', UInt16.toNat_toUInt8]
    omega
  rwa [same] at read

theorem reads_wordSlot (slot : UInt16) : Reads (readSlot 2) start (Encoding.u2 slot) slot :=
  Reads.u2 slot

theorem reads_index {index : PoolIndex} (written : Encoding.index index = .ok bytes) :
    Reads Constant.readIndex start bytes index := by
  rw [Encoding.index] at written
  split at written
  · next small => exact Except.ok.inj written ▸ Reads.word small
  · cases written

end Operation

/-! ## Instructions -/

namespace Instruction

open Operation

variable {start : Nat} {bytes : Bytes}

/-- What is written after the modifier is read as a load or store. -/
theorem reads_modified {opcode : UInt8} {access : UInt16 → Instruction}
    (known : ofSlotOpcode? opcode = some access) (slot : UInt16) :
    Reads Operation.read start (wideModifier :: opcode :: Encoding.u2 slot)
      (.instruction (access slot)) := by
  apply reads_own (by decide)
  change Reads (readModified start) (start + 1) ([opcode] ++ Encoding.u2 slot) _
  apply (Reads.u1 opcode).bind
  rw [known]
  exact (reads_wordSlot slot).bind_pure (Reads.pure _)

/-- Loads and stores have three encodings. -/
theorem reads_access {opcode : UInt8} {access : UInt16 → Instruction} {slot : UInt16}
    (fresh : findPlain? opcode = none) (known : ofSlotOpcode? opcode = some access)
    (large : ¬slot.toNat < 4) :
    Reads Operation.read start
      (if 0xFF < slot.toNat then wideModifier :: opcode :: encodeSlot slot
        else opcode :: encodeSlot slot) (.instruction (access slot)) := by
  rw [encodeSlot, if_neg large]
  split
  · next wide =>
    rw [if_neg (by omega)]
    exact reads_modified known slot
  · next narrow =>
    rw [if_pos (by omega)]
    exact reads_slot fresh known (reads_byteSlot (by omega))

theorem isWide_eq_false {instruction : Instruction} (alone : instruction.operandWidth = 0) :
    instruction.isWide = false := by
  cases instruction with
  | load kind slot | store kind slot =>
    rw [isWide, decide_eq_false_iff_not]
    intro wide
    rw [operandWidth, if_neg (by omega)] at alone
    split at alone <;> cases alone
  | increment slot amount =>
    rw [operandWidth] at alone
    split at alone <;> cases alone
  | _ => rfl

theorem reads_alone {instruction : Instruction} (alone : instruction.operandWidth = 0)
    (written : instruction.encode = .ok bytes) :
    Reads Operation.read start bytes (.instruction instruction) := by
  rcases bind_eq_ok.1 written with ⟨operands, found, same⟩
  have none : operands = [] := by
    rw [← List.length_eq_zero_iff, length_encodeOperands found, alone]
  rw [isWide_eq_false alone, none] at same
  cases pure_eq_ok.1 same
  exact reads_plain (findPlain_opcode alone)

theorem pooled_accessField (access : FieldAccess) :
    IsPooled (.ofNat (0xB2 + access.code)) (accessField access) := by
  cases access <;> exact ⟨access_fresh _ (by decide), rfl, rfl⟩

theorem pooled_withClass (op : ClassOp) : IsPooled op.opcode (withClass op) := by
  cases op <;> exact ⟨access_fresh _ (by decide), rfl, rfl⟩

theorem pooled_invoke {mode : InvokeMode} (bare : mode.trailer = []) :
    IsPooled mode.opcode (invoke mode) := by
  cases mode with
  | interface count => cases bare
  | _ => exact ⟨access_fresh _ (by decide), rfl, rfl⟩

/-- The amount of an increment takes a byte if the local variable does. -/
theorem reads_increment {slot : UInt16} {amount : Int16} {operands : Bytes}
    (found : (increment slot amount).encodeOperands = .ok operands) :
    Reads Operation.read start
      (if (increment slot amount).isWide then wideModifier :: 0x84 :: operands
        else 0x84 :: operands) (.instruction (increment slot amount)) := by
  rw [encodeOperands] at found
  split at found
  · next wide =>
    cases found
    rw [if_pos wide]
    apply reads_own (by decide)
    change Reads (readModified start) (start + 1)
      ([0x84] ++ (Encoding.u2 slot ++ Encoding.s2 amount)) _
    apply (Reads.u1 0x84).bind
    exact (reads_wordSlot slot).bind ((Reads.s2 amount).bind_pure (.pure _))
  · next narrow =>
    cases found
    rw [if_neg narrow]
    simp only [isWide, Bool.or_eq_true, decide_eq_true_eq, not_or] at narrow
    rcases narrow with ⟨⟨small, low⟩, high⟩
    have same : amount.toInt8.toInt16 = amount := by
      rw [← Int16.toInt_inj, Int8.toInt_toInt16, Int16.toInt_toInt8, Int.bmod_eq_of_le] <;> omega
    apply reads_own (by decide)
    change Reads readIncrement (start + 1) ([slot.toUInt8] ++ Encoding.s1 amount.toInt8) _
    have read : Reads readIncrement (start + 1) ([slot.toUInt8] ++ Encoding.s1 amount.toInt8)
        (.instruction (increment slot amount.toInt8.toInt16)) :=
      (reads_byteSlot (by omega)).bind ((Reads.s1 amount.toInt8).bind_pure (.pure _))
    rwa [same] at read

/-- An instruction is read back as it was written. -/
theorem reads_encode {instruction : Instruction} (written : instruction.encode = .ok bytes)
    (start : Nat) : Reads Operation.read start bytes (.instruction instruction) := by
  by_cases alone : instruction.operandWidth = 0
  · exact reads_alone alone written
  rcases bind_eq_ok.1 written with ⟨operands, found, same⟩
  cases pure_eq_ok.1 same
  cases instruction with
  | load kind slot =>
    cases found
    have large : ¬slot.toNat < 4 := fun small => alone (if_pos small)
    rw [opcode, if_neg large]
    simp only [isWide, decide_eq_true_eq]
    cases kind <;> exact reads_access (access_fresh _ (by decide)) rfl large
  | store kind slot =>
    cases found
    have large : ¬slot.toNat < 4 := fun small => alone (if_pos small)
    rw [opcode, if_neg large]
    simp only [isWide, decide_eq_true_eq]
    cases kind <;> exact reads_access (access_fresh _ (by decide)) rfl large
  | pushByte value =>
    cases found
    change Reads _ start (0x10 :: Encoding.s1 value) _
    exact reads_own (by decide) ((Reads.s1 value).bind_pure (.pure _))
  | pushShort value =>
    cases found
    change Reads _ start (0x11 :: Encoding.s2 value) _
    exact reads_own (by decide) ((Reads.s2 value).bind_pure (.pure _))
  | loadConstant constant =>
    simp only [encodeOperands] at found
    simp only [opcode, isWide]
    split at found
    · next small =>
      cases found
      rw [if_pos small]
      have fits : constant < BigEndian.wordCount 1 := Nat.lt_succ_of_le small
      exact reads_own (by decide) ((Reads.word fits).bind_pure (.pure _))
    · next large =>
      rw [if_neg large]
      exact reads_pool ⟨access_fresh _ (by decide), rfl, rfl⟩ (reads_index found)
  | loadWideConstant index =>
    have pooled : IsPooled 0x14 loadWideConstant := ⟨access_fresh _ (by decide), rfl, rfl⟩
    exact reads_pool pooled (reads_index found)
  | accessField access index => exact reads_pool (pooled_accessField access) (reads_index found)
  | withClass op index => exact reads_pool (pooled_withClass op) (reads_index found)
  | invoke mode method =>
    rcases bind_eq_ok.1 found with ⟨index, known, same⟩
    cases pure_eq_ok.1 same
    by_cases bare : mode.trailer = []
    · have pooled := pooled_invoke bare
      rw [bare, List.append_nil]
      exact reads_pool pooled (reads_index known)
    · cases mode with
      | interface count =>
        change Reads _ start (0xB9 :: (index ++ [count, 0])) _
        apply reads_own (by decide)
        exact (reads_index known).bind ((Reads.take [count, 0]).bind_pure (.pure _))
      | _ => exact absurd rfl bare
  | invokeDynamic callSite =>
    rcases bind_eq_ok.1 found with ⟨index, known, same⟩
    cases pure_eq_ok.1 same
    change Reads _ start (0xBA :: (index ++ [0, 0])) _
    apply reads_own (by decide)
    exact (reads_index known).bind ((Reads.take [0, 0]).bind_pure (.pure _))
  | newMultiArray cls dimensions =>
    rcases bind_eq_ok.1 found with ⟨index, known, same⟩
    cases pure_eq_ok.1 same
    change Reads _ start (0xC5 :: (index ++ [dimensions])) _
    apply reads_own (by decide)
    exact (reads_index known).bind ((Reads.u1 dimensions).bind_pure (.pure _))
  | newArray element =>
    cases found
    change Reads _ start (0xBC :: [element.arrayCode]) _
    apply reads_own (by decide)
    apply (Reads.u1 element.arrayCode).bind_pure
    rw [BaseType.ofArrayCode_arrayCode]
    exact .pure _
  | increment slot amount => exact reads_increment found
  | _ => exact absurd rfl alone

end Instruction
end ClassFile
