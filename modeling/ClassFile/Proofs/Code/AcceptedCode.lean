import ClassFile.Proofs.Code.SwitchKeys
import ClassFile.Proofs.Code.Tiles

namespace ClassFile

/-!
# Code that is decoded

An operation is read from its own bytes, whatever comes after them.  So code is decoded
exactly if it can be cut into pieces that are each read as an operation, and there is only
one such cut: no operand is ever taken for an operation.

A switch has as many targets as its operands announce, unless they announce fewer than
none.  A table that does is refused.  A search that does is read as one without targets.
-/

namespace Operation

variable {start : Nat} {code : Bytes} {operations : List (Nat × Operation)}

/-! ## Operations from their own bytes -/

open Reader (Uniform)

theorem uniform_target (start : Nat) (distance : Int) : Uniform (target start distance) := by
  unfold target
  dsimp only
  split
  · exact .pure _
  · exact .fail _

theorem uniform_shortTarget (start : Nat) : Uniform (shortTarget start) :=
  Uniform.s2.bind fun distance => uniform_target start distance.toInt

theorem uniform_wideTarget (start : Nat) : Uniform (wideTarget start) :=
  Uniform.s4.bind fun distance => uniform_target start distance.toInt

theorem uniform_readSlot (width : Nat) : Uniform (readSlot width) :=
  (Uniform.word width).map _

theorem uniform_readIndex : Uniform Constant.readIndex :=
  Uniform.word 2

theorem uniform_readPadding (start : Nat) : Uniform (readPadding start) :=
  (Uniform.take _).map _

theorem uniform_readTableSwitch (start : Nat) : Uniform (readTableSwitch start) := by
  refine (uniform_readPadding start).bind fun padding => ?_
  refine (uniform_wideTarget start).bind fun otherwise => ?_
  refine Uniform.s4.bind fun low => Uniform.s4.bind fun high => ?_
  dsimp only
  split
  · exact (Uniform.fail _).bind fun _ =>
      ((uniform_wideTarget start).many _).bind fun targets => .pure _
  · exact ((uniform_wideTarget start).many _).bind fun targets => .pure _

theorem uniform_readLookupSwitch (start : Nat) : Uniform (readLookupSwitch start) := by
  refine (uniform_readPadding start).bind fun padding => ?_
  refine (uniform_wideTarget start).bind fun otherwise => ?_
  refine Uniform.s4.bind fun count => Uniform.bind ?_ fun pairs => .pure _
  exact Uniform.many (Uniform.s4.bind fun key =>
    (uniform_wideTarget start).bind fun target => .pure _) _

theorem uniform_readModified (start : Nat) : Uniform (readModified start) := by
  refine Uniform.u1.bind fun opcode => ?_
  split
  · exact (uniform_readSlot 2).bind fun slot => .pure _
  · split
    · exact (uniform_readSlot 2).bind fun slot => Uniform.s2.bind fun amount => .pure _
    · split
      · exact (uniform_readSlot 2).bind fun slot => .pure _
      · exact .fail _

theorem uniform_readNewArray : Uniform readNewArray := by
  refine Uniform.u1.bind fun code => ?_
  split
  · exact .pure _
  · exact .fail _

theorem uniform_readOwn (start : Nat) (opcode : UInt8) : Uniform (readOwn start opcode) := by
  unfold readOwn
  split
  · exact Uniform.s1.bind fun value => .pure _
  · exact Uniform.s2.bind fun value => .pure _
  · exact (Uniform.word 1).bind fun constant => .pure _
  · exact (uniform_readSlot 1).bind fun slot => Uniform.s1.bind fun amount => .pure _
  · exact (uniform_readSlot 1).bind fun slot => .pure _
  · exact uniform_readTableSwitch start
  · exact uniform_readLookupSwitch start
  · exact uniform_readIndex.bind fun method => (Uniform.take 2).bind fun trailer => .pure _
  · exact uniform_readIndex.bind fun callSite => (Uniform.take 2).bind fun trailer => .pure _
  · exact uniform_readNewArray
  · exact uniform_readModified start
  · exact uniform_readIndex.bind fun cls => Uniform.u1.bind fun dimensions => .pure _
  · exact .fail _

theorem uniform_readBranch (start : Nat) (opcode : UInt8) :
    Uniform (readBranch start opcode) := by
  unfold readBranch
  split
  · exact .pure _
  · exact (uniform_shortTarget start).bind fun target => .pure _
  · exact (uniform_wideTarget start).bind fun target => .pure _
  · exact uniform_readOwn start opcode

/-- What was read at a position is read there whatever comes after its bytes. -/
theorem reads_of_run {cursor after : Cursor} {operation : Operation}
    (run : read.run cursor = .ok (operation, after)) :
    ∃ bytes, cursor.rest = bytes ++ after.rest ∧
      after.position = cursor.position + bytes.length ∧
      Reads read cursor.position bytes operation := by
  refine Uniform.of_position (fun start => Uniform.u1.bind fun opcode => ?_) run
  split
  · exact .pure _
  · split
    · exact (uniform_readSlot 1).bind fun slot => .pure _
    · exact uniform_readIndex.bind fun constant => .pure _
    · exact uniform_readBranch start opcode

/-! ## Code as its operations -/

/-- Decoded code is cut into the pieces that its operations are read from. -/
theorem tiles_decode (run : decode code = .ok operations) : Tiles 0 code operations := by
  refine decode_induction .nil (fun here tiles => ?_) run
  rcases reads_of_run here with ⟨bytes, whole, moved, reads⟩
  rcases takes_read here with ⟨same, whole', -, -, read⟩
  have some_ : bytes ≠ [] := by
    rw [List.append_cancel_right (whole.symm.trans whole')]
    exact read.ne_nil
  rw [moved] at tiles
  rw [whole]
  exact .cons some_ reads tiles

/-- Code is decoded exactly if it can be cut into operations. -/
theorem decode_eq_ok_iff : decode code = .ok operations ↔ Tiles 0 code operations :=
  ⟨tiles_decode, Tiles.decode_eq⟩

/-- Code can be cut into operations in one way only. -/
theorem Tiles.unique {others : List (Nat × Operation)} (tiles : Tiles 0 code operations)
    (tiles' : Tiles 0 code others) : operations = others :=
  Except.ok.inj (tiles.decode_eq.symm.trans tiles'.decode_eq)

/-- A decoded operation stands at its offset, in bytes that it was read from. -/
theorem Cut.exists_piece {place : Nat} {operation : Operation} (cut : Cut start code operations)
    (member : (place, operation) ∈ operations) :
    ∃ before piece after, code = before ++ (piece ++ after) ∧ place = start + before.length ∧
      ReadFrom place piece operation := by
  induction cut with
  | nil => cases member
  | @cons start piece rest _ _ here _ ih =>
    rcases List.mem_cons.1 member with first | later
    · cases first
      exact ⟨[], piece, rest, rfl, rfl, here⟩
    · rcases ih later with ⟨before, other, after, rfl, rfl, read⟩
      refine ⟨piece ++ before, other, after, (List.append_assoc ..).symm, ?_, read⟩
      rw [List.length_append, Nat.add_assoc]

/-! ## Announced targets -/

/-- The number with a sign in four bytes of the code. -/
def wordAt (code : Bytes) (place : Nat) : Int32 :=
  (UInt32.ofNat (BigEndian.decode ((code.drop place).take 4))).toInt32

/-- Where the operands of a switch start, behind its opcode and the padding. -/
def operandsAt (start : Nat) : Nat :=
  start + 1 + Branch.paddingAt start

/-- The number of targets that a switch announces, its default aside: one for each key from
the first to the last, or one for each pair. -/
def announced (code : Bytes) (start : Nat) : Operation → Int
  | branch (.tableSwitch ..) =>
    (wordAt code (operandsAt start + 8)).toInt - (wordAt code (operandsAt start + 4)).toInt + 1
  | branch (.lookupSwitch ..) => (wordAt code (operandsAt start + 4)).toInt
  | _ => 0

/-- Operands of switches are aligned. -/
theorem operandsAt_mod (start : Nat) : operandsAt start % 4 = 0 := by
  rw [operandsAt, Branch.paddingAt]
  omega

theorem wordAt_first (value : Int32) (back : Bytes) :
    wordAt (Encoding.s4 value ++ back) 0 = value := by
  rw [wordAt, List.drop_zero, List.take_left' (Branch.length_s4 value), Encoding.s4, Encoding.u4,
    BigEndian.decode_encode_of_lt value.toUInt32.toNat_lt, UInt32.ofNat_toNat]
  rfl

theorem wordAt_behind (value : Int32) (back : Bytes) (place : Nat) :
    wordAt (Encoding.s4 value ++ back) (place + 4) = wordAt back place := by
  rw [wordAt, Nat.add_comm, ← List.drop_drop, List.drop_left' (Branch.length_s4 value), wordAt]

/-- Words behind the opcode of a switch and its padding are those of its operands. -/
theorem wordAt_operands {before padding : Bytes}
    (aligned : padding.length = Branch.paddingAt before.length) (opcode : UInt8)
    (operands : Bytes) (place : Nat) :
    wordAt (before ++ (opcode :: (padding ++ operands))) (operandsAt before.length + place) =
      wordAt operands place := by
  have distance : operandsAt before.length = before.length + (padding.length + 1) := by
    rw [operandsAt, aligned]
    omega
  have reached : (before ++ (opcode :: (padding ++ operands))).drop (operandsAt before.length) =
      operands := by
    rw [distance, ← List.drop_drop, List.drop_left, List.drop_succ_cons, List.drop_left]
  rw [wordAt, ← List.drop_drop, reached, wordAt]

/-- The targets of a switch are counted by its operands. -/
theorem ReadFrom.targets_length {before piece : Bytes} {operation : Operation}
    (read : ReadFrom before.length piece operation) (isSwitch : operation.IsSwitch)
    (after : Bytes) :
    operation.targets.length =
      (announced (before ++ (piece ++ after)) before.length operation).toNat + 1 := by
  cases read with
  | plain _ _ plain => exact (plain isSwitch).elim
  | @table _ otherwise low high _ _ targets aligned _ counted =>
    simp only [announced, List.cons_append, List.append_assoc, wordAt_operands aligned]
    rw [wordAt_behind otherwise _ 4, wordAt_behind low _ 0, wordAt_first,
      wordAt_behind otherwise _ 0, wordAt_first, ← counted]
    rfl
  | @search _ otherwise count _ _ pairs aligned counted =>
    simp only [announced, List.cons_append, List.append_assoc, wordAt_operands aligned]
    rw [wordAt_behind otherwise _ 0, wordAt_first, ← counted]
    exact congrArg Nat.succ (List.length_map ..)

/-- Decoded switches have as many targets as they announce, their default aside, where fewer
than none count as none. -/
theorem targets_of_decode {place : Nat} {operation : Operation}
    (run : decode code = .ok operations) (member : (place, operation) ∈ operations)
    (isSwitch : operation.IsSwitch) :
    operation.targets.length = (announced code place operation).toNat + 1 := by
  rcases (cut_decode run).exists_piece member with ⟨before, piece, after, rfl, isPlace, read⟩
  rw [Nat.zero_add] at isPlace
  subst isPlace
  exact read.targets_length isSwitch after

/-- The only decoded switches that do not have as many targets as they announce are searches
that announce fewer than none. -/
theorem announced_of_decode {place : Nat} {operation : Operation}
    (run : decode code = .ok operations) (member : (place, operation) ∈ operations)
    (isSwitch : operation.IsSwitch) :
    operation.targets.length = announced code place operation + 1 ∨
      announced code place operation < 0 ∧
        ∃ padding otherwise, operation = branch (.lookupSwitch padding otherwise []) := by
  have counted := targets_of_decode run member isSwitch
  rcases Int.lt_or_le (announced code place operation) 0 with negative | some_
  · rw [Int.toNat_of_nonpos (Int.le_of_lt negative)] at counted
    match operation, isSwitch with
    | branch (.tableSwitch padding otherwise low targets), _ =>
      have positive := (keys_fit_of_decode run member).1
      exact absurd (Nat.succ.inj counted) (Nat.pos_iff_ne_zero.1 positive)
    | branch (.lookupSwitch padding otherwise pairs), _ =>
      have none_ := List.map_eq_nil_iff.1 (List.eq_nil_of_length_eq_zero (Nat.succ.inj counted))
      subst none_
      exact .inr ⟨negative, padding, otherwise, rfl⟩
  · left
    rw [counted, Int.natCast_add, Int.toNat_of_nonneg some_]
    rfl

/-! ## Searches that announce fewer than none -/

/-- A search with a negative number of pairs. -/
def negativeSearch (start : Nat) (otherwise count : Int32) : Bytes :=
  0xAB :: (List.replicate (Branch.paddingAt start) 0 ++
    (Encoding.s4 otherwise ++ Encoding.s4 count))

variable {otherwise count : Int32} {default_ : Nat}

theorem reads_negativeSearch (leads : Branch.Leads start otherwise.toInt default_)
    (negative : count.toInt < 0) :
    Reads read start (negativeSearch start otherwise count)
      (.branch (.lookupSwitch (Branch.paddingAt start) default_ [])) := by
  apply reads_own (by decide)
  change Reads (readLookupSwitch start) _ _ _
  apply (Branch.reads_padding start _).bind
  apply (Branch.reads_wideTarget leads _).bind
  refine (Reads.s4 count).bind_pure ?_
  rw [Int.toNat_of_nonpos (Int.le_of_lt negative)]
  exact .pure _

/-- A search with a negative number of pairs is accepted wherever it stands in code. -/
theorem decode_negativeSearch {front back : Bytes} {before after : List (Nat × Operation)}
    (first : Tiles 0 front before)
    (leads : Branch.Leads front.length otherwise.toInt default_) (negative : count.toInt < 0)
    (last : Tiles (front.length + (negativeSearch front.length otherwise count).length) back
      after) :
    decode (front ++ (negativeSearch front.length otherwise count ++ back)) =
      .ok (before ++ (front.length,
        .branch (.lookupSwitch (Branch.paddingAt front.length) default_ [])) :: after) := by
  apply Tiles.decode_eq
  apply first.append
  rw [Nat.zero_add]
  exact .cons (List.cons_ne_nil _ _) (reads_negativeSearch leads negative) last

example : decode [0xAB, 0, 0, 0, 0, 0, 0, 12, 0xFF, 0xFF, 0xFF, 0xFF, 0xB1] =
    .ok [(0, .branch (.lookupSwitch 3 12 [])), (12, .branch (.returns none))] := by
  decide +kernel

end Operation
end ClassFile
