import ClassFile.Proofs.Code.Operands

namespace ClassFile

/-!
# Keys of switches by position

A table is written with its first and its last key.  The last key is computed as the one
before the key that would come next, so it is never the largest number of 32 bits.  A
table with that key can be read all the same, and is the only one that is read and
cannot be written.
-/

namespace Branch

variable {low : Int32} {count : Nat}

theorem exists_lastKey (some_ : 0 < count) (inside : low.toInt + count < 2147483648) :
    ∃ high, lastKey low count = .ok high ∧ high.toInt = low.toInt + count - 1 := by
  have least := low.le_toInt
  have bounds : -2147483648 < low.toInt + count ∧ low.toInt + count < 2147483648 := by omega
  have last : lastKey low count = .ok (Int32.ofInt (low.toInt + count - 1)) := by
    rw [lastKey, if_pos bounds]
  exact ⟨_, last, lastKey_eq last⟩

/-- The key after the largest number is out of reach, and so is that number. -/
theorem lastKey_of_past (past : low.toInt + count = 2147483648) :
    lastKey low count = .error .overflow := by
  rw [lastKey, if_neg]
  omega

/-- A table is written with its first and its last key. -/
theorem encode_tableSwitch (padding : Nat) (otherwise : Int32) {distances : List Int32}
    (some_ : 0 < distances.length) (inside : low.toInt + distances.length < 2147483648) :
    ∃ high : Int32, high.toInt = low.toInt + distances.length - 1 ∧
      (tableSwitch padding otherwise low distances).encode =
        .ok (0xAA :: (List.replicate padding 0 ++ Encoding.s4 otherwise ++ Encoding.s4 low ++
          Encoding.s4 high ++ distances.flatMap Encoding.s4)) := by
  rcases exists_lastKey some_ inside with ⟨high, last, key⟩
  refine ⟨high, key, ?_⟩
  rw [encode, encodeOperands, last]
  rfl

/-- A table whose last key is the largest number is not written. -/
theorem encode_tableSwitch_of_past (padding : Nat) (otherwise : Int32) {distances : List Int32}
    (past : low.toInt + distances.length = 2147483648) :
    (tableSwitch padding otherwise low distances).encode = .error .overflow := by
  rw [encode, encodeOperands, lastKey_of_past past]
  rfl

end Branch

namespace Operation

variable {code : Bytes} {operations : List (Nat × Operation)} {place padding otherwise : Nat}
  {low : Int32} {targets : List Nat}

/-- A table that was read has a target, and all of its keys are numbers of 32 bits. -/
theorem keys_fit_of_decode (run : decode code = .ok operations)
    (member : (place, branch (.tableSwitch padding otherwise low targets)) ∈ operations) :
    0 < targets.length ∧ low.toInt + targets.length ≤ 2147483648 := by
  rcases (cut_decode run).readFrom _ member with ⟨bytes, read⟩
  cases read with
  | plain _ _ isPlain => exact (isPlain trivial).elim
  | @table _ _ _ high _ _ _ _ ordered counted _ _ =>
    have greatest := high.toInt_lt
    omega

/-- What was read is written again, unless its last key is the largest number. -/
theorem encode_eq_overflow_iff (run : decode code = .ok operations)
    (member : (place, branch (.tableSwitch padding otherwise low targets)) ∈ operations)
    {distances : List Int32} (same : distances.length = targets.length) (zeros : Nat)
    (default_ : Int32) :
    (Branch.tableSwitch zeros default_ low distances).encode = .error .overflow ↔
      low.toInt + targets.length = 2147483648 := by
  rcases keys_fit_of_decode run member with ⟨some_, fits⟩
  rw [← same] at some_ fits ⊢
  constructor
  · intro failed
    by_contra past
    have inside : low.toInt + distances.length < 2147483648 := by omega
    rcases Branch.encode_tableSwitch zeros default_ some_ inside with ⟨high, -, written⟩
    rw [written] at failed
    cases failed
  · exact Branch.encode_tableSwitch_of_past zeros default_

example : decode [0xAA, 0, 0, 0, 0, 0, 0, 20, 0x7F, 0xFF, 0xFF, 0xFF, 0x7F, 0xFF, 0xFF, 0xFF,
      0, 0, 0, 20, 0xB1] =
    .ok [(0, .branch (.tableSwitch 3 20 2147483647 [20])), (20, .branch (.returns none))] := by
  decide +kernel

example : (Branch.tableSwitch 3 20 2147483647 [20]).encode = .error .overflow := by
  decide

end Operation
end ClassFile
