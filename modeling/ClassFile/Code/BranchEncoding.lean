import ClassFile.Code.InstructionEncoding

namespace ClassFile

/-!
# The encoding of branches

Targets are written relative to the branch, in 16 bits or in 32.  The operands
of a switch follow zero bytes of padding.  Falling into the next block and
stopping at the end write nothing.
-/

namespace Comparison

def code : Comparison → Nat
  | eq => 0
  | ne => 1
  | lt => 2
  | ge => 3
  | gt => 4
  | le => 5

end Comparison

namespace Equality

def code : Equality → Nat
  | eq => 0
  | ne => 1

end Equality

namespace Condition

def opcode : Condition → UInt8
  | zero comparison => .ofNat (0x99 + comparison.code)
  | ints comparison => .ofNat (0x9F + comparison.code)
  | references equality => .ofNat (0xA5 + equality.code)
  | null equality => .ofNat (0xC6 + equality.code)

end Condition

namespace Branch

variable {σ ω ν : Type}

/-- The opcode, which is missing where nothing is written. -/
def opcode? : Branch σ ω ν → Option UInt8
  | conditional condition _ _ => some condition.opcode
  | goto _ => some 0xA7
  | jsr .. => some 0xA8
  | ret _ => some 0xA9
  | tableSwitch .. => some 0xAA
  | lookupSwitch .. => some 0xAB
  | returns (some kind) => some (.ofNat (0xAC + kind.code))
  | returns none => some 0xB1
  | throws => some 0xBF
  | gotoWide _ => some 0xC8
  | jsrWide .. => some 0xC9
  | fallThrough _ | stop => none

/-- The last of `count` consecutive keys, where the key after it and the last
key itself must both be 32 bit numbers. -/
def lastKey (low : Int32) (count : Nat) : Except Fault Int32 :=
  let past := low.toInt + count
  if -2147483648 < past ∧ past < 2147483648 then .ok (Int32.ofInt (past - 1)) else .error .overflow

def encodeOperands : Branch Int16 Int32 Unit → Except Fault Bytes
  | conditional _ offset _ | goto offset | jsr offset _ => .ok (Encoding.s2 offset)
  | gotoWide offset | jsrWide offset _ => .ok (Encoding.s4 offset)
  | ret slot => .ok (if slot.toNat ≤ 0xFF then [slot.toUInt8] else Encoding.u2 slot)
  | tableSwitch padding otherwise low targets => do
    let high ← lastKey low targets.length
    return List.replicate padding 0 ++ Encoding.s4 otherwise ++ Encoding.s4 low ++
      Encoding.s4 high ++ targets.flatMap Encoding.s4
  | lookupSwitch padding otherwise targets =>
    .ok (List.replicate padding 0 ++ Encoding.s4 otherwise ++
      BigEndian.encode 4 targets.length ++
      targets.flatMap fun pair => Encoding.s4 pair.1 ++ Encoding.s4 pair.2)
  | returns _ | throws | fallThrough _ | stop => .ok []

/-- The opcode, after a `wide` modifier where the branch has one. -/
def encodeOpcode (branch : Branch σ ω ν) : Bytes :=
  match branch, branch.opcode? with
  | ret slot, some opcode =>
    if slot.toNat ≤ 0xFF then [opcode] else [Instruction.wideModifier, opcode]
  | _, some opcode => [opcode]
  | _, none => []

def encode (branch : Branch Int16 Int32 Unit) : Except Fault Bytes :=
  return branch.encodeOpcode ++ (← branch.encodeOperands)

end Branch
end ClassFile
