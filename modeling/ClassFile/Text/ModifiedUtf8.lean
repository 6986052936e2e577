import ClassFile.Bytes.BigEndian
import ClassFile.Text.Utf16

namespace ClassFile
namespace ModifiedUtf8

/-!
# Modified UTF-8

String constants hold one to three bytes for every UTF-16 code unit, so a
character written as two surrogates takes six bytes, and the unit zero takes
two.  Reading accepts any form of a unit, the needlessly long ones included,
and reports the index of the first byte that fits no form.
-/

/-- The shortest form of a code unit, where zero counts as a two byte unit. -/
def encodeUnit (unit : Nat) : Bytes :=
  if unit ≠ 0 ∧ unit < 0x80 then [UInt8.ofNat unit]
  else if unit < 0x800 then [UInt8.ofNat (0xC0 + unit / 64), UInt8.ofNat (0x80 + unit % 64)]
  else [UInt8.ofNat (0xE0 + unit / 4096), UInt8.ofNat (0x80 + unit / 64 % 64),
    UInt8.ofNat (0x80 + unit % 64)]

def encode (text : String) : Bytes :=
  (Utf16.encode text.toList).flatMap encodeUnit

/-- The payload of a byte of the form `10xxxxxx`. -/
def continuation? (byte : UInt8) : Option Nat :=
  if 0x80 ≤ byte.toNat ∧ byte.toNat < 0xC0 then some (byte.toNat - 0x80) else none

/-- Read units onto those already read.  The failure is the index of the byte
at fault, which may be one past the end. -/
def decodeOnto (position : Nat) (units : Array Nat) : Bytes → Except Nat (Array Nat)
  | [] => .ok units
  | first :: rest =>
    let lead := first.toNat
    if lead ≠ 0 ∧ lead < 0x80 then decodeOnto (position + 1) (units.push lead) rest
    else if 0xC0 ≤ lead ∧ lead < 0xE0 then
      match rest with
      | [] => .error (position + 1)
      | second :: rest =>
        match continuation? second with
        | none => .error (position + 1)
        | some low => decodeOnto (position + 2) (units.push ((lead - 0xC0) * 64 + low)) rest
    else if 0xE0 ≤ lead ∧ lead < 0xF0 then
      match rest with
      | [] => .error (position + 1)
      | [second] =>
        .error (if (continuation? second).isSome then position + 2 else position + 1)
      | second :: third :: rest =>
        match continuation? second, continuation? third with
        | none, _ => .error (position + 1)
        | some _, none => .error (position + 2)
        | some middle, some low =>
          decodeOnto (position + 3) (units.push ((lead - 0xE0) * 4096 + middle * 64 + low)) rest
    else .error position

/-- The text of a run of bytes, or the index of the byte that spoils it. -/
def decode (bytes : Bytes) : Except Nat String := do
  let units ← decodeOnto 0 #[] bytes
  return String.ofList (Utf16.decode units.toList)

end ModifiedUtf8
end ClassFile
