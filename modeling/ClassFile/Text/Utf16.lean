namespace ClassFile
namespace Utf16

/-!
# UTF-16 code units

A character beyond the first 65536 code points is written as a high and a low
surrogate.  Reading is total: a surrogate without its partner becomes the
replacement character U+FFFD.
-/

/-- The code units of one character. -/
def encodeChar (c : Char) : List Nat :=
  if c.toNat < 0x10000 then [c.toNat]
  else [0xD800 + (c.toNat - 0x10000) / 0x400, 0xDC00 + (c.toNat - 0x10000) % 0x400]

def encode (chars : List Char) : List Nat :=
  chars.flatMap encodeChar

def isHigh (unit : Nat) : Bool :=
  0xD800 ≤ unit && unit < 0xDC00

def isLow (unit : Nat) : Bool :=
  0xDC00 ≤ unit && unit < 0xE000

def replacement : Char := '\uFFFD'

/-- The character that a unit stands for by itself. -/
def single (unit : Nat) : Char :=
  if isHigh unit || isLow unit then replacement else Char.ofNat unit

/-- The character of a high surrogate followed by a low one. -/
def pair (high low : Nat) : Char :=
  Char.ofNat (0x10000 + (high - 0xD800) * 0x400 + (low - 0xDC00))

/-- Add the characters of a run of units to those already read. -/
def decodeOnto (read : Array Char) : List Nat → Array Char
  | [] => read
  | [unit] => read.push (single unit)
  | first :: second :: rest =>
    if isHigh first && isLow second then decodeOnto (read.push (pair first second)) rest
    else decodeOnto (read.push (single first)) (second :: rest)

def decode (units : List Nat) : List Char :=
  (decodeOnto #[] units).toList

end Utf16
end ClassFile
