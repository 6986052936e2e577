namespace ClassFile

/-!
# Big-endian words

Every number of a class file is written most significant byte first, in a
fixed number of bytes.  `BigEndian.encode` writes the lowest bytes of a natural
number and `BigEndian.decode` reads any run of bytes back.  Reading what was
written gives the number modulo the number of words: `decode_encode`.
-/

abbrev Bytes := List UInt8

namespace BigEndian

/-- The lowest `width` bytes of a number, most significant first. -/
def encode : (width number : Nat) → Bytes
  | 0, _ => []
  | width + 1, number => encode width (number / 256) ++ [UInt8.ofNat number]

def decode (bytes : Bytes) : Nat :=
  bytes.foldl (fun number byte => number * 256 + byte.toNat) 0

@[simp] theorem length_encode (width number : Nat) :
    (encode width number).length = width := by
  induction width generalizing number with
  | zero => rfl
  | succ width ih => simp only [encode, List.length_append, ih, List.length_singleton]

/-- The number of words of a width. -/
def wordCount : (width : Nat) → Nat
  | 0 => 1
  | width + 1 => 256 * wordCount width

theorem decode_append_singleton (bytes : Bytes) (byte : UInt8) :
    decode (bytes ++ [byte]) = decode bytes * 256 + byte.toNat := by
  simp only [decode, List.foldl_append, List.foldl_cons, List.foldl_nil]

/-- Writing keeps the number modulo the number of words. -/
theorem decode_encode (width number : Nat) :
    decode (encode width number) = number % wordCount width := by
  induction width generalizing number with
  | zero => exact (Nat.mod_one number).symm
  | succ width ih =>
    rw [encode, decode_append_singleton, ih, UInt8.toNat_ofNat', wordCount, Nat.mod_mul]
    omega

theorem decode_encode_of_lt {width number : Nat} (small : number < wordCount width) :
    decode (encode width number) = number := by
  rw [decode_encode, Nat.mod_eq_of_lt small]

end BigEndian
end ClassFile
