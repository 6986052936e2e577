import ClassFile.Proofs.Success
import ClassFile.Text.ModifiedUtf8

namespace ClassFile

/-!
# Texts read back

A text is the same after it was written in UTF-16 code units, and these in bytes.
No character is a surrogate, so two units are taken together only where one
character was written as both.
-/

namespace Utf16

theorem toNat_lt (c : Char) : c.toNat < 0x110000 ∧ ¬(0xD800 ≤ c.toNat ∧ c.toNat < 0xE000) := by
  have valid : c.toNat < 0xd800 ∨ 0xdfff < c.toNat ∧ c.toNat < 0x110000 := c.valid
  omega

theorem isHigh_iff {unit : Nat} : isHigh unit = true ↔ 0xD800 ≤ unit ∧ unit < 0xDC00 := by
  rw [isHigh, Bool.and_eq_true, decide_eq_true_iff, decide_eq_true_iff]

theorem isLow_iff {unit : Nat} : isLow unit = true ↔ 0xDC00 ≤ unit ∧ unit < 0xE000 := by
  rw [isLow, Bool.and_eq_true, decide_eq_true_iff, decide_eq_true_iff]

theorem single_toNat (c : Char) : single c.toNat = c := by
  have plain := toNat_lt c
  have neither : (isHigh c.toNat || isLow c.toNat) = false := by
    rw [Bool.or_eq_false_iff, ← Bool.not_eq_true, ← Bool.not_eq_true, isHigh_iff, isLow_iff]
    omega
  rw [single, neither, if_neg Bool.false_ne_true, Char.ofNat_toNat]

theorem decodeOnto_encodeChar (read : Array Char) (c : Char) (rest : List Nat) :
    decodeOnto read (encodeChar c ++ rest) = decodeOnto (read.push c) rest := by
  have plain := toNat_lt c
  rw [encodeChar]
  split
  · have low : ¬isHigh c.toNat = true := by
      rw [isHigh_iff]
      omega
    cases rest with
    | nil =>
      change read.push (single c.toNat) = read.push c
      rw [single_toNat]
    | cons next rest =>
      rw [List.singleton_append, decodeOnto, if_neg (by simp [low]), single_toNat]
  · next beyond =>
    have first : isHigh (0xD800 + (c.toNat - 0x10000) / 0x400) = true := by
      rw [isHigh_iff]
      omega
    have second : isLow (0xDC00 + (c.toNat - 0x10000) % 0x400) = true := by
      rw [isLow_iff]
      omega
    have whole : pair (0xD800 + (c.toNat - 0x10000) / 0x400) (0xDC00 + (c.toNat - 0x10000) % 0x400) =
        c := by
      rw [pair, Nat.add_sub_cancel_left, Nat.add_sub_cancel_left]
      have sum : 0x10000 + (c.toNat - 0x10000) / 0x400 * 0x400 + (c.toNat - 0x10000) % 0x400 =
          c.toNat := by omega
      rw [sum, Char.ofNat_toNat]
    rw [List.cons_append, List.singleton_append, decodeOnto, first, second, Bool.and_self, if_pos rfl,
      whole]

theorem decode_encode (chars : List Char) : decode (encode chars) = chars := by
  have onto : ∀ read : Array Char,
      decodeOnto read (encode chars) = read ++ chars.toArray := by
    induction chars with
    | nil =>
      intro read
      rw [encode, List.flatMap_nil, decodeOnto, Array.append_empty]
    | cons c chars ih =>
      intro read
      rw [encode, List.flatMap_cons, decodeOnto_encodeChar, ← List.push_append_toArray]
      exact ih (read.push c)
  rw [decode, onto, Array.empty_append, List.toList_toArray]

theorem lt_of_mem_encode {chars : List Char} {unit : Nat} (member : unit ∈ encode chars) :
    unit < 0x10000 := by
  rcases List.mem_flatMap.mp member with ⟨c, -, here⟩
  have plain := toNat_lt c
  rw [encodeChar] at here
  split at here
  · rw [List.mem_singleton] at here
    omega
  · rw [List.mem_cons, List.mem_singleton] at here
    omega

end Utf16

namespace ModifiedUtf8

theorem toNat_ofNat {number : Nat} (small : number < 256) : (UInt8.ofNat number).toNat = number :=
  UInt8.toNat_ofNat_of_lt' small

theorem continuation_ofNat {payload : Nat} (small : payload < 64) :
    continuation? (.ofNat (0x80 + payload)) = some payload := by
  rw [continuation?, toNat_ofNat (by omega), if_pos (by omega), Nat.add_sub_cancel_left]

theorem decodeOnto_encodeUnit {unit : Nat} (small : unit < 0x10000) (position : Nat)
    (units : Array Nat) (rest : Bytes) :
    ∃ next, decodeOnto position units (encodeUnit unit ++ rest) =
      decodeOnto next (units.push unit) rest := by
  rw [encodeUnit]
  split
  · next short =>
    refine ⟨position + 1, ?_⟩
    rw [List.singleton_append, decodeOnto.eq_def]
    simp only [toNat_ofNat (show unit < 256 by omega)]
    exact if_pos short
  · next notShort =>
    split
    · refine ⟨position + 2, ?_⟩
      rw [List.cons_append, List.singleton_append, decodeOnto.eq_def]
      simp only [toNat_ofNat (show 0xC0 + unit / 64 < 256 by omega),
        continuation_ofNat (Nat.mod_lt unit (show 64 > 0 by decide))]
      rw [if_neg (by omega), if_pos (by omega), Nat.add_sub_cancel_left, Nat.div_add_mod']
    · refine ⟨position + 3, ?_⟩
      rw [List.cons_append, List.cons_append, List.singleton_append, decodeOnto.eq_def]
      simp only [toNat_ofNat (show 0xE0 + unit / 4096 < 256 by omega),
        continuation_ofNat (Nat.mod_lt _ (show 64 > 0 by decide))]
      have whole : unit / 4096 * 4096 + unit / 64 % 64 * 64 + unit % 64 = unit := by omega
      rw [if_neg (by omega), if_neg (by omega), if_pos (by omega), Nat.add_sub_cancel_left, whole]

theorem decodeOnto_encode {list : List Nat} (small : ∀ unit ∈ list, unit < 0x10000)
    (position : Nat) (units : Array Nat) :
    decodeOnto position units (list.flatMap encodeUnit) = .ok (units ++ list.toArray) := by
  induction list generalizing position units with
  | nil =>
    rw [List.flatMap_nil, decodeOnto, Array.append_empty]
  | cons unit list ih =>
    rw [List.forall_mem_cons] at small
    rcases decodeOnto_encodeUnit small.1 position units (list.flatMap encodeUnit) with ⟨next, same⟩
    rw [List.flatMap_cons, same, ih small.2, List.push_append_toArray]

/-- A text that was written is read back. -/
theorem decode_encode (text : String) : decode (encode text) = .ok text := by
  have units := decodeOnto_encode (fun _ => @Utf16.lt_of_mem_encode text.toList _) 0 #[]
  refine bind_eq_ok.mpr ⟨_, units, pure_eq_ok.mpr ?_⟩
  rw [Array.empty_append, List.toList_toArray, Utf16.decode_encode, String.ofList_toList]

end ModifiedUtf8
end ClassFile
