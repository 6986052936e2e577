import ClassFile.Proofs.Text.Units

namespace ClassFile

/-!
# Surrogates on their own

Bytes of modified UTF-8 spell code units of 16 bits, and these may be any.  A surrogate
without its partner is no character, so a text has U+FFFD in its place.  Units that were
read as a text and are written again are therefore `mend units`, which is `units` where every
surrogate has its partner.

The units of a text are such, so a text is read back from its bytes.
-/

namespace Utf16

/-- A surrogate between two units has no partner. -/
def isLone (previous unit : Nat) (next? : Option Nat) : Bool :=
  isHigh unit && !next?.any isLow || isLow unit && !isHigh previous

/-- Units behind another one, with U+FFFD for surrogates on their own. -/
def mendAfter (previous : Nat) : List Nat → List Nat
  | [] => []
  | unit :: rest =>
    (if isLone previous unit rest.head? then 0xFFFD else unit) :: mendAfter unit rest

/-- Units with U+FFFD for every surrogate that has no partner. -/
def mend (units : List Nat) : List Nat :=
  mendAfter 0 units

/-- Somewhere among units is a surrogate without its partner: a high one that no low one
follows, or a low one that no high one precedes. -/
def Unpaired (units : List Nat) : Prop :=
  ∃ front unit back, units = front ++ unit :: back ∧
    (isHigh unit = true ∧ (∀ next, back.head? = some next → isLow next = false) ∨
      isLow unit = true ∧ ∀ previous, front.getLast? = some previous → isHigh previous = false)

theorem not_isLow_of_isHigh {unit : Nat} (high : isHigh unit = true) : isLow unit = false := by
  rw [isHigh_iff] at high
  rw [← Bool.not_eq_true, isLow_iff]
  omega

theorem isLone_iff {previous unit : Nat} {next? : Option Nat} :
    isLone previous unit next? = true ↔
      isHigh unit = true ∧ (∀ next, next? = some next → isLow next = false) ∨
        isLow unit = true ∧ isHigh previous = false := by
  rw [isLone, Bool.or_eq_true, Bool.and_eq_true, Bool.and_eq_true, Bool.not_eq_true',
    Bool.not_eq_true']
  cases next? with
  | none => simp
  | some next => simp

/-- A unit that is mended is none of those that stand for themselves. -/
theorem isLone_ne {previous unit : Nat} {next? : Option Nat}
    (lone : isLone previous unit next? = true) : unit ≠ 0xFFFD := by
  rw [isLone_iff, isHigh_iff, isLow_iff] at lone
  omega

theorem mendAfter_eq_iff {previous : Nat} {units : List Nat} :
    mendAfter previous units = units ↔ ∀ front unit back, units = front ++ unit :: back →
      isLone (front.getLast?.getD previous) unit back.head? = false := by
  induction units generalizing previous with
  | nil => simp [mendAfter]
  | cons unit units ih =>
    rw [mendAfter, List.cons.injEq, ih]
    constructor
    · rintro ⟨here, later⟩ front other back whole
      cases front with
      | nil =>
        cases whole
        rw [List.getLast?_nil, Option.getD_none, ← Bool.not_eq_true]
        intro lone
        rw [if_pos lone] at here
        exact isLone_ne lone here.symm
      | cons first front =>
        cases whole
        have there := later front other back rfl
        rw [List.getLast?_cons, Option.getD_some]
        exact there
    · intro paired
      constructor
      · rw [if_neg]
        rw [Bool.not_eq_true]
        exact paired [] unit units rfl
      · intro front other back whole
        have there := paired (unit :: front) other back (by rw [whole]; rfl)
        rw [List.getLast?_cons, Option.getD_some] at there
        exact there

/-- Mending changes nothing where all surrogates have partners. -/
theorem mend_eq_iff {units : List Nat} : mend units = units ↔ ¬ Unpaired units := by
  rw [mend, mendAfter_eq_iff]
  constructor
  · rintro paired ⟨front, unit, back, whole, lone⟩
    have here := paired front unit back whole
    rw [← Bool.not_eq_true, isLone_iff] at here
    apply here
    cases lone with
    | inl high => exact .inl high
    | inr low =>
      refine .inr ⟨low.1, ?_⟩
      cases last : front.getLast? with
      | none => rfl
      | some previous => exact low.2 previous last
  · intro paired front unit back whole
    rw [← Bool.not_eq_true, isLone_iff]
    intro lone
    refine paired ⟨front, unit, back, whole, ?_⟩
    cases lone with
    | inl high => exact .inl high
    | inr low =>
      refine .inr ⟨low.1, fun previous last => ?_⟩
      rw [last] at low
      exact low.2

theorem mendAfter_lt {previous : Nat} {units : List Nat} (small : ∀ unit ∈ units, unit < 0x10000) :
    ∀ unit ∈ mendAfter previous units, unit < 0x10000 := by
  induction units generalizing previous with
  | nil => simp [mendAfter]
  | cons unit units ih =>
    rw [List.forall_mem_cons] at small
    rw [mendAfter, List.forall_mem_cons]
    refine ⟨?_, ih small.2⟩
    split
    · decide
    · exact small.1

/-! ## Read and written again -/

theorem toNat_ofNat {number : Nat} (valid : number.isValidChar) : (Char.ofNat number).toNat = number := by
  rw [Char.ofNat, dif_pos valid]
  rfl

/-- The character of two surrogates is written as these. -/
theorem encodeChar_pair {high low : Nat} (first : isHigh high = true) (second : isLow low = true) :
    encodeChar (pair high low) = [high, low] := by
  rw [isHigh_iff] at first
  rw [isLow_iff] at second
  rw [encodeChar, pair, toNat_ofNat (.inr (by omega)), if_neg (by omega)]
  have front : 0xD800 + (0x10000 + (high - 0xD800) * 0x400 + (low - 0xDC00) - 0x10000) / 0x400 =
      high := by omega
  have back : 0xDC00 + (0x10000 + (high - 0xD800) * 0x400 + (low - 0xDC00) - 0x10000) % 0x400 =
      low := by omega
  rw [front, back]

theorem encodeChar_single {unit : Nat} (small : unit < 0x10000) :
    encodeChar (single unit) = [if isHigh unit || isLow unit then 0xFFFD else unit] := by
  rw [single]
  split
  · rfl
  · next plain =>
    rw [Bool.or_eq_true, isHigh_iff, isLow_iff] at plain
    have valid : unit.isValidChar := by
      unfold Nat.isValidChar
      omega
    rw [encodeChar, toNat_ofNat valid, if_pos small]

theorem encode_push (read : Array Char) (c : Char) :
    encode (read.push c).toList = encode read.toList ++ encodeChar c := by
  rw [Array.toList_push, encode, List.flatMap_append, List.flatMap_singleton, encode]

/-- A surrogate that is not read together with another one has no partner. -/
theorem isLone_eq {previous unit : Nat} {next? : Option Nat}
    (before : isHigh previous = true → isLow unit = false)
    (behind : isHigh unit = true → next?.any isLow = false) :
    isLone previous unit next? = (isHigh unit || isLow unit) := by
  rw [isLone]
  cases high : isHigh unit with
  | true =>
    rw [behind high, not_isLow_of_isHigh high]
    rfl
  | false =>
    cases low : isLow unit with
    | false => rfl
    | true =>
      have apart : isHigh previous = false := by
        rw [← Bool.not_eq_true]
        intro early
        cases low.symm.trans (before early)
      rw [apart]
      rfl

/-- What is read of units behind another one.  A high surrogate before them is one that no low
surrogate follows, as it would have been read together with it. -/
theorem encode_decodeOnto {units : List Nat} (small : ∀ unit ∈ units, unit < 0x10000)
    (read : Array Char) {previous : Nat}
    (apart : isHigh previous = true → ∀ next, units.head? = some next → isLow next = false) :
    encode (decodeOnto read units).toList = encode read.toList ++ mendAfter previous units := by
  fun_induction decodeOnto read units generalizing previous with
  | case1 read => rw [mendAfter, List.append_nil]
  | case2 read unit =>
    rw [List.forall_mem_singleton] at small
    have alone : isLone previous unit none = (isHigh unit || isLow unit) :=
      isLone_eq (fun early => apart early unit rfl) fun _ => rfl
    rw [encode_push, encodeChar_single small, mendAfter, List.head?_nil, alone, mendAfter]
  | case3 read first second rest isPair ih =>
    rw [Bool.and_eq_true] at isPair
    rw [List.forall_mem_cons, List.forall_mem_cons] at small
    have low : isHigh second = false := by
      rw [← Bool.not_eq_true]
      intro high
      cases isPair.2.symm.trans (not_isLow_of_isHigh high)
    have early : isLone previous first (some second) = false := by
      rw [isLone, isPair.1, Option.any_some, isPair.2, not_isLow_of_isHigh isPair.1]
      rfl
    have late : isLone first second rest.head? = false := by
      rw [isLone, low, isPair.1, isPair.2]
      rfl
    have onward := @ih small.2.2 second fun high => absurd high (by simp [low])
    rw [onward, encode_push, encodeChar_pair isPair.1 isPair.2, mendAfter, mendAfter,
      List.head?_cons, early, late]
    simp
  | case4 read first second rest noPair ih =>
    rw [List.forall_mem_cons] at small
    have behind : isHigh first = true → isLow second = false := by
      intro high
      rw [high, Bool.true_and, Bool.not_eq_true] at noPair
      exact noPair
    have alone : isLone previous first (some second) = (isHigh first || isLow first) :=
      isLone_eq (fun early => apart early first rfl) behind
    have onward := @ih small.2 first fun high next same => by
      cases same
      exact behind high
    rw [onward, encode_push, encodeChar_single small.1, mendAfter.eq_2 previous first,
      List.head?_cons, alone, List.append_assoc, List.singleton_append]

/-- What was read of units is written as these units, mended. -/
theorem encode_decode {units : List Nat} (small : ∀ unit ∈ units, unit < 0x10000) :
    encode (decode units) = mend units := by
  have zero : isHigh 0 = true → ∀ next, units.head? = some next → isLow next = false := by
    intro high
    cases high
  exact encode_decodeOnto small #[] zero

/-- Units are read as the same characters if they are the same after mending. -/
theorem decode_eq_iff {units others : List Nat} (small : ∀ unit ∈ units, unit < 0x10000)
    (small' : ∀ unit ∈ others, unit < 0x10000) :
    decode units = decode others ↔ mend units = mend others := by
  rw [← encode_decode small, ← encode_decode small']
  constructor
  · intro same
    rw [same]
  · intro same
    rw [← decode_encode (decode units), same, decode_encode]

end Utf16

namespace ModifiedUtf8

/-- The bytes of a code unit: `0xxxxxxx` for the units from 1 to 0x7F, `110xxxxx 10xxxxxx` for 0
and those from 0x80 to 0x7FF, and `1110xxxx 10xxxxxx 10xxxxxx` for those from 0x800 on. -/
inductive UnitForm : Nat → Bytes → Prop
  | one {unit : Nat} (least : 0x01 ≤ unit) (most : unit ≤ 0x7F) : UnitForm unit [.ofNat unit]
  | two {high low : Nat} (high_lt : high < 32) (low_lt : low < 64)
      (needed : high * 64 + low = 0 ∨ 0x80 ≤ high * 64 + low) :
      UnitForm (high * 64 + low) [.ofNat (0xC0 + high), .ofNat (0x80 + low)]
  | three {high middle low : Nat} (high_lt : high < 16) (middle_lt : middle < 64)
      (low_lt : low < 64) (needed : 0x800 ≤ high * 4096 + middle * 64 + low) :
      UnitForm (high * 4096 + middle * 64 + low)
        [.ofNat (0xE0 + high), .ofNat (0x80 + middle), .ofNat (0x80 + low)]

/-- Bytes that spell code units, each in its form. -/
def Spelled (units : List Nat) (bytes : Bytes) : Prop :=
  ∃ pieces, List.Forall₂ UnitForm units pieces ∧ bytes = pieces.flatten

theorem unitForm_iff {unit : Nat} {piece : Bytes} :
    UnitForm unit piece ↔ unit < 0x10000 ∧ piece = encodeUnit unit := by
  constructor
  · intro form
    cases form with
    | one least most =>
      refine ⟨by omega, ?_⟩
      rw [encodeUnit, if_pos (by omega)]
    | @two high low high_lt low_lt needed =>
      refine ⟨by omega, ?_⟩
      have front : (high * 64 + low) / 64 = high := by omega
      have back : (high * 64 + low) % 64 = low := by omega
      rw [encodeUnit, if_neg (by omega), if_pos (by omega), front, back]
    | @three high middle low high_lt middle_lt low_lt needed =>
      refine ⟨by omega, ?_⟩
      have front : (high * 4096 + middle * 64 + low) / 4096 = high := by omega
      have inside : (high * 4096 + middle * 64 + low) / 64 % 64 = middle := by omega
      have back : (high * 4096 + middle * 64 + low) % 64 = low := by omega
      rw [encodeUnit, if_neg (by omega), if_neg (by omega), front, inside, back]
  · rintro ⟨small, rfl⟩
    rw [encodeUnit]
    split
    · exact .one (by omega) (by omega)
    · split
      · have form := @UnitForm.two (unit / 64) (unit % 64) (by omega) (by omega) (by omega)
        rwa [Nat.div_add_mod'] at form
      · have whole : unit / 4096 * 4096 + unit / 64 % 64 * 64 + unit % 64 = unit := by omega
        have form := @UnitForm.three (unit / 4096) (unit / 64 % 64) (unit % 64) (by omega) (by omega)
          (by omega) (by omega)
        rwa [whole] at form

theorem spelled_iff {units : List Nat} {bytes : Bytes} :
    Spelled units bytes ↔ (∀ unit ∈ units, unit < 0x10000) ∧ bytes = units.flatMap encodeUnit := by
  constructor
  · rintro ⟨pieces, forms, rfl⟩
    induction forms with
    | nil => simp
    | cons form _ ih =>
      rw [unitForm_iff] at form
      rw [List.forall_mem_cons, List.flatten_cons, List.flatMap_cons, form.2, ih.2]
      exact ⟨⟨form.1, ih.1⟩, rfl⟩
  · rintro ⟨small, rfl⟩
    refine ⟨units.map encodeUnit, ?_, List.flatMap_def⟩
    rw [List.forall₂_map_right_iff, List.forall₂_same]
    exact fun unit member => unitForm_iff.2 ⟨small unit member, rfl⟩

/-- Bytes spell one row of units only. -/
theorem Spelled.unique {units others : List Nat} {bytes : Bytes} (spelled : Spelled units bytes)
    (other : Spelled others bytes) : units = others := by
  rw [spelled_iff] at spelled other
  have first := decodeOnto_encode spelled.1 0 #[]
  have second := decodeOnto_encode other.1 0 #[]
  rw [← spelled.2, other.2, second] at first
  have same := Except.ok.inj first
  simpa using same.symm

/-- What spells units is read as the text of these, and written as what spells them mended. -/
theorem Spelled.decode {units : List Nat} {bytes : Bytes} (spelled : Spelled units bytes) :
    decode bytes = .ok (String.ofList (Utf16.decode units)) := by
  rw [spelled_iff] at spelled
  have read := decodeOnto_encode spelled.1 0 #[]
  rw [← spelled.2] at read
  refine bind_eq_ok.2 ⟨_, read, pure_eq_ok.2 ?_⟩
  rw [Array.empty_append]

theorem Spelled.encode {units : List Nat} {bytes : Bytes} (spelled : Spelled units bytes) :
    Spelled (Utf16.mend units) (encode (String.ofList (Utf16.decode units))) := by
  rw [spelled_iff] at spelled ⊢
  refine ⟨Utf16.mendAfter_lt spelled.1, ?_⟩
  rw [ModifiedUtf8.encode, String.toList_ofList, Utf16.encode_decode spelled.1]

/-- The bytes come back if and only if every surrogate has its partner. -/
theorem Spelled.encode_eq_iff {units : List Nat} {bytes : Bytes} (spelled : Spelled units bytes) :
    ModifiedUtf8.encode (String.ofList (Utf16.decode units)) = bytes ↔ ¬ Utf16.Unpaired units := by
  have encoded := spelled.encode
  rw [← Utf16.mend_eq_iff]
  constructor
  · intro same
    rw [same] at encoded
    exact encoded.unique spelled
  · intro same
    rw [same] at encoded
    exact (spelled_iff.1 encoded).2.trans (spelled_iff.1 spelled).2.symm

/-- Bytes are read as the same text if their units are the same after mending. -/
theorem Spelled.decode_eq_iff {units others : List Nat} {bytes otherBytes : Bytes}
    (spelled : Spelled units bytes) (other : Spelled others otherBytes) :
    ModifiedUtf8.decode bytes = ModifiedUtf8.decode otherBytes ↔
      Utf16.mend units = Utf16.mend others := by
  rw [spelled.decode, other.decode, Except.ok.injEq, String.ofList_inj,
    Utf16.decode_eq_iff (spelled_iff.1 spelled).1 (spelled_iff.1 other).1]

/-! ## The bytes of a text -/

/-- No form of a unit has the byte zero, or one that begins with four ones. -/
theorem UnitForm.bounds {unit : Nat} {piece : Bytes} (form : UnitForm unit piece) :
    ∀ byte ∈ piece, 0 < byte.toNat ∧ byte.toNat < 0xF0 := by
  cases form with
  | one least most =>
    rw [List.forall_mem_singleton, toNat_ofNat (by omega)]
    omega
  | two high_lt low_lt needed =>
    rw [List.forall_mem_cons, List.forall_mem_singleton, toNat_ofNat (by omega),
      toNat_ofNat (by omega)]
    omega
  | three high_lt middle_lt low_lt needed =>
    rw [List.forall_mem_cons, List.forall_mem_cons, List.forall_mem_singleton,
      toNat_ofNat (by omega), toNat_ofNat (by omega), toNat_ofNat (by omega)]
    omega

theorem Spelled.bounds {units : List Nat} {bytes : Bytes} (spelled : Spelled units bytes) :
    ∀ byte ∈ bytes, 0 < byte.toNat ∧ byte.toNat < 0xF0 := by
  rcases spelled with ⟨pieces, forms, rfl⟩
  intro byte member
  rcases List.mem_flatten.1 member with ⟨piece, isPiece, inside⟩
  rcases forall₂_mem forms isPiece with ⟨unit, -, form⟩
  exact form.bounds byte inside

/-- A text is written as what spells its units. -/
theorem spelled_encode (text : String) : Spelled (Utf16.encode text.toList) (encode text) :=
  spelled_iff.2 ⟨fun _ => Utf16.lt_of_mem_encode, rfl⟩

/-- Whatever the characters of a text are, its units are written in their forms and the text is
read back from the bytes.  Zero is none of these, and neither is a byte from 0xF0 on. -/
theorem decode_encode_bounds (text : String) :
    decode (encode text) = .ok text ∧ Spelled (Utf16.encode text.toList) (encode text) ∧
      ∀ byte ∈ encode text, byte ≠ 0 ∧ byte < 0xF0 := by
  have spelled := spelled_encode text
  refine ⟨decode_encode text, spelled, fun byte member => ?_⟩
  have bounds := spelled.bounds byte member
  constructor
  · rintro rfl
    exact absurd bounds.1 (Nat.lt_irrefl 0)
  · exact UInt8.lt_iff_toNat_lt.2 bounds.2

end ModifiedUtf8
end ClassFile
