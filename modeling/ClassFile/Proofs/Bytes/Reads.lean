import Mathlib.Data.List.Forall2
import ClassFile.Bytes.Cursor
import ClassFile.Bytes.Encoding
import ClassFile.Proofs.Success

namespace ClassFile

/-!
# What a reader takes

A reader takes some bytes and gives a value if it does so at a given position
whatever comes after them.  Readers in a row take the bytes of each in a row,
so that a format is read back by reading back its parts.  In the same way a
reader rejects some bytes if it fails there whatever comes after them.
-/

/-- A cursor stands at a position with nothing but the given bytes after it. -/
structure Cursor.At (cursor : Cursor) (position : Nat) (rest : Bytes) : Prop where
  position_eq : cursor.position = position
  rest_eq : cursor.rest = rest
  size_eq : cursor.size = position + rest.length

theorem Cursor.at_ofBytes (bytes : Bytes) : (Cursor.ofBytes bytes).At 0 bytes :=
  ⟨rfl, rfl, (Nat.zero_add _).symm⟩

namespace Cursor.At

variable {cursor : Cursor} {position : Nat} {rest : Bytes}

theorem atEnd_eq (standing : cursor.At position rest) : cursor.atEnd = rest.isEmpty := by
  rw [Cursor.atEnd, standing.size_eq, standing.position_eq, Bool.eq_iff_iff, decide_eq_true_iff,
    List.isEmpty_iff, ← List.length_eq_zero_iff]
  omega

end Cursor.At

/-- At a position, a reader takes some bytes and gives a value. -/
def Reads {α : Type} (reader : Reader α) (start : Nat) (bytes : Bytes) (value : α) : Prop :=
  ∀ cursor rest, cursor.At start (bytes ++ rest) →
    ∃ after, reader.run cursor = .ok (value, after) ∧ after.At (start + bytes.length) rest

namespace Reads

variable {α β : Type} {reader : Reader α} {start : Nat} {bytes : Bytes} {value : α}

/-- What comes after the bytes may be nothing. -/
theorem runOn (reads : Reads reader 0 bytes value) : reader.runOn bytes = .ok value := by
  rcases reads (Cursor.ofBytes bytes) [] (by
    rw [List.append_nil]
    exact Cursor.at_ofBytes bytes) with ⟨after, run, -⟩
  rw [Reader.runOn, run]
  rfl

/-! ## Readers in a row -/

theorem pure (value : α) : Reads (Pure.pure value) start [] value :=
  fun cursor _ standing => ⟨cursor, rfl, standing⟩

theorem bind {next : α → Reader β} {front back : Bytes} {result : β}
    (first : Reads reader start front value)
    (second : Reads (next value) (start + front.length) back result) :
    Reads (reader >>= next) start (front ++ back) result := by
  intro cursor rest standing
  rw [List.append_assoc] at standing
  rcases first cursor (back ++ rest) standing with ⟨middle, run, there⟩
  rcases second middle rest there with ⟨after, run', after_at⟩
  refine ⟨after, ?_, ?_⟩
  · rw [StateT.run_bind, run]
    exact run'
  · rw [List.length_append, ← Nat.add_assoc]
    exact after_at

/-- A reader that takes nothing before another one. -/
theorem bind_nil {next : α → Reader β} {result : β} (first : Reads reader start [] value)
    (second : Reads (next value) start bytes result) :
    Reads (reader >>= next) start bytes result :=
  first.bind second

/-- A reader that takes nothing after another one. -/
theorem bind_pure {next : α → Reader β} {result : β} (first : Reads reader start bytes value)
    (second : Reads (next value) (start + bytes.length) [] result) :
    Reads (reader >>= next) start bytes result := by
  have both := first.bind second
  rwa [List.append_nil] at both

theorem map (change : α → β) (reads : Reads reader start bytes value) :
    Reads (change <$> reader) start bytes (change value) := by
  intro cursor rest standing
  rcases reads cursor rest standing with ⟨after, run, there⟩
  refine ⟨after, ?_, there⟩
  rw [StateT.run_map, run]
  rfl

theorem lift {result : Except Fault α} (known : result = .ok value) :
    Reads (liftM result : Reader α) start [] value := by
  subst known
  exact pure value

theorem position : Reads Reader.position start [] start := by
  intro cursor rest standing
  refine ⟨cursor, ?_, standing⟩
  rw [← standing.position_eq]
  rfl

/-! ## Bytes and words -/

theorem take (bytes : Bytes) : Reads (Reader.take bytes.length) start bytes bytes := by
  intro cursor rest standing
  have inside : cursor.position + bytes.length ≤ cursor.size := by
    rw [standing.size_eq, standing.position_eq, List.length_append]
    omega
  refine ⟨⟨cursor.position + bytes.length, cursor.size, cursor.rest.drop bytes.length, ?_⟩, ?_, ?_⟩
  · rw [List.length_drop, cursor.length_rest, Nat.sub_sub]
  · have front : cursor.rest.take bytes.length = bytes := by
      rw [standing.rest_eq, List.take_left]
    refine (if_pos inside).trans ?_
    rw [front]
  · refine ⟨?_, ?_, ?_⟩ <;> dsimp only
    · rw [standing.position_eq]
    · rw [standing.rest_eq, List.drop_left]
    · rw [standing.size_eq, List.length_append, Nat.add_assoc]

/-- The bytes that were taken are those that stand there. -/
theorem take_eq {count : Nat} (length_eq : bytes.length = count) :
    Reads (Reader.take count) start bytes bytes :=
  length_eq ▸ take bytes

theorem word {width number : Nat} (small : number < BigEndian.wordCount width) :
    Reads (Reader.word width) start (BigEndian.encode width number) number := by
  have taken : Reads (Reader.take width) start _ _ := take_eq (BigEndian.length_encode width number)
  have read := taken.map BigEndian.decode
  rwa [BigEndian.decode_encode_of_lt small] at read

theorem byte (value : UInt8) : Reads (Reader.word 1) start [value] value.toNat := by
  have taken := @word start 1 value.toNat value.toNat_lt
  rwa [BigEndian.encode, BigEndian.encode, List.nil_append, UInt8.ofNat_toNat] at taken

theorem u1 (value : UInt8) : Reads Reader.u1 start [value] value := by
  have read := (@byte start value).map UInt8.ofNat
  rwa [UInt8.ofNat_toNat] at read

theorem s1 (value : Int8) : Reads Reader.s1 start (Encoding.s1 value) value :=
  (u1 value.toUInt8).map UInt8.toInt8

theorem u2 (value : UInt16) : Reads Reader.u2 start (Encoding.u2 value) value := by
  have read := (@word start 2 value.toNat value.toNat_lt).map UInt16.ofNat
  rwa [UInt16.ofNat_toNat] at read

theorem s2 (value : Int16) : Reads Reader.s2 start (Encoding.s2 value) value :=
  (u2 value.toUInt16).map UInt16.toInt16

theorem u4 (value : UInt32) : Reads Reader.u4 start (Encoding.u4 value) value := by
  have read := (@word start 4 value.toNat value.toNat_lt).map UInt32.ofNat
  rwa [UInt32.ofNat_toNat] at read

theorem s4 (value : Int32) : Reads Reader.s4 start (Encoding.s4 value) value :=
  (u4 value.toUInt32).map UInt32.toInt32

theorem u8 (value : UInt64) : Reads Reader.u8 start (Encoding.u8 value) value := by
  have read := (@word start 8 value.toNat value.toNat_lt).map UInt64.ofNat
  rwa [UInt64.ofNat_toNat] at read

theorem s8 (value : Int64) : Reads Reader.s8 start (Encoding.s8 value) value :=
  (u8 value.toUInt64).map UInt64.toInt64

/-! ## Repetition -/

theorem manyOnto {pieces : List Bytes} {values : List α}
    (each : List.Forall₂ (fun piece value => ∀ start, Reads reader start piece value) pieces values)
    (already : Array α) :
    Reads (Reader.manyOnto reader already values.length) start pieces.flatten
      (already ++ values.toArray) := by
  induction each generalizing start already with
  | nil =>
    rw [Array.append_empty]
    exact pure already
  | @cons piece value pieces values here _ ih =>
    rw [← List.push_append_toArray]
    exact (here start).bind (ih (already.push value))

/-- The same reader over and over takes the pieces one by one. -/
theorem many {pieces : List Bytes} {values : List α}
    (each : List.Forall₂ (fun piece value => ∀ start, Reads reader start piece value)
      pieces values) :
    Reads (Reader.many values.length reader) start pieces.flatten values := by
  have all := (@manyOnto α reader start pieces values each #[]).map Array.toList
  rwa [Array.empty_append, List.toList_toArray] at all

end Reads

/-- A reader takes all that is left and gives a value. -/
def ReadsAll {α : Type} (reader : Reader α) (start : Nat) (bytes : Bytes) (value : α) : Prop :=
  ∀ cursor, cursor.At start bytes → ∃ after, reader.run cursor = .ok (value, after)

namespace ReadsAll

variable {α β : Type} {reader : Reader α} {start : Nat} {bytes : Bytes} {value : α}

theorem runOn (reads : ReadsAll reader 0 bytes value) : reader.runOn bytes = .ok value := by
  rcases reads (Cursor.ofBytes bytes) (Cursor.at_ofBytes bytes) with ⟨after, run⟩
  rw [Reader.runOn, run]
  rfl

theorem bind {next : α → Reader β} {front back : Bytes} {result : β}
    (first : Reads reader start front value)
    (second : ReadsAll (next value) (start + front.length) back result) :
    ReadsAll (reader >>= next) start (front ++ back) result := by
  intro cursor standing
  rcases first cursor back standing with ⟨middle, run, there⟩
  rcases second middle there with ⟨after, run'⟩
  refine ⟨after, ?_⟩
  rw [StateT.run_bind, run]
  exact run'

/-- The last part of what is left. -/
theorem bind_last {next : α → Reader β} {result : β} (first : Reads reader start bytes value)
    (second : ReadsAll (next value) (start + bytes.length) [] result) :
    ReadsAll (reader >>= next) start bytes result := by
  have both := bind first second
  rwa [List.append_nil] at both

/-- Nothing is left over. -/
theorem atEnd {fault : Malformation} {next : PUnit → Reader α} (rest : ReadsAll (next ⟨⟩) start [] value) :
    ReadsAll (do
      let cursor ← get
      if cursor.atEnd then next ⟨⟩ else Reader.fail fault >>= next) start [] value := by
  intro cursor standing
  rcases rest cursor standing with ⟨after, run⟩
  refine ⟨after, ?_⟩
  have ended : cursor.atEnd = true := standing.atEnd_eq
  rw [StateT.run_bind, StateT.run_get]
  change (if cursor.atEnd = true then next ⟨⟩ else _ : Reader α).run cursor = _
  rw [if_pos ended]
  exact run

end ReadsAll

/-- A reader fails at some bytes, whatever comes after them. -/
def Rejects {α : Type} (reader : Reader α) (start : Nat) (bytes : Bytes) (fault : Fault) : Prop :=
  ∀ cursor rest, cursor.At start (bytes ++ rest) → reader.run cursor = .error fault

namespace Rejects

variable {α β : Type} {reader : Reader α} {start : Nat} {bytes front back : Bytes} {value : α}
  {next : α → Reader β} {fault : Fault}

theorem fail (cause : Malformation) :
    Rejects (Reader.fail cause : Reader α) start bytes (.malformed cause) :=
  fun _ _ _ => rfl

/-- What fails at once keeps what follows from being read. -/
theorem bind (first : Rejects reader start bytes fault) :
    Rejects (reader >>= next) start bytes fault := by
  intro cursor rest standing
  rw [StateT.run_bind, first cursor rest standing]
  rfl

theorem bind_of_reads (first : Reads reader start front value)
    (second : Rejects (next value) (start + front.length) back fault) :
    Rejects (reader >>= next) start (front ++ back) fault := by
  intro cursor rest standing
  rw [List.append_assoc] at standing
  rcases first cursor (back ++ rest) standing with ⟨middle, run, there⟩
  rw [StateT.run_bind, run]
  exact second middle rest there

end Rejects

end ClassFile
