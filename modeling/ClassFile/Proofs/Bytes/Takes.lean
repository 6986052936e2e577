import Mathlib.Data.List.Induction
import ClassFile.Proofs.Bytes.Reads

namespace ClassFile

/-!
# What was taken

The other way round: whenever a reader succeeds, it has taken bytes off the front
of the rest, and something holds of these and of its value.  Where this says that
the bytes are the encoding of the value, reading can be undone.
-/

namespace BigEndian

theorem decode_lt (bytes : Bytes) : decode bytes < wordCount bytes.length := by
  induction bytes using List.reverseRecOn with
  | nil => exact Nat.one_pos
  | append_singleton bytes byte ih =>
    rw [decode_append_singleton, List.length_append, List.length_singleton, wordCount]
    have := byte.toNat_lt
    omega

/-- Writing the number that was read. -/
theorem encode_decode (bytes : Bytes) : encode bytes.length (decode bytes) = bytes := by
  induction bytes using List.reverseRecOn with
  | nil => rfl
  | append_singleton bytes byte ih =>
    have small := byte.toNat_lt
    have front : (decode bytes * 256 + byte.toNat) / 256 = decode bytes := by omega
    have last : UInt8.ofNat (decode bytes * 256 + byte.toNat) = byte := by
      apply UInt8.toNat_inj.mp
      rw [UInt8.toNat_ofNat']
      omega
    rw [decode_append_singleton, List.length_append, List.length_singleton, encode, front, last, ih]

end BigEndian

/-- Whenever a reader succeeds, something holds of its value and of the bytes that it
took off the front. -/
def Takes {α : Type} (reader : Reader α) (holds : Bytes → α → Prop) : Prop :=
  ∀ cursor value after, reader.run cursor = .ok (value, after) →
    ∃ bytes, cursor.rest = bytes ++ after.rest ∧
      after.position = cursor.position + bytes.length ∧ after.size = cursor.size ∧
      holds bytes value

namespace Takes

variable {α β : Type} {reader : Reader α} {holds : Bytes → α → Prop}

theorem runOn (takes : Takes reader holds) {bytes : Bytes} {value : α}
    (run : reader.runOn bytes = .ok value) :
    ∃ taken rest, bytes = taken ++ rest ∧ holds taken value := by
  rcases map_eq_ok.mp run with ⟨⟨_, after⟩, ran, rfl⟩
  rcases takes _ _ _ ran with ⟨taken, whole, -, -, known⟩
  exact ⟨taken, after.rest, whole, known⟩

theorem mono {weaker : Bytes → α → Prop} (takes : Takes reader holds)
    (weaken : ∀ bytes value, holds bytes value → weaker bytes value) : Takes reader weaker := by
  intro cursor value after run
  rcases takes cursor value after run with ⟨bytes, front, moved, same, known⟩
  exact ⟨bytes, front, moved, same, weaken bytes value known⟩

/-! ## Readers in a row -/

theorem pure {value : α} (known : holds [] value) : Takes (Pure.pure value) holds := by
  rintro cursor _ _ ⟨⟩
  exact ⟨[], rfl, rfl, rfl, known⟩

theorem fail {cause : Malformation} : Takes (Reader.fail cause) holds :=
  nofun

theorem bind {next : α → Reader β} {result : Bytes → β → Prop} (first : Takes reader holds)
    (second : ∀ front value, holds front value →
      Takes (next value) fun back answer => result (front ++ back) answer) :
    Takes (reader >>= next) result := by
  intro cursor answer after run
  rw [StateT.run_bind] at run
  rcases bind_eq_ok.mp run with ⟨⟨value, between⟩, run, run'⟩
  rcases first cursor value between run with ⟨front, isFront, moved, same, known⟩
  rcases second front value known between answer after run' with
    ⟨back, isBack, moved', same', known'⟩
  refine ⟨front ++ back, ?_, ?_, same'.trans same, known'⟩
  · rw [isFront, isBack, List.append_assoc]
  · rw [moved', moved, List.length_append, Nat.add_assoc]

theorem map {change : α → β} {result : Bytes → β → Prop} (takes : Takes reader holds)
    (known : ∀ bytes value, holds bytes value → result bytes (change value)) :
    Takes (change <$> reader) result := by
  rw [← bind_pure_comp]
  refine takes.bind fun bytes value holds_ => pure ?_
  rw [List.append_nil]
  exact known bytes value holds_

/-- What was looked up on the way takes nothing. -/
theorem lift {answer : Except Fault α} (known : ∀ value, answer = .ok value → holds [] value) :
    Takes (liftM answer : Reader α) holds := by
  cases answer with
  | error fault => exact nofun
  | ok value => exact pure (known value rfl)

theorem ite {condition : Prop} [Decidable condition] {other : Reader α}
    (yes : condition → Takes reader holds) (no : ¬condition → Takes other holds) :
    Takes (if condition then reader else other) holds := by
  split
  · exact yes ‹_›
  · exact no ‹_›

/-! ## Bytes and words -/

theorem take (count : Nat) :
    Takes (Reader.take count) fun bytes value => value = bytes ∧ bytes.length = count := by
  intro cursor value after run
  rw [StateT.run, Reader.take] at run
  split at run
  · next inside =>
    cases run
    have enough : count ≤ cursor.rest.length := by
      rw [cursor.length_rest]
      omega
    have length_eq := List.length_take_of_le enough
    refine ⟨cursor.rest.take count, (List.take_append_drop count _).symm, ?_, rfl, rfl, length_eq⟩
    rw [length_eq]
  · cases run

theorem word (width : Nat) : Takes (Reader.word width) fun bytes number =>
    bytes = BigEndian.encode width number ∧ number < BigEndian.wordCount width := by
  refine (take width).map ?_
  rintro _ bytes ⟨rfl, rfl⟩
  exact ⟨(BigEndian.encode_decode bytes).symm, BigEndian.decode_lt bytes⟩

theorem u1 : Takes Reader.u1 fun bytes value => bytes = [value] := by
  refine (word 1).map ?_
  rintro _ number ⟨rfl, -⟩
  rfl

theorem u2 : Takes Reader.u2 fun bytes value => bytes = Encoding.u2 value := by
  refine (word 2).map ?_
  rintro _ number ⟨rfl, small⟩
  rw [Encoding.u2, UInt16.toNat_ofNat_of_lt' small]

theorem u4 : Takes Reader.u4 fun bytes value => bytes = Encoding.u4 value := by
  refine (word 4).map ?_
  rintro _ number ⟨rfl, small⟩
  rw [Encoding.u4, UInt32.toNat_ofNat_of_lt' small]

theorem s4 : Takes Reader.s4 fun bytes value => bytes = Encoding.s4 value := by
  refine u4.map ?_
  rintro _ value rfl
  rfl

theorem u8 : Takes Reader.u8 fun bytes value => bytes = Encoding.u8 value := by
  refine (word 8).map ?_
  rintro _ number ⟨rfl, small⟩
  rw [Encoding.u8, UInt64.toNat_ofNat_of_lt' small]

theorem s8 : Takes Reader.s8 fun bytes value => bytes = Encoding.s8 value := by
  refine u8.map ?_
  rintro _ value rfl
  rfl

/-! ## Repetition -/

theorem manyOnto (takes : Takes reader holds) (count : Nat) (already : Array α) :
    Takes (Reader.manyOnto reader already count) fun bytes values =>
      ∃ pieces added, List.Forall₂ holds pieces added ∧ bytes = pieces.flatten ∧
        values.toList = already.toList ++ added ∧ added.length = count := by
  induction count generalizing already with
  | zero => exact pure ⟨[], [], .nil, rfl, (List.append_nil _).symm, rfl⟩
  | succ count ih =>
    refine takes.bind fun front value here => (ih (already.push value)).mono ?_
    rintro back values ⟨pieces, added, rest, rfl, whole, counted⟩
    refine ⟨front :: pieces, value :: added, .cons here rest, rfl, ?_, ?_⟩
    · rw [whole, Array.toList_push, List.append_assoc, List.singleton_append]
    · rw [List.length_cons, counted]

/-- One after the other, and as many as were asked for. -/
theorem many (takes : Takes reader holds) (count : Nat) :
    Takes (Reader.many count reader) fun bytes values =>
      ∃ pieces, List.Forall₂ holds pieces values ∧ bytes = pieces.flatten ∧ values.length = count := by
  refine (takes.manyOnto count #[]).map ?_
  rintro bytes values ⟨pieces, added, each, rfl, whole, counted⟩
  rw [List.nil_append] at whole
  rw [whole]
  exact ⟨pieces, each, rfl, counted⟩

end Takes

/-! ## Uniform readers -/

namespace Reader

variable {α β : Type} {reader : Reader α}

/-- What was taken would be taken at any position, whatever comes after it. -/
def Uniform (reader : Reader α) : Prop :=
  Takes reader fun bytes value => ∀ start, Reads reader start bytes value

namespace Uniform

theorem pure (value : α) : Uniform (Pure.pure value) :=
  Takes.pure fun _ => Reads.pure value

theorem fail (cause : Malformation) : Uniform (Reader.fail cause : Reader α) :=
  Takes.fail

theorem bind {next : α → Reader β} (first : Uniform reader)
    (second : ∀ value, Uniform (next value)) : Uniform (reader >>= next) :=
  Takes.bind first fun _ value here =>
    (second value).mono fun _ _ there start => (here start).bind (there _)

theorem map (change : α → β) (uniform : Uniform reader) : Uniform (change <$> reader) :=
  Takes.map uniform fun _ _ here start => (here start).map change

theorem take (count : Nat) : Uniform (Reader.take count) := by
  refine (Takes.take count).mono ?_
  rintro _ bytes ⟨rfl, length_eq⟩ start
  exact Reads.take_eq length_eq

theorem word (width : Nat) : Uniform (Reader.word width) :=
  (take width).map _

theorem u1 : Uniform Reader.u1 := (word 1).map _

theorem s1 : Uniform Reader.s1 := u1.map _

theorem s2 : Uniform Reader.s2 := ((word 2).map _).map _

theorem s4 : Uniform Reader.s4 := ((word 4).map _).map _

theorem manyOnto (uniform : Uniform reader) (count : Nat) (already : Array α) :
    Uniform (Reader.manyOnto reader already count) := by
  induction count generalizing already with
  | zero => exact pure already
  | succ count ih => exact uniform.bind fun value => ih (already.push value)

theorem many (uniform : Uniform reader) (count : Nat) : Uniform (Reader.many count reader) :=
  (uniform.manyOnto count #[]).map _

/-- What was taken by a reader that knows its position would be taken there, whatever comes
after it. -/
theorem of_position {next : Nat → Reader α} (uniform : ∀ start, Uniform (next start))
    {cursor after : Cursor} {value : α}
    (run : (Reader.position >>= next).run cursor = .ok (value, after)) :
    ∃ bytes, cursor.rest = bytes ++ after.rest ∧
      after.position = cursor.position + bytes.length ∧
      Reads (Reader.position >>= next) cursor.position bytes value := by
  rcases uniform cursor.position cursor value after run with ⟨bytes, whole, moved, -, reads⟩
  exact ⟨bytes, whole, moved, Reads.position.bind_nil (reads cursor.position)⟩

end Uniform
end Reader
end ClassFile
