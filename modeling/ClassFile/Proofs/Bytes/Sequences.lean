import ClassFile.Proofs.Bytes.Takes

namespace ClassFile

/-!
# Sequences

What is written after its number of elements is read back if its elements are, and
what is read so is written with the bytes that it took.
-/

namespace Encoding

variable {α : Type} {one : α → Except Fault Bytes} {part : α} {parts : List α} {bytes : Bytes}

theorem each_eq_ok :
    each one parts = .ok bytes ↔
      ∃ pieces, List.Forall₂ (fun part piece => one part = .ok piece) parts pieces ∧
        pieces.flatten = bytes := by
  rw [each, map_eq_ok]
  simp only [mapM_eq_ok]

theorem each_cons_eq_ok :
    each one (part :: parts) = .ok bytes ↔
      ∃ front back, one part = .ok front ∧ each one parts = .ok back ∧ bytes = front ++ back := by
  rw [each, List.mapM_cons, map_eq_ok]
  constructor
  · rintro ⟨_, run, rfl⟩
    rcases bind_eq_ok.mp run with ⟨front, isFront, rest⟩
    rcases bind_eq_ok.mp rest with ⟨pieces, arePieces, last⟩
    cases last
    exact ⟨front, _, isFront, map_eq_ok.mpr ⟨pieces, arePieces, rfl⟩, rfl⟩
  · rintro ⟨front, _, isFront, each, rfl⟩
    rcases map_eq_ok.mp each with ⟨pieces, arePieces, rfl⟩
    exact ⟨front :: pieces, bind_eq_ok.mpr ⟨front, isFront, bind_eq_ok.mpr ⟨pieces, arePieces, rfl⟩⟩,
      rfl⟩

theorem each_append_eq_ok {front back : List α} :
    each one (front ++ back) = .ok bytes ↔
      ∃ before after, each one front = .ok before ∧ each one back = .ok after ∧
        before ++ after = bytes := by
  simp only [each, map_eq_ok, List.mapM_append, bind_eq_ok, pure_eq_ok]
  constructor
  · rintro ⟨_, ⟨first, here, second, there, rfl⟩, rfl⟩
    exact ⟨_, _, ⟨first, here, rfl⟩, ⟨second, there, rfl⟩, List.flatten_append.symm⟩
  · rintro ⟨_, _, ⟨first, here, rfl⟩, ⟨second, there, rfl⟩, rfl⟩
    exact ⟨_, ⟨first, here, second, there, rfl⟩, List.flatten_append⟩

theorem sequence_eq_ok :
    sequence one parts = .ok bytes ↔
      parts.length < 65536 ∧
        ∃ back, each one parts = .ok back ∧ BigEndian.encode 2 parts.length ++ back = bytes := by
  rw [sequence]
  split
  · next small =>
    rw [bind_eq_ok]
    simp only [pure_eq_ok, small, true_and]
  · next large =>
    constructor
    · intro run
      cases run
    · rintro ⟨small, -⟩
      exact absurd small large

theorem payload_eq_ok {info : Bytes} :
    payload info = .ok bytes ↔
      info.length < 4294967296 ∧ BigEndian.encode 4 info.length ++ info = bytes := by
  rw [payload]
  split
  · next small => rw [Except.ok.injEq, and_iff_right small]
  · next large =>
    constructor
    · intro run
      cases run
    · rintro ⟨small, -⟩
      exact absurd small large

end Encoding

namespace Reads

variable {α : Type} {one : α → Except Fault Bytes} {reader : Reader α} {start : Nat}
  {parts : List α} {bytes : Bytes}

theorem each (reads : ∀ part ∈ parts, ∀ piece, one part = .ok piece →
    ∀ start, Reads reader start piece part) (encoded : Encoding.each one parts = .ok bytes) :
    Reads (Reader.many parts.length reader) start bytes parts := by
  rcases Encoding.each_eq_ok.mp encoded with ⟨pieces, all, rfl⟩
  apply Reads.many
  clear encoded
  induction all with
  | nil => exact .nil
  | cons here _ ih =>
    rw [List.forall_mem_cons] at reads
    exact .cons (reads.1 _ here) (ih reads.2)

theorem sequence (reads : ∀ part ∈ parts, ∀ piece, one part = .ok piece →
    ∀ start, Reads reader start piece part) (encoded : Encoding.sequence one parts = .ok bytes) :
    Reads (do Reader.many (← Reader.word 2) reader) start bytes parts := by
  rcases Encoding.sequence_eq_ok.mp encoded with ⟨small, back, all, rfl⟩
  exact (Reads.word small).bind (each reads all)

end Reads

namespace Takes

variable {α : Type} {one : α → Except Fault Bytes} {reader : Reader α}

theorem each (takes : Takes reader fun bytes part => one part = .ok bytes) (count : Nat) :
    Takes (Reader.many count reader) fun bytes parts =>
      Encoding.each one parts = .ok bytes ∧ parts.length = count := by
  refine (takes.many count).mono ?_
  rintro _ parts ⟨pieces, all, rfl, counted⟩
  exact ⟨Encoding.each_eq_ok.mpr ⟨pieces, all.flip, rfl⟩, counted⟩

theorem sequence (takes : Takes reader fun bytes part => one part = .ok bytes) :
    Takes (do Reader.many (← Reader.word 2) reader) fun bytes parts =>
      Encoding.sequence one parts = .ok bytes := by
  refine (Takes.word 2).bind ?_
  rintro _ count ⟨rfl, small⟩
  refine (takes.each count).mono ?_
  rintro back parts ⟨all, rfl⟩
  exact Encoding.sequence_eq_ok.mpr ⟨small, back, all, rfl⟩

end Takes
end ClassFile
