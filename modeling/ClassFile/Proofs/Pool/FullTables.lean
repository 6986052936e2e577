import Mathlib.Data.List.Sublists
import ClassFile.Proofs.Hierarchy.Faults
import ClassFile.Proofs.Pool.Positions

namespace ClassFile

/-!
# Full bootstrap tables

Positions of the bootstrap table are words of 16 bits, and so is the number of methods
in front of it.  All positions are given out, so that a full table has one method more
than a word counts.  Requests that all succeed fill it.  Then it cannot be written, while
every smaller table can be counted, and the request that is refused comes too late.
-/

namespace BootstrapMethod

theorem encodeTable_eq_manyBootstraps {methods : List BootstrapMethod} :
    encodeTable methods = .error (.codec .manyBootstraps) ↔ 65536 ≤ methods.length := by
  rw [encodeTable]
  split
  · next short =>
    have index : ∀ index, FailsOnly (· ≠ .codec .manyBootstraps) (Encoding.index index) :=
      fun _ => FailsOnly.index fun _ same => by cases same
    have other : FailsOnly (· ≠ .codec .manyBootstraps) (Encoding.each encode methods) := by
      apply FailsOnly.each
      intro method _
      apply (index _).bind
      intro handle _
      apply (FailsOnly.sequence (fun _ same => by cases same) fun argument _ => index argument).bind
      exact fun _ _ => .ok _
    have fails := other.bind fun bytes _ => .ok (BigEndian.encode 2 methods.length ++ bytes)
    exact iff_of_false (fun failed => fails _ failed rfl) (Nat.not_le_of_lt short)
  · next long => exact iff_of_true rfl (Nat.le_of_not_lt long)

end BootstrapMethod

namespace Pool

open BootstrapMethod (encodeTable encodeTable_eq_manyBootstraps)

/-- A table that was made by additions has too many methods when it is full, and only then. -/
theorem Grounded.encodeTable_eq_manyBootstraps {pool : Pool} (grounded : Grounded pool) :
    encodeTable pool.bootstraps.toList = .error (.codec .manyBootstraps) ↔
      pool.bootstraps.size = 65536 := by
  rw [BootstrapMethod.encodeTable_eq_manyBootstraps, Array.length_toList]
  have small := grounded.table_small
  omega

/-- Once an addition was refused for want of a position, the table cannot be written any more. -/
theorem encodeTable_of_refused (additions more : List Addition) {addition : Addition}
    {fault : Fault} {after : Pool} (good : addition.check = .ok ())
    (refused : addition.request.run (empty.addAll additions) = (.error fault, after)) :
    encodeTable (after.addAll more).bootstraps.toList = .error (.codec .manyBootstraps) := by
  rcases Addition.run_eq_error refused with ⟨bad, -⟩ | ⟨-, exhausts, -, -⟩
  · cases good.symm.trans bad
  · have later := (extends_addAll after more).1.size_le
    rw [encodeTable_eq_manyBootstraps, Array.length_toList]
    exact exhausts.full.trans later

/-! ## Filling a table -/

/-- The positions that additions take at most. -/
def positionsAll : List Addition → Nat
  | [] => 0
  | addition :: additions => addition.positions + positionsAll additions

theorem size_addAll_le (additions : List Addition) (pool : Pool) :
    (pool.addAll additions).bootstraps.size ≤ pool.bootstraps.size + positionsAll additions := by
  induction additions generalizing pool with
  | nil => exact Nat.le_refl _
  | cons addition additions ih =>
    have here := (addition.size_run_le pool).2
    have rest := ih (addition.request.run pool).2
    rw [positionsAll, ← Nat.add_assoc]
    exact rest.trans (Nat.add_le_add_right here _)

theorem positionsAll_of_one {additions : List Addition}
    (one : ∀ addition ∈ additions, addition.positions = 1) :
    positionsAll additions = additions.length := by
  induction additions with
  | nil => rfl
  | cons addition additions ih =>
    rw [List.forall_mem_cons] at one
    rw [positionsAll, one.1, ih one.2, List.length_cons, Nat.add_comm]

/-- Additions one after the other, all of which give an answer. -/
def Answers : Pool → List Addition → Prop
  | _, [] => True
  | pool, addition :: additions =>
    (∃ index, (addition.request.run pool).1 = .ok index) ∧
      Answers (addition.request.run pool).2 additions

/-- Additions that pass their checks all answer while there are positions left. -/
theorem answers_of_room {additions : List Addition}
    (good : ∀ addition ∈ additions, addition.check = .ok ()) {pool : Pool}
    (room : pool.bootstraps.size + positionsAll additions ≤ 65536) :
    Answers pool additions := by
  induction additions generalizing pool with
  | nil => trivial
  | cons addition additions ih =>
    rw [List.forall_mem_cons] at good
    rw [positionsAll] at room
    have here : pool.bootstraps.size + addition.positions ≤ 65536 := by omega
    have grown := (addition.size_run_le pool).2
    refine ⟨?_, ih good.2 (by omega)⟩
    rcases addition.atomic_of_room here with ⟨fault, bad, -⟩ | ⟨-, index, after, run⟩
    · cases good.1.symm.trans bad
    · rw [run]
      exact ⟨index, rfl⟩

/-- What additions answered leads to what was asked for when all of them were made. -/
theorem resolves_of_answers {additions : List Addition} {pool : Pool} (grounded : Grounded pool)
    (answers : Answers pool additions) :
    ∀ addition ∈ additions, ∃ index, addition.Resolves (pool.addAll additions) index := by
  induction additions generalizing pool with
  | nil => exact List.forall_mem_nil _
  | cons addition additions ih =>
    rcases answers with ⟨⟨index, answer⟩, rest⟩
    rcases addition.request_lasts pool pool (.refl pool) with
      ⟨answer', after, run, -, kept, known⟩
    rw [run] at answer rest
    have later := extends_addAll after additions
    have whole : pool.addAll (addition :: additions) = after.addAll additions := by
      change (addition.request.run pool).2.addAll additions = _
      rw [run]
    rw [whole, List.forall_mem_cons]
    refine ⟨⟨index, ?_⟩, ih (kept grounded) rest⟩
    exact (known index answer).1 _ later.1 (later.2 (kept grounded))

theorem bootstrap_lt {pool : Pool} {position : Nat} {method : Handle × List Loadable}
    (found : pool.bootstrap position = .ok method) : position < pool.bootstraps.size := by
  by_contra outside
  rw [bootstrap, bootstrapWith, Array.getElem?_eq_none (Nat.le_of_not_lt outside)] at found
  cases found

/-- What a bootstrap method is read back as. -/
def normalMethod (method : Handle × List Loadable) : Handle × List Loadable :=
  (method.1.normal, Loadable.normalAll method.2)

/-- Additions of bootstrap methods. -/
def ofMethods (methods : List (Handle × List Loadable)) : List Addition :=
  methods.map fun method => .bootstrap method.1 method.2

/-- Bootstrap methods that are not read back alike take a position each. -/
theorem length_le_of_answers {methods : List (Handle × List Loadable)} {pool : Pool}
    (grounded : Grounded pool) (different : (methods.map normalMethod).Nodup)
    (answers : Answers pool (ofMethods methods)) :
    methods.length ≤ (pool.addAll (ofMethods methods)).bootstraps.size := by
  have resolves := resolves_of_answers grounded answers
  generalize pool.addAll _ = after at resolves ⊢
  have inside : methods.map normalMethod ⊆ (List.range after.bootstraps.size).filterMap
      fun position => (after.bootstrap position).toOption := by
    intro value member
    rcases List.mem_map.1 member with ⟨method, listed, rfl⟩
    rcases resolves _ (List.mem_map_of_mem listed) with ⟨position, found⟩
    have found : after.bootstrap position = .ok (normalMethod method) := found
    refine List.mem_filterMap.2 ⟨position, List.mem_range.2 (bootstrap_lt found), ?_⟩
    rw [found]
    rfl
  calc methods.length
      = (methods.map normalMethod).length := (List.length_map _).symm
    _ ≤ _ := (different.subperm inside).length_le
    _ ≤ (List.range after.bootstraps.size).length := List.length_filterMap_le _ _
    _ = after.bootstraps.size := List.length_range

/-- One handle with each of the first numbers for an argument. -/
def numbered (handle : Handle) (count : Nat) : List (Handle × List Loadable) :=
  (List.range count).map fun number => (handle, [.integer (Int32.ofNat number)])

section

variable (handle : Handle) {count : Nat}

theorem length_numbered : (numbered handle count).length = count := by
  rw [numbered, List.length_map, List.length_range]

theorem nodup_numbered (few : count ≤ 65536) : ((numbered handle count).map normalMethod).Nodup := by
  rw [numbered, List.map_map]
  refine List.Nodup.map_on ?_ List.nodup_range
  intro first isFirst second isSecond same
  have numbers : Int32.ofNat first = Int32.ofNat second := by
    simpa [normalMethod, Loadable.normalAll, Loadable.normal] using same
  have inside := List.mem_range.1 isFirst
  have inside' := List.mem_range.1 isSecond
  have values := congrArg Int32.toInt numbers
  rw [Int32.toInt_ofNat_of_lt (by omega), Int32.toInt_ofNat_of_lt (by omega)] at values
  exact Int.ofNat_inj.1 values

/-- As many bootstrap methods as there are positions are all given one, and take up the table. -/
theorem size_numbered (few : count ≤ 65536) :
    Answers empty (ofMethods (numbered handle count)) ∧
      (empty.addAll (ofMethods (numbered handle count))).bootstraps.size = count := by
  have one : ∀ addition ∈ ofMethods (numbered handle count),
      addition.check = .ok () ∧ addition.positions = 1 := by
    intro addition member
    rcases List.mem_map.1 member with ⟨_, listed, rfl⟩
    rcases List.mem_map.1 listed with ⟨number, -, rfl⟩
    exact ⟨rfl, rfl⟩
  have taken : positionsAll (ofMethods (numbered handle count)) = count := by
    rw [positionsAll_of_one fun addition member => (one addition member).2, ofMethods,
      List.length_map, length_numbered]
  have answers : Answers empty (ofMethods (numbered handle count)) := by
    refine answers_of_room (fun addition member => (one addition member).1) ?_
    rw [taken]
    exact (Nat.zero_add count).trans_le few
  have atLeast := length_le_of_answers .empty (nodup_numbered handle few) answers
  have atMost := size_addAll_le (ofMethods (numbered handle count)) empty
  rw [length_numbered] at atLeast
  rw [taken] at atMost
  exact ⟨answers, Nat.le_antisymm (atMost.trans_eq (Nat.zero_add count)) atLeast⟩

/-- The last of the positions makes the table one too long. -/
theorem encodeTable_numbered (few : count ≤ 65536) :
    encodeTable (empty.addAll (ofMethods (numbered handle count))).bootstraps.toList =
      .error (.codec .manyBootstraps) ↔ count = 65536 := by
  have grounded := (extends_addAll empty (ofMethods (numbered handle count))).2 .empty
  rw [grounded.encodeTable_eq_manyBootstraps, (size_numbered handle few).2]

end

/-- Additions that all answer make a table that has too many methods to be written. -/
theorem exists_answers_unwritable (handle : Handle) :
    ∃ additions : List Addition, Answers empty additions ∧
      encodeTable (empty.addAll additions).bootstraps.toList = .error (.codec .manyBootstraps) := by
  -- The number stays a variable, so that the list of that length is not computed.
  rcases (⟨65536, rfl⟩ : ∃ count, count = 65536) with ⟨count, isFull⟩
  have few : count ≤ 65536 := Nat.le_of_eq isFull
  exact ⟨_, (size_numbered handle few).1, (encodeTable_numbered handle few).2 isFull⟩

end Pool
end ClassFile
