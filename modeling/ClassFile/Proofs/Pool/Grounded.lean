import Mathlib.Data.List.Nodup
import ClassFile.Proofs.Pool.Growth

namespace ClassFile

/-!
# Grounded pools

In a grounded pool no two entries are equal, what an entry refers to comes before
it and is of the kind that its place requires, and the bootstrap table is closed in
the same way.  A bootstrap method may need constants that are computed by others,
and these come before it too, so nothing is computed from itself.
-/

/-- What an entry is to those that refer to it. -/
inductive EntryKind
  | text | cls | signature | field | method | handle
deriving DecidableEq, Repr

namespace Constant

def kind? : Constant → Option EntryKind
  | utf8 _ => some .text
  | cls _ => some .cls
  | nameAndType .. => some .signature
  | fieldRef .. => some .field
  | methodRef .. => some .method
  | methodHandle .. => some .handle
  | _ => none

/-- The entries that an entry is made of, and what each must be. -/
def references : Constant → List (PoolIndex × EntryKind)
  | cls index | string index | methodType index | module index | package index => [(index, .text)]
  | fieldRef owner signature | methodRef owner signature _ =>
    [(owner, .cls), (signature, .signature)]
  | nameAndType name descriptor => [(name, .text), (descriptor, .text)]
  | methodHandle kind member => [(member, if kind.isField then .field else .method)]
  | dynamic _ signature | invokeDynamic _ signature => [(signature, .signature)]
  | _ => []

/-- The bootstrap method that computes a constant or links a call site. -/
def bootstrap? : Constant → Option Nat
  | dynamic position _ | invokeDynamic position _ => some position
  | _ => none

/-- Entries that an instruction can load and a bootstrap method can be given. -/
def isLoadable : Constant → Bool
  | integer _ | float _ | long _ | double _ | string _ | cls _ | methodType _
  | methodHandle .. | dynamic .. => true
  | _ => false

end Constant

namespace Pool

/-- There is an entry of a kind at an index. -/
def HasKind (pool : Pool) (index : PoolIndex) (kind : EntryKind) : Prop :=
  ∃ constant, pool.entry index = .ok constant ∧ constant.kind? = some kind

/-- There is a loadable entry at an index, which is computed by none but the first
`limit` bootstrap methods. -/
def HasLoadable (pool : Pool) (limit : Nat) (index : PoolIndex) : Prop :=
  ∃ constant, pool.entry index = .ok constant ∧ constant.isLoadable = true ∧
    ∀ position, constant.bootstrap? = some position → position < limit

/-- What an entry is made of is there. -/
structure Supports (pool : Pool) (constant : Constant) : Prop where
  refers : ∀ index kind, (index, kind) ∈ constant.references → pool.HasKind index kind
  computed : ∀ position, constant.bootstrap? = some position → position < pool.bootstraps.size

structure Grounded (pool : Pool) : Prop where
  start_eq : pool.constants.start = 1
  distinct : (pool.entries.map Prod.snd).Nodup
  refers : ∀ slot constant, (slot, constant) ∈ pool.entries →
    ∀ index kind, (index, kind) ∈ constant.references → index < slot ∧ pool.HasKind index kind
  computed : ∀ slot constant, (slot, constant) ∈ pool.entries →
    ∀ position, constant.bootstrap? = some position → position < pool.bootstraps.size
  handles : ∀ (position : Nat) (method : BootstrapMethod),
    pool.bootstraps[position]? = some method → pool.HasKind method.handle .handle
  arguments : ∀ (position : Nat) (method : BootstrapMethod),
    pool.bootstraps[position]? = some method →
      ∀ argument ∈ method.arguments, pool.HasLoadable position argument
  table_distinct : pool.bootstraps.toList.Nodup
  table_small : pool.bootstraps.size ≤ 65536

namespace Extends

variable {before after : Pool} {index : PoolIndex}

theorem hasKind (extends_ : Extends before after) {kind : EntryKind}
    (found : before.HasKind index kind) : after.HasKind index kind := by
  rcases found with ⟨constant, here, same⟩
  exact ⟨constant, extends_.entry here, same⟩

theorem hasLoadable (extends_ : Extends before after) {limit : Nat}
    (found : before.HasLoadable limit index) : after.HasLoadable limit index := by
  rcases found with ⟨constant, here, loadable⟩
  exact ⟨constant, extends_.entry here, loadable⟩

theorem supports (extends_ : Extends before after) {constant : Constant}
    (supports : before.Supports constant) : after.Supports constant where
  refers index kind member := extends_.hasKind (supports.refers index kind member)
  computed position needed :=
    Nat.lt_of_lt_of_le (supports.computed position needed) extends_.size_le

end Extends

section

variable {pool : Pool} {index : PoolIndex}

theorem hasKind_text {text : String} (found : pool.utf8 index = .ok text) :
    pool.HasKind index .text :=
  ⟨_, utf8_eq_ok.mp found, rfl⟩

theorem hasKind_cls {name : String} (found : pool.className index = .ok name) :
    pool.HasKind index .cls := by
  rcases className_eq_ok.mp found with ⟨text, isClass, -⟩
  exact ⟨_, isClass, rfl⟩

theorem hasKind_signature {signature : Signature} (found : pool.signature index = .ok signature) :
    pool.HasKind index .signature := by
  rcases signature_eq_ok.mp found with ⟨name, descriptor, here, -⟩
  exact ⟨_, here, rfl⟩

theorem lt_stop_of_mem {slot : PoolIndex} {constant : Constant}
    (member : (slot, constant) ∈ pool.entries) : slot < pool.constants.stop := by
  exact Nat.lt_of_lt_of_le (Nat.lt_add_of_pos_right constant.width_pos)
    (pool.constants.laid.bounds member).2

theorem HasKind.lt_stop {kind : EntryKind} (found : pool.HasKind index kind) :
    index < pool.constants.stop := by
  rcases found with ⟨constant, here, -⟩
  exact lt_stop_of_mem (entry_eq_ok.mp here)

end

namespace Grounded

theorem empty : Grounded empty where
  start_eq := rfl
  distinct := .nil
  refers slot constant member := absurd member List.not_mem_nil
  computed slot constant member := absurd member List.not_mem_nil
  handles position method found := by cases found
  arguments position method found := by cases found
  table_distinct := .nil
  table_small := Nat.zero_le _

variable {pool : Pool}

/-- Indices are positive, since entries start at slot one. -/
theorem pos_of_mem (grounded : Grounded pool) {slot : PoolIndex} {constant : Constant}
    (member : (slot, constant) ∈ pool.entries) : 0 < slot := by
  have lower := (pool.constants.laid.bounds member).1
  rw [grounded.start_eq] at lower
  exact lower

theorem append (grounded : Grounded pool) {constant : Constant}
    (fresh : constant ∉ pool.constants.toList) (supports : pool.Supports constant) :
    Grounded (pool.append constant) := by
  have extends_ := Extends.append pool constant
  have entries : (pool.append constant).entries =
      pool.entries ++ [(pool.constants.stop, constant)] := by
    simp [Pool.entries, Pool.append, SlotVector.push]
  have old_or_new : ∀ {slot : PoolIndex} {other : Constant},
      (slot, other) ∈ (pool.append constant).entries →
      (slot, other) ∈ pool.entries ∨ slot = pool.constants.stop ∧ other = constant := by
    intro slot other member
    rw [entries, List.mem_append, List.mem_singleton, Prod.mk.injEq] at member
    exact member
  constructor
  · exact grounded.start_eq
  · rw [entries, List.map_append]
    apply List.Nodup.append grounded.distinct (List.nodup_singleton constant)
    intro other old new
    exact fresh (List.mem_singleton.mp new ▸ old)
  · intro slot other member index kind refers
    rcases old_or_new member with old | ⟨rfl, rfl⟩
    · have there := grounded.refers slot other old index kind refers
      exact ⟨there.1, extends_.hasKind there.2⟩
    · have there := supports.refers index kind refers
      exact ⟨there.lt_stop, extends_.hasKind there⟩
  · intro slot other member position needed
    rcases old_or_new member with old | ⟨rfl, rfl⟩
    · exact grounded.computed slot other old position needed
    · exact supports.computed position needed
  · intro position method found
    exact extends_.hasKind (grounded.handles position method found)
  · intro position method found argument member
    exact extends_.hasLoadable (grounded.arguments position method found argument member)
  · exact grounded.table_distinct
  · exact grounded.table_small

theorem appendBootstrap (grounded : Grounded pool) {method : BootstrapMethod}
    (fresh : method ∉ pool.bootstraps.toList) (small : pool.bootstraps.size < 65536)
    (handle : pool.HasKind method.handle .handle)
    (arguments : ∀ argument ∈ method.arguments, pool.HasLoadable pool.bootstraps.size argument) :
    Grounded (pool.appendBootstrap method) := by
  have extends_ := Extends.appendBootstrap pool method
  have old_or_new : ∀ {position : Nat} {other : BootstrapMethod},
      (pool.appendBootstrap method).bootstraps[position]? = some other →
      pool.bootstraps[position]? = some other ∨
        position = pool.bootstraps.size ∧ other = method := by
    intro position other found
    change (pool.bootstraps.push method)[position]? = some other at found
    rw [Array.getElem?_push] at found
    split at found
    · next last => exact .inr ⟨last, (Option.some.inj found).symm⟩
    · exact .inl found
  constructor
  · exact grounded.start_eq
  · exact grounded.distinct
  · intro slot constant member index kind refers
    have there := grounded.refers slot constant member index kind refers
    exact ⟨there.1, extends_.hasKind there.2⟩
  · intro slot constant member position needed
    exact Nat.lt_of_lt_of_le (grounded.computed slot constant member position needed)
      extends_.size_le
  · intro position other found
    rcases old_or_new found with old | ⟨rfl, rfl⟩
    · exact extends_.hasKind (grounded.handles position other old)
    · exact extends_.hasKind handle
  · intro position other found argument member
    rcases old_or_new found with old | ⟨rfl, rfl⟩
    · exact extends_.hasLoadable (grounded.arguments position other old argument member)
    · exact extends_.hasLoadable (arguments argument member)
  · change (pool.bootstraps.push method).toList.Nodup
    rw [Array.toList_push]
    apply List.Nodup.append grounded.table_distinct (List.nodup_singleton method)
    intro other old new
    exact fresh (List.mem_singleton.mp new ▸ old)
  · change (pool.bootstraps.push method).size ≤ 65536
    rw [Array.size_push]
    exact small

end Grounded
end Pool
end ClassFile
