import ClassFile.Pool.Value
import ClassFile.Proofs.Slots
import ClassFile.Proofs.Success

namespace ClassFile
namespace Pool

/-!
# Pools only grow

What is asked of a pool may add entries and bootstrap methods at the end and
changes nothing else.  So whatever an index stands for, it stands for ever
after, and an entry that was found or added once is found again.
-/

/-! ## Entries by index -/

section

variable {pool : Pool} {index : PoolIndex}

theorem entry_eq_ok {constant : Constant} :
    pool.entry index = .ok constant ↔ (index, constant) ∈ pool.entries := by
  have found := @SlotVector.find?_eq_some Constant _ pool.constants index constant
    fun other _ => other.width_pos
  rw [entries, ← found, entry]
  cases pool.constants.find? index <;> simp

theorem utf8_eq_ok {text : String} :
    pool.utf8 index = .ok text ↔ pool.entry index = .ok (.utf8 text) := by
  rw [utf8, bind_eq_ok]
  constructor
  · rintro ⟨constant, found, same⟩
    cases constant with
    | utf8 other =>
      cases same
      exact found
    | _ => cases same
  · intro found
    exact ⟨_, found, rfl⟩

theorem className_eq_ok {name : String} :
    pool.className index = .ok name ↔
      ∃ text, pool.entry index = .ok (.cls text) ∧ pool.utf8 text = .ok name := by
  rw [className, bind_eq_ok]
  constructor
  · rintro ⟨constant, found, same⟩
    cases constant with
    | cls text => exact ⟨text, found, same⟩
    | _ => cases same
  · rintro ⟨text, found, same⟩
    exact ⟨_, found, same⟩

theorem signature_eq_ok {signature : Signature} :
    pool.signature index = .ok signature ↔
      ∃ name descriptor, pool.entry index = .ok (.nameAndType name descriptor) ∧
        pool.utf8 name = .ok signature.name ∧
        pool.utf8 descriptor = .ok signature.descriptor := by
  rw [Pool.signature, bind_eq_ok]
  constructor
  · rintro ⟨constant, found, same⟩
    cases constant with
    | nameAndType name descriptor =>
      rcases bind_eq_ok.mp same with ⟨first, isFirst, rest⟩
      rcases bind_eq_ok.mp rest with ⟨second, isSecond, both⟩
      cases both
      exact ⟨name, descriptor, found, isFirst, isSecond⟩
    | _ => cases same
  · rintro ⟨name, descriptor, found, isFirst, isSecond⟩
    refine ⟨_, found, bind_eq_ok.mpr ⟨_, isFirst, bind_eq_ok.mpr ⟨_, isSecond, rfl⟩⟩⟩

/-- An entry that refers to a member of a class, by the class and the signature. -/
def RefersTo (owner signature : PoolIndex) (constant : Constant) : Prop :=
  constant = .fieldRef owner signature ∨
    ∃ ownerIsInterface, constant = .methodRef owner signature ownerIsInterface

/-- A member by the class that owns it and its signature. -/
def memberOf (pool : Pool) (owner signature : PoolIndex) : Except Fault Member := do
  let ⟨name, descriptor⟩ ← pool.signature signature
  return ⟨← pool.className owner, name, descriptor⟩

theorem memberOf_eq_ok {owner signature : PoolIndex} {member : Member} :
    pool.memberOf owner signature = .ok member ↔
      pool.signature signature = .ok ⟨member.name, member.descriptor⟩ ∧
        pool.className owner = .ok member.owner := by
  rw [memberOf, bind_eq_ok]
  constructor
  · rintro ⟨⟨name, descriptor⟩, isSignature, rest⟩
    rcases bind_eq_ok.mp rest with ⟨cls, isOwner, same⟩
    cases same
    exact ⟨isSignature, isOwner⟩
  · rintro ⟨isSignature, isOwner⟩
    exact ⟨_, isSignature, bind_eq_ok.mpr ⟨_, isOwner, rfl⟩⟩

theorem member_eq_ok {member : Member} :
    pool.member index = .ok member ↔
      ∃ constant owner signature, pool.entry index = .ok constant ∧
        RefersTo owner signature constant ∧
        pool.signature signature = .ok ⟨member.name, member.descriptor⟩ ∧
        pool.className owner = .ok member.owner := by
  rw [Pool.member, bind_eq_ok]
  constructor
  · rintro ⟨constant, found, same⟩
    cases constant with
    | fieldRef owner signature =>
      exact ⟨_, owner, signature, found, .inl rfl, memberOf_eq_ok.mp same⟩
    | methodRef owner signature ownerIsInterface =>
      exact ⟨_, owner, signature, found, .inr ⟨_, rfl⟩, memberOf_eq_ok.mp same⟩
    | _ => cases same
  · rintro ⟨_, owner, signature, found, rfl | ⟨ownerIsInterface, rfl⟩, parts⟩
    · exact ⟨_, found, memberOf_eq_ok.mpr parts⟩
    · exact ⟨_, found, memberOf_eq_ok.mpr parts⟩

/-- An entry that refers to a method of an interface. -/
def ofInterface : Constant → Bool
  | .methodRef _ _ ownerIsInterface => ownerIsInterface
  | _ => false

theorem ownerIsInterface_eq_ok {ownerIsInterface : Bool} :
    pool.ownerIsInterface index = .ok ownerIsInterface ↔
      ∃ constant, pool.entry index = .ok constant ∧ ofInterface constant = ownerIsInterface := by
  rw [Pool.ownerIsInterface, bind_eq_ok]
  constructor
  · rintro ⟨constant, found, same⟩
    refine ⟨constant, found, ?_⟩
    cases constant with
    | methodRef _ _ flag =>
      rw [← pure_eq_ok.mp same]
      cases flag <;> rfl
    | _ => exact pure_eq_ok.mp same
  · rintro ⟨constant, found, rfl⟩
    refine ⟨constant, found, ?_⟩
    cases constant with
    | methodRef _ _ flag => cases flag <;> rfl
    | _ => rfl

theorem handle_eq_ok {handle : Handle} :
    pool.handle index = .ok handle ↔
      ∃ member, pool.entry index = .ok (.methodHandle handle.kind member) ∧
        pool.ownerIsInterface member = .ok handle.ownerIsInterface ∧
        pool.member member = .ok ⟨handle.owner, handle.name, handle.descriptor⟩ := by
  rw [Pool.handle, bind_eq_ok]
  constructor
  · rintro ⟨constant, found, same⟩
    cases constant with
    | methodHandle kind member =>
      rcases bind_eq_ok.mp same with ⟨flag, isFlag, rest⟩
      rcases bind_eq_ok.mp rest with ⟨⟨owner, name, descriptor⟩, isMember, whole⟩
      cases whole
      exact ⟨member, found, isFlag, isMember⟩
    | _ => cases same
  · rintro ⟨member, found, isFlag, isMember⟩
    exact ⟨_, found, bind_eq_ok.mpr ⟨_, isFlag, bind_eq_ok.mpr ⟨_, isMember, rfl⟩⟩⟩

end

/-! ## Growth -/

/-- Entries and bootstrap methods were added at the end, or none were. -/
structure Extends (before after : Pool) : Prop where
  start_eq : after.constants.start = before.constants.start
  entries : before.entries <+: after.entries
  bootstraps : before.bootstraps.toList <+: after.bootstraps.toList

namespace Extends

variable {before between after : Pool} {index : PoolIndex}

theorem refl (pool : Pool) : Extends pool pool :=
  ⟨rfl, List.prefix_rfl, List.prefix_rfl⟩

theorem trans (first : Extends before between) (second : Extends between after) :
    Extends before after :=
  ⟨second.start_eq.trans first.start_eq, first.entries.trans second.entries,
    first.bootstraps.trans second.bootstraps⟩

theorem append (pool : Pool) (constant : Constant) : Extends pool (pool.append constant) := by
  refine ⟨rfl, ?_, List.prefix_rfl⟩
  simp [Pool.entries, Pool.append, SlotVector.push]

theorem appendBootstrap (pool : Pool) (method : BootstrapMethod) :
    Extends pool (pool.appendBootstrap method) := by
  refine ⟨rfl, List.prefix_rfl, ?_⟩
  simp [Pool.appendBootstrap]

/-- An index keeps its entry. -/
theorem entry (extends_ : Extends before after) {constant : Constant}
    (found : before.entry index = .ok constant) : after.entry index = .ok constant :=
  entry_eq_ok.mpr (extends_.entries.subset (entry_eq_ok.mp found))

theorem utf8 (extends_ : Extends before after) {text : String}
    (found : before.utf8 index = .ok text) : after.utf8 index = .ok text :=
  utf8_eq_ok.mpr (extends_.entry (utf8_eq_ok.mp found))

theorem className (extends_ : Extends before after) {name : String}
    (found : before.className index = .ok name) : after.className index = .ok name := by
  rcases className_eq_ok.mp found with ⟨text, isClass, isText⟩
  exact className_eq_ok.mpr ⟨text, extends_.entry isClass, extends_.utf8 isText⟩

theorem signature (extends_ : Extends before after) {signature : Signature}
    (found : before.signature index = .ok signature) : after.signature index = .ok signature := by
  rcases signature_eq_ok.mp found with ⟨name, descriptor, here, first, second⟩
  exact signature_eq_ok.mpr
    ⟨name, descriptor, extends_.entry here, extends_.utf8 first, extends_.utf8 second⟩

theorem member (extends_ : Extends before after) {member : Member}
    (found : before.member index = .ok member) : after.member index = .ok member := by
  rcases member_eq_ok.mp found with ⟨constant, owner, signature, here, refers, first, second⟩
  exact member_eq_ok.mpr ⟨constant, owner, signature, extends_.entry here, refers,
    extends_.signature first, extends_.className second⟩

theorem handle (extends_ : Extends before after) {handle : Handle}
    (found : before.handle index = .ok handle) : after.handle index = .ok handle := by
  rcases handle_eq_ok.mp found with ⟨member, here, isFlag, isMember⟩
  rcases ownerIsInterface_eq_ok.mp isFlag with ⟨constant, there, same⟩
  exact handle_eq_ok.mpr ⟨member, extends_.entry here,
    ownerIsInterface_eq_ok.mpr ⟨constant, extends_.entry there, same⟩, extends_.member isMember⟩

/-- A position of the bootstrap table keeps its method. -/
theorem bootstrap (extends_ : Extends before after) {position : Nat} {method : BootstrapMethod}
    (found : before.bootstraps[position]? = some method) :
    after.bootstraps[position]? = some method := by
  rw [← Array.getElem?_toList] at found ⊢
  rcases extends_.bootstraps with ⟨added, whole⟩
  rw [← whole, List.getElem?_append_left (List.getElem?_eq_some_iff.mp found).1]
  exact found

theorem size_le (extends_ : Extends before after) :
    before.bootstraps.size ≤ after.bootstraps.size :=
  extends_.bootstraps.length_le

theorem count_le (extends_ : Extends before after) : before.count ≤ after.count := by
  have here := before.constants.laid.stop_eq
  have there := after.constants.laid.stop_eq
  rcases extends_.entries with ⟨added, whole⟩
  change before.constants.cells.toList ++ added = after.constants.cells.toList at whole
  rw [← whole, List.map_append, Wide.total_append, extends_.start_eq, ← Nat.add_assoc, ← here] at there
  exact Nat.le.intro there.symm

end Extends

/-! ## One entry -/

section

variable {before after : Pool}

/-- The entry that answers for its equals goes on doing so. -/
theorem Extends.slot (extends_ : Extends before after) {constant : Constant} {slot : PoolIndex}
    (found : before.slots[constant]? = some slot) : after.slots[constant]? = some slot := by
  rw [slots_eq, SlotVector.slotOf?, Option.map_eq_some_iff] at found ⊢
  rcases found with ⟨cell, first, same⟩
  rcases extends_.entries with ⟨added, whole⟩
  refine ⟨cell, ?_, same⟩
  change after.entries.find? _ = _
  rw [← whole, List.find?_append]
  change before.entries.find? _ = _ at first
  rw [first]
  rfl

theorem Extends.position (extends_ : Extends before after) {method : BootstrapMethod}
    {position : Nat} (found : before.positions[method]? = some position) :
    after.positions[method]? = some position := by
  rw [positions_eq] at found ⊢
  rcases extends_.bootstraps with ⟨added, whole⟩
  rw [← whole, List.findIdx?_append, found]
  rfl

theorem mem_entries_of_slot {pool : Pool} {constant : Constant} {slot : PoolIndex}
    (found : pool.slots[constant]? = some slot) : (slot, constant) ∈ pool.entries := by
  rw [slots_eq, SlotVector.slotOf?, Option.map_eq_some_iff] at found
  rcases found with ⟨cell, first, rfl⟩
  have same := List.find?_some first
  rw [beq_iff_eq] at same
  rw [← same]
  exact List.mem_of_find?_eq_some first

theorem not_mem_of_slot_none {pool : Pool} {constant : Constant}
    (missing : pool.slots[constant]? = none) : constant ∉ pool.constants.toList := by
  rw [slots_eq, SlotVector.slotOf?, Option.map_eq_none_iff, List.find?_eq_none] at missing
  intro member
  rcases List.mem_map.mp member with ⟨cell, inside, rfl⟩
  exact missing cell inside (beq_self_eq_true _)

theorem slots_append {pool : Pool} {constant : Constant}
    (missing : pool.slots[constant]? = none) :
    (pool.append constant).slots[constant]? = some pool.constants.stop := by
  rw [slots_eq] at missing ⊢
  change (pool.constants.push constant).slotOf? constant = _
  rw [SlotVector.slotOf_push, missing]
  simp

/-- The hash map is only there for speed. -/
theorem intern_eq (constant : Constant) : intern constant = fun pool =>
    match pool.constants.slotOf? constant with
    | some slot => (slot, pool)
    | none => (pool.constants.stop, pool.append constant) := by
  funext pool
  rw [intern, slots_eq]
  rfl

theorem run_intern_of_some {pool : Pool} {constant : Constant} {slot : PoolIndex}
    (found : pool.slots[constant]? = some slot) : (intern constant).run pool = (slot, pool) := by
  simp only [intern, StateT.run, found]

theorem run_intern_of_none {pool : Pool} {constant : Constant}
    (missing : pool.slots[constant]? = none) :
    (intern constant).run pool = (pool.constants.stop, pool.append constant) := by
  simp only [intern, StateT.run, missing]

/-- What is known of a pool after an entry was asked for, whether it was there
or not: the entry is found, and asking again changes nothing. -/
theorem intern_spec (pool : Pool) (constant : Constant) :
    ∃ index after, (intern constant).run pool = (index, after) ∧
      (after = pool ∨ constant ∉ pool.constants.toList ∧ after = pool.append constant) ∧
      after.entry index = .ok constant ∧
      ∀ later, Extends after later → (intern constant).run later = (index, later) := by
  cases found : pool.slots[constant]? with
  | some index =>
    exact ⟨index, pool, run_intern_of_some found, .inl rfl,
      entry_eq_ok.mpr (mem_entries_of_slot found),
      fun _ grown => run_intern_of_some (grown.slot found)⟩
  | none =>
    have added := slots_append found
    exact ⟨_, _, run_intern_of_none found, .inr ⟨not_mem_of_slot_none found, rfl⟩,
      entry_eq_ok.mpr (mem_entries_of_slot added),
      fun _ grown => run_intern_of_some (grown.slot added)⟩

end

end Pool
end ClassFile
