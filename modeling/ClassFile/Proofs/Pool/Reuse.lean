import ClassFile.Proofs.Pool.Requests

namespace ClassFile
namespace Pool

/-!
# Which entries are found again

Entries are looked up whole, and a composite entry consists of the indices of its parts.  So
asking for it by its texts asks for the parts first, and gets the first of all entries that
are equal to each.  An entry that refers to later copies of its parts is passed over, and
one that refers to the first of them is added.
-/

variable {pool : Pool}

/-! ## The first of equal entries -/

/-- No entry that is equal to this one comes before it. -/
def IsFirst (pool : Pool) (index : PoolIndex) (constant : Constant) : Prop :=
  pool.entry index = .ok constant ∧ ∀ other, pool.entry other = .ok constant → index ≤ other

/-- Lookups find the first entry. -/
theorem isFirst_of_slot {constant : Constant} {index : PoolIndex}
    (found : pool.slots[constant]? = some index) : pool.IsFirst index constant := by
  refine ⟨entry_eq_ok.mpr (mem_entries_of_slot found), fun other there => ?_⟩
  rw [slots_eq, SlotVector.slotOf?, Option.map_eq_some_iff] at found
  rcases found with ⟨cell, isFirst, rfl⟩
  rcases List.find?_eq_some_iff_append.mp isFirst with ⟨-, before, behind, whole, different⟩
  have sorted := pool.constants.laid.sorted fun cell _ => cell.2.width_pos
  rw [entry_eq_ok, entries, whole] at there
  rw [whole, List.pairwise_append, List.pairwise_cons] at sorted
  rcases List.mem_append.mp there with earlier | hereOrLater
  · have unequal := different _ earlier
    simp at unequal
  · rcases List.mem_cons.mp hereOrLater with rfl | later
    · exact Nat.le_refl _
    · exact Nat.le_of_lt (sorted.2.1.1 _ later)

theorem exists_slot {constant : Constant} {index : PoolIndex}
    (here : pool.entry index = .ok constant) : ∃ slot, pool.slots[constant]? = some slot := by
  cases found : pool.slots[constant]? with
  | none => exact absurd (List.mem_map_of_mem (entry_eq_ok.mp here)) (not_mem_of_slot_none found)
  | some slot => exact ⟨slot, rfl⟩

theorem slot_eq_some_iff {constant : Constant} {index : PoolIndex} :
    pool.slots[constant]? = some index ↔ pool.IsFirst index constant := by
  constructor
  · exact isFirst_of_slot
  · rintro ⟨here, least⟩
    rcases exists_slot here with ⟨slot, found⟩
    rcases isFirst_of_slot found with ⟨there, least'⟩
    rw [found, Nat.le_antisymm (least' index here) (least slot there)]

/-- At every level, an entry refers to the first of equal entries. -/
inductive MadeOfFirsts (pool : Pool) : PoolIndex → Prop
  | intro {index : PoolIndex} (constant : Constant) (here : pool.entry index = .ok constant)
      (firsts : ∀ reference ∈ constant.references, ∃ part, pool.IsFirst reference.1 part)
      (deeper : ∀ reference ∈ constant.references, MadeOfFirsts pool reference.1) :
      MadeOfFirsts pool index

theorem madeOfFirsts_iff {index : PoolIndex} {constant : Constant}
    (here : pool.entry index = .ok constant) : pool.MadeOfFirsts index ↔
      ∀ reference ∈ constant.references,
        (∃ part, pool.IsFirst reference.1 part) ∧ pool.MadeOfFirsts reference.1 := by
  constructor
  · rintro ⟨_, there, firsts, deeper⟩ reference member
    cases here.symm.trans there
    exact ⟨firsts reference member, deeper reference member⟩
  · intro each
    exact .intro constant here (fun reference member => (each reference member).1)
      fun reference member => (each reference member).2

theorem exists_isFirst_iff {index : PoolIndex} {constant : Constant}
    (here : pool.entry index = .ok constant) :
    (∃ other, pool.IsFirst index other) ↔ pool.IsFirst index constant := by
  constructor
  · rintro ⟨other, first⟩
    cases here.symm.trans first.1
    exact first
  · intro first
    exact ⟨constant, first⟩

/-! ## Single entries -/

theorem intern_run (pool : Pool) (constant : Constant) :
    Extends pool ((intern constant).run pool).2 ∧
      ((intern constant).run pool).2.entry ((intern constant).run pool).1 = .ok constant := by
  rcases intern_spec pool constant with ⟨index, after, run, kept, here, -⟩
  rw [run]
  refine ⟨?_, here⟩
  rcases kept with rfl | ⟨-, rfl⟩
  · exact .refl _
  · exact .append pool constant

theorem run_stateM_bind {α β : Type} (first : StateM Pool α) (next : α → StateM Pool β) (pool : Pool) :
    (first >>= next).run pool = (next (first.run pool).1).run (first.run pool).2 :=
  rfl

theorem length_intern {constant : Constant} (missing : pool.slots[constant]? = none) :
    pool.entries.length < ((intern constant).run pool).2.entries.length := by
  rw [run_intern_of_none missing]
  simp [entries, append, SlotVector.push]

/-! ## Entries made of others -/

/-- How an entry is made of texts. -/
inductive Recipe
  | text (spelled : String)
  | one (make : PoolIndex → Constant) (kind : EntryKind)
      (refers : ∀ index, (make index).references = [(index, kind)]) (part : Recipe)
  | two (make : PoolIndex → PoolIndex → Constant) (kind kind' : EntryKind)
      (refers : ∀ index index', (make index index').references = [(index, kind), (index', kind')])
      (part part' : Recipe)

namespace Recipe

/-- Ask for the parts and then for the entry. -/
def add : Recipe → StateM Pool PoolIndex
  | .text spelled => addUtf8 spelled
  | one make _ _ part => do intern (make (← part.add))
  | two make _ _ _ part part' => do intern (make (← part.add) (← part'.add))

/-- An entry that is made in this way, of whichever copies of its parts. -/
def StandsAt (pool : Pool) : Recipe → PoolIndex → Prop
  | .text spelled, index => pool.utf8 index = .ok spelled
  | one make _ _ part, index => ∃ below, pool.entry index = .ok (make below) ∧ part.StandsAt pool below
  | two make _ _ _ part part', index => ∃ below below',
    pool.entry index = .ok (make below below') ∧ part.StandsAt pool below ∧ part'.StandsAt pool below'

/-- The entry that is found without adding any. -/
def find? (pool : Pool) : Recipe → Option PoolIndex
  | .text spelled => pool.slots[Constant.utf8 spelled]?
  | one make _ _ part => (part.find? pool).bind fun below => pool.slots[make below]?
  | two make _ _ _ part part' => (part.find? pool).bind fun below =>
    (part'.find? pool).bind fun below' => pool.slots[make below below']?

/-! ## What a request does -/

theorem StandsAt.grow {before after : Pool} (grown : Extends before after) {recipe : Recipe}
    {index : PoolIndex} (stands : recipe.StandsAt before index) : recipe.StandsAt after index := by
  induction recipe generalizing index with
  | text spelled => exact grown.utf8 stands
  | one make kind refers part ih =>
    rcases stands with ⟨below, here, isPart⟩
    exact ⟨below, grown.entry here, ih isPart⟩
  | two make kind kind' refers part part' ih ih' =>
    rcases stands with ⟨below, below', here, isPart, isPart'⟩
    exact ⟨below, below', grown.entry here, ih isPart, ih' isPart'⟩

/-- The entry is there afterwards, whatever the pool had before. -/
theorem add_run (recipe : Recipe) (pool : Pool) :
    Extends pool (recipe.add.run pool).2 ∧
      recipe.StandsAt (recipe.add.run pool).2 (recipe.add.run pool).1 := by
  induction recipe generalizing pool with
  | text spelled =>
    rcases intern_run pool (.utf8 spelled) with ⟨grown, here⟩
    exact ⟨grown, utf8_eq_ok.mpr here⟩
  | one make kind refers part ih =>
    rcases ih pool with ⟨grown, isPart⟩
    rw [add, run_stateM_bind]
    rcases intern_run (part.add.run pool).2 (make (part.add.run pool).1) with ⟨grown', here⟩
    exact ⟨grown.trans grown', _, here, isPart.grow grown'⟩
  | two make kind kind' refers part part' ih ih' =>
    rcases ih pool with ⟨grown, isPart⟩
    rw [add, run_stateM_bind, run_stateM_bind]
    generalize part.add.run pool = first at grown isPart
    rcases ih' first.2 with ⟨grown', isPart'⟩
    generalize part'.add.run first.2 = second at grown' isPart'
    rcases intern_run second.2 (make first.1 second.1) with ⟨grown'', here⟩
    exact ⟨(grown.trans grown').trans grown'', _, _, here, isPart.grow (grown'.trans grown''),
      isPart'.grow grown''⟩

/-- A request for what is there changes nothing. -/
theorem add_run_of_some {recipe : Recipe} {index : PoolIndex}
    (found : recipe.find? pool = some index) : recipe.add.run pool = (index, pool) := by
  induction recipe generalizing index with
  | text spelled => exact run_intern_of_some found
  | one make kind refers part ih =>
    rcases Option.bind_eq_some_iff.mp found with ⟨below, isPart, whole⟩
    rw [add, run_stateM_bind, ih isPart]
    exact run_intern_of_some whole
  | two make kind kind' refers part part' ih ih' =>
    rcases Option.bind_eq_some_iff.mp found with ⟨below, isPart, found⟩
    rcases Option.bind_eq_some_iff.mp found with ⟨below', isPart', whole⟩
    rw [add, run_stateM_bind, ih isPart, run_stateM_bind, ih' isPart']
    exact run_intern_of_some whole

/-- What is not there is added. -/
theorem add_run_of_none {recipe : Recipe} (missing : recipe.find? pool = none) :
    pool.entries.length < (recipe.add.run pool).2.entries.length := by
  induction recipe with
  | text spelled => exact length_intern missing
  | one make kind refers part ih =>
    rw [add, run_stateM_bind]
    rw [find?] at missing
    cases found : part.find? pool with
    | none => exact Nat.lt_of_lt_of_le (ih found) (intern_run _ _).1.entries.length_le
    | some below =>
      rw [found] at missing
      rw [add_run_of_some found]
      exact length_intern missing
  | two make kind kind' refers part part' ih ih' =>
    rw [add, run_stateM_bind, run_stateM_bind]
    rw [find?] at missing
    cases found : part.find? pool with
    | none =>
      refine Nat.lt_of_lt_of_le (ih found) ?_
      exact ((part'.add_run _).1.trans (intern_run _ _).1).entries.length_le
    | some below =>
      rw [found, Option.bind_some] at missing
      rw [add_run_of_some found]
      cases found' : part'.find? pool with
      | none => exact Nat.lt_of_lt_of_le (ih' found') (intern_run _ _).1.entries.length_le
      | some below' =>
        rw [found'] at missing
        rw [add_run_of_some found']
        exact length_intern missing

/-! ## What is found -/

/-- What is found is an entry made of the first of equal parts, and the first of those
that are equal to it. -/
theorem find?_eq_some_iff {recipe : Recipe} {index : PoolIndex} :
    recipe.find? pool = some index ↔ recipe.StandsAt pool index ∧ pool.MadeOfFirsts index ∧
      ∃ constant, pool.IsFirst index constant := by
  induction recipe generalizing index with
  | text spelled =>
    rw [find?, slot_eq_some_iff, StandsAt, utf8_eq_ok]
    constructor
    · intro first
      exact ⟨first.1, (madeOfFirsts_iff first.1).mpr (List.forall_mem_nil _), _, first⟩
    · rintro ⟨here, -, first⟩
      exact (exists_isFirst_iff here).mp first
  | one make kind refers part ih =>
    simp only [find?, Option.bind_eq_some_iff, slot_eq_some_iff, ih]
    constructor
    · rintro ⟨below, ⟨isPart, deep, firstPart⟩, first⟩
      refine ⟨⟨below, first.1, isPart⟩, (madeOfFirsts_iff first.1).mpr ?_, _, first⟩
      rw [refers, List.forall_mem_singleton]
      exact ⟨firstPart, deep⟩
    · rintro ⟨⟨below, here, isPart⟩, deep, first⟩
      rw [madeOfFirsts_iff here, refers, List.forall_mem_singleton] at deep
      exact ⟨below, ⟨isPart, deep.2, deep.1⟩, (exists_isFirst_iff here).mp first⟩
  | two make kind kind' refers part part' ih ih' =>
    simp only [find?, Option.bind_eq_some_iff, slot_eq_some_iff, ih, ih']
    constructor
    · rintro ⟨below, ⟨isPart, deep, firstPart⟩, below', ⟨isPart', deep', firstPart'⟩, first⟩
      refine ⟨⟨below, below', first.1, isPart, isPart'⟩, (madeOfFirsts_iff first.1).mpr ?_, _, first⟩
      rw [refers, List.forall_mem_cons, List.forall_mem_singleton]
      exact ⟨⟨firstPart, deep⟩, firstPart', deep'⟩
    · rintro ⟨⟨below, below', here, isPart, isPart'⟩, deep, first⟩
      rw [madeOfFirsts_iff here, refers, List.forall_mem_cons, List.forall_mem_singleton] at deep
      exact ⟨below, ⟨isPart, deep.1.2, deep.1.1⟩, below', ⟨isPart', deep.2.2, deep.2.1⟩,
        (exists_isFirst_iff here).mp first⟩

theorem StandsAt.exists_entry {recipe : Recipe} {index : PoolIndex}
    (stands : recipe.StandsAt pool index) : ∃ constant, pool.entry index = .ok constant := by
  cases recipe with
  | text spelled => exact ⟨_, utf8_eq_ok.mp stands⟩
  | one make kind refers part =>
    rcases stands with ⟨below, here, -⟩
    exact ⟨_, here⟩
  | two make kind kind' refers part part' =>
    rcases stands with ⟨below, below', here, -⟩
    exact ⟨_, here⟩

/-- Equal entries are made of the same parts. -/
theorem StandsAt.of_entry {recipe : Recipe} {index other : PoolIndex}
    (stands : recipe.StandsAt pool index) (same : pool.entry other = pool.entry index) :
    recipe.StandsAt pool other := by
  cases recipe with
  | text spelled => exact utf8_eq_ok.mpr (same.trans (utf8_eq_ok.mp stands))
  | one make kind refers part =>
    rcases stands with ⟨below, here, isPart⟩
    exact ⟨below, same.trans here, isPart⟩
  | two make kind kind' refers part part' =>
    rcases stands with ⟨below, below', here, parts⟩
    exact ⟨below, below', same.trans here, parts⟩

/-- Wherever an entry is made of the first of equal parts, the first of its equals is found. -/
theorem find?_of_standsAt {recipe : Recipe} {place : PoolIndex}
    (stands : recipe.StandsAt pool place) (made : pool.MadeOfFirsts place) :
    ∃ index constant, recipe.find? pool = some index ∧ pool.IsFirst index constant ∧
      pool.entry place = .ok constant := by
  rcases stands.exists_entry with ⟨constant, here⟩
  rcases exists_slot here with ⟨index, found⟩
  have first := isFirst_of_slot found
  have same := first.1.trans here.symm
  refine ⟨index, constant, find?_eq_some_iff.mpr ⟨stands.of_entry same, ?_, _, first⟩, first, here⟩
  rw [madeOfFirsts_iff here] at made
  exact (madeOfFirsts_iff first.1).mpr made

/-- A request finds just the entries that are made of the first of equal parts. -/
theorem add_finds (recipe : Recipe) (pool : Pool) :
    ((recipe.add.run pool).2 = pool ↔
        ∃ place, recipe.StandsAt pool place ∧ pool.MadeOfFirsts place) ∧
      ∀ place constant, recipe.StandsAt pool place → pool.MadeOfFirsts place →
        pool.entry place = .ok constant → pool.IsFirst (recipe.add.run pool).1 constant := by
  have known : ∀ place, recipe.StandsAt pool place → pool.MadeOfFirsts place →
      (recipe.add.run pool).2 = pool ∧
        ∃ constant, pool.IsFirst (recipe.add.run pool).1 constant ∧
          pool.entry place = .ok constant := by
    intro place stands made
    rcases find?_of_standsAt stands made with ⟨index, constant, found, first, here⟩
    rw [add_run_of_some found]
    exact ⟨rfl, constant, first, here⟩
  refine ⟨⟨fun same => ?_, ?_⟩, fun place constant stands made here => ?_⟩
  · cases found : recipe.find? pool with
    | none =>
      have grown := add_run_of_none found
      rw [same] at grown
      exact absurd grown (Nat.lt_irrefl _)
    | some index =>
      rcases find?_eq_some_iff.mp found with ⟨stands, made, -⟩
      exact ⟨index, stands, made⟩
  · rintro ⟨place, stands, made⟩
    exact (known place stands made).1
  · rcases known place stands made with ⟨-, _, first, there⟩
    cases here.symm.trans there
    exact first

end Recipe

/-! ## Pools without copies -/

section

variable (distinct : pool.constants.toList.Nodup)
include distinct

theorem isFirst_of_nodup {index : PoolIndex} {constant : Constant}
    (here : pool.entry index = .ok constant) : pool.IsFirst index constant := by
  refine ⟨here, fun other there => ?_⟩
  rw [entry_eq_ok] at here there
  have same : (index, constant) = (other, constant) :=
    List.inj_on_of_nodup_map distinct here there rfl
  exact Nat.le_of_eq (Prod.mk.inj same).1

theorem Recipe.StandsAt.isFirst {recipe : Recipe} {index : PoolIndex}
    (stands : recipe.StandsAt pool index) : ∃ constant, pool.IsFirst index constant := by
  rcases stands.exists_entry with ⟨constant, here⟩
  exact ⟨constant, isFirst_of_nodup distinct here⟩

theorem Recipe.StandsAt.madeOfFirsts {recipe : Recipe} {index : PoolIndex}
    (stands : recipe.StandsAt pool index) : pool.MadeOfFirsts index := by
  induction recipe generalizing index with
  | text spelled =>
    exact (madeOfFirsts_iff (utf8_eq_ok.mp stands)).mpr (List.forall_mem_nil _)
  | one make kind refers part ih =>
    rcases stands with ⟨below, here, isPart⟩
    rw [madeOfFirsts_iff here, refers, List.forall_mem_singleton]
    exact ⟨isPart.isFirst distinct, ih isPart⟩
  | two make kind kind' refers part part' ih ih' =>
    rcases stands with ⟨below, below', here, isPart, isPart'⟩
    rw [madeOfFirsts_iff here, refers, List.forall_mem_cons, List.forall_mem_singleton]
    exact ⟨⟨isPart.isFirst distinct, ih isPart⟩, isPart'.isFirst distinct, ih' isPart'⟩

end

/-! ## Symbols -/

/-- An entry that is asked for by its texts. -/
inductive Symbol
  | cls (name : String)
  | string (text : String)
  | nameAndType (name descriptor : String)
  | fieldRef (owner name descriptor : String)
  | methodRef (owner name descriptor : String) (ownerIsInterface : Bool)
  | methodType (descriptor : String)

namespace Symbol

def add : Symbol → StateM Pool PoolIndex
  | cls name => addClass name
  | string text => addString text
  | nameAndType name descriptor => addNameAndType name descriptor
  | fieldRef owner name descriptor => addFieldRef owner name descriptor
  | methodRef owner name descriptor ownerIsInterface =>
    addMethodRef owner name descriptor ownerIsInterface
  | methodType descriptor => addMethodType descriptor

/-- The entry at an index is of this kind and resolves to these texts. -/
def StandsAt (pool : Pool) : Symbol → PoolIndex → Prop
  | cls name, index => pool.className index = .ok name
  | string text, index =>
    ∃ utf8, pool.entry index = .ok (.string utf8) ∧ pool.utf8 utf8 = .ok text
  | nameAndType name descriptor, index => pool.signature index = .ok ⟨name, descriptor⟩
  | fieldRef owner name descriptor, index =>
    pool.member index = .ok ⟨owner, name, descriptor⟩ ∧
      ∃ cls signature, pool.entry index = .ok (.fieldRef cls signature)
  | methodRef owner name descriptor ownerIsInterface, index =>
    pool.member index = .ok ⟨owner, name, descriptor⟩ ∧
      ∃ cls signature, pool.entry index = .ok (.methodRef cls signature ownerIsInterface)
  | methodType descriptor, index =>
    ∃ utf8, pool.entry index = .ok (.methodType utf8) ∧ pool.utf8 utf8 = .ok descriptor

/-- A class by its name. -/
def owning (name : String) : Recipe :=
  .one .cls .text (fun _ => rfl) (.text name)

def signed (name descriptor : String) : Recipe :=
  .two .nameAndType .text .text (fun _ _ => rfl) (.text name) (.text descriptor)

def recipe : Symbol → Recipe
  | cls name => owning name
  | string text => .one .string .text (fun _ => rfl) (.text text)
  | nameAndType name descriptor => signed name descriptor
  | fieldRef owner name descriptor =>
    .two .fieldRef .cls .signature (fun _ _ => rfl) (owning owner) (signed name descriptor)
  | methodRef owner name descriptor ownerIsInterface =>
    .two (.methodRef · · ownerIsInterface) .cls .signature (fun _ _ => rfl) (owning owner)
      (signed name descriptor)
  | methodType descriptor => .one .methodType .text (fun _ => rfl) (.text descriptor)

theorem add_recipe (symbol : Symbol) : symbol.recipe.add = symbol.add := by
  cases symbol <;> rfl

theorem standsAt_owning {name : String} {index : PoolIndex} :
    (owning name).StandsAt pool index ↔ pool.className index = .ok name :=
  className_eq_ok.symm

theorem standsAt_signed {name descriptor : String} {index : PoolIndex} :
    (signed name descriptor).StandsAt pool index ↔
      pool.signature index = .ok ⟨name, descriptor⟩ := by
  rw [signature_eq_ok]
  rfl

/-- A member by the entries that refer to one another. -/
theorem member_iff_of_entry {index cls signature : PoolIndex} {constant : Constant} {member : Member}
    (here : pool.entry index = .ok constant) (refers : RefersTo cls signature constant) :
    pool.member index = .ok member ↔ pool.className cls = .ok member.owner ∧
      pool.signature signature = .ok ⟨member.name, member.descriptor⟩ := by
  rw [Pool.member, here]
  rcases refers with rfl | ⟨ownerIsInterface, rfl⟩
  · exact memberOf_eq_ok.trans and_comm
  · exact memberOf_eq_ok.trans and_comm

theorem standsAt_recipe {symbol : Symbol} {index : PoolIndex} :
    symbol.recipe.StandsAt pool index ↔ symbol.StandsAt pool index := by
  cases symbol with
  | cls name => exact standsAt_owning
  | string text => rfl
  | nameAndType name descriptor => exact standsAt_signed
  | methodType descriptor => rfl
  | fieldRef owner name descriptor =>
    simp only [recipe, Recipe.StandsAt, standsAt_owning, standsAt_signed, StandsAt]
    constructor
    · rintro ⟨cls, signature, here, parts⟩
      exact ⟨(member_iff_of_entry here (.inl rfl)).mpr parts, cls, signature, here⟩
    · rintro ⟨isMember, cls, signature, here⟩
      exact ⟨cls, signature, here, (member_iff_of_entry here (.inl rfl)).mp isMember⟩
  | methodRef owner name descriptor ownerIsInterface =>
    simp only [recipe, Recipe.StandsAt, standsAt_owning, standsAt_signed, StandsAt]
    constructor
    · rintro ⟨cls, signature, here, parts⟩
      exact ⟨(member_iff_of_entry here (.inr ⟨_, rfl⟩)).mpr parts, cls, signature, here⟩
    · rintro ⟨isMember, cls, signature, here⟩
      exact ⟨cls, signature, here, (member_iff_of_entry here (.inr ⟨_, rfl⟩)).mp isMember⟩

/-- Asking for an entry gives one that resolves to the texts asked for.  It adds none just
where there is one that refers, at every level, to the first of equal entries, and then it
gives the first of those that are equal to that one. -/
theorem add_reuses (pool : Pool) (symbol : Symbol) :
    symbol.StandsAt (symbol.add.run pool).2 (symbol.add.run pool).1 ∧
      Extends pool (symbol.add.run pool).2 ∧
      ((symbol.add.run pool).2 = pool ↔
        ∃ place, symbol.StandsAt pool place ∧ pool.MadeOfFirsts place) ∧
      ∀ place constant, symbol.StandsAt pool place → pool.MadeOfFirsts place →
        pool.entry place = .ok constant → pool.IsFirst (symbol.add.run pool).1 constant := by
  rw [← add_recipe]
  simp only [← standsAt_recipe]
  exact ⟨(symbol.recipe.add_run pool).2, (symbol.recipe.add_run pool).1,
    symbol.recipe.add_finds pool⟩

/-- Where no entries are equal, asking for what is there gives just that. -/
theorem add_run_of_nodup (distinct : pool.constants.toList.Nodup) {symbol : Symbol}
    {place : PoolIndex} (stands : symbol.StandsAt pool place) :
    symbol.add.run pool = (place, pool) := by
  rw [← standsAt_recipe] at stands
  rw [← add_recipe]
  apply Recipe.add_run_of_some
  exact Recipe.find?_eq_some_iff.mpr ⟨stands, stands.madeOfFirsts distinct, stands.isFirst distinct⟩

/-- A class with the name `A` that refers to the second of two equal texts. -/
def secondCopy : Pool :=
  ofLists [.utf8 "A", .utf8 "A", .cls 2] []

theorem entries_secondCopy : secondCopy.entries = [(1, .utf8 "A"), (2, .utf8 "A"), (3, .cls 2)] :=
  rfl

/-- The class is there, and asking for it adds another one. -/
theorem add_secondCopy : StandsAt secondCopy (.cls "A") 3 ∧
    (add (.cls "A")).run secondCopy = (4, secondCopy.append (.cls 1)) := by
  have text : ∀ index, secondCopy.utf8 index = .ok "A" ↔ index = 1 ∨ index = 2 := by
    intro index
    rw [utf8_eq_ok, entry_eq_ok, entries_secondCopy]
    simp
  have cls : ∀ index below, secondCopy.entry index = .ok (.cls below) ↔ index = 3 ∧ below = 2 := by
    intro index below
    rw [entry_eq_ok, entries_secondCopy]
    simp
  have first : secondCopy.slots[Constant.utf8 "A"]? = some 1 := by
    rw [slot_eq_some_iff]
    refine ⟨utf8_eq_ok.mp ((text 1).mpr (.inl rfl)), fun other there => ?_⟩
    rcases (text other).mp (utf8_eq_ok.mpr there) with rfl | rfl
    · exact Nat.le_refl 1
    · exact Nat.le_succ 1
  have missing : secondCopy.slots[Constant.cls 1]? = none := by
    rw [Option.eq_none_iff_forall_ne_some]
    intro index found
    cases ((cls index 1).mp (slot_eq_some_iff.mp found).1).2
  refine ⟨className_eq_ok.mpr ⟨2, (cls 3 2).mpr ⟨rfl, rfl⟩, (text 2).mpr (.inr rfl)⟩, ?_⟩
  have named : (addUtf8 "A").run secondCopy = (1, secondCopy) := run_intern_of_some first
  rw [add, addClass, run_stateM_bind, named]
  exact run_intern_of_none missing

end Symbol
end Pool
end ClassFile
