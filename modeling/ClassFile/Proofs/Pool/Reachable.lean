import ClassFile.Proofs.Pool.Positions

namespace ClassFile

/-!
# Pools that can be reached

A pool starts with the entries and the bootstrap methods of a class file, or with none, and
things are added to it.  Of what it starts with, nothing is known: entries may stand twice, refer to
entries of a wrong kind or to none, and constants may be computed from themselves.

All the same, a value that was added is read back as it was asked for.  The entries it is made of
are equal to the ones that would have been added, whichever of them were there, and further
additions leave them alone.  What has to be small is the bootstrap table, since an entry has 16 bits
for a position.  It starts small, and no position past the last one is given out.
-/

namespace ClassImage

/-- A table has as many methods as a word counts, at most. -/
theorem length_of_readBootstraps {pool : Pool} {attributes : List Attribute}
    {methods : List BootstrapMethod} (read : readBootstraps pool attributes = .ok methods) :
    methods.length < 65536 := by
  change attributes.foldlM (bootstrapsAfter pool) [] = _ at read
  have start : ([] : List BootstrapMethod).length < 65536 := by decide
  generalize ([] : List BootstrapMethod) = already at read start
  induction attributes generalizing already with
  | nil =>
    cases read
    exact start
  | cons attr attributes ih =>
    rcases foldlM_cons_eq_ok.mp read with ⟨next, here, rest⟩
    refine ih next rest ?_
    rcases bind_eq_ok.mp here with ⟨name, -, isNext⟩
    split at isNext
    · rcases BootstrapMethod.takes_table.runOn isNext with ⟨bytes, -, -, encoded⟩
      have sequence := BootstrapMethod.encodeTable_eq_sequence.mp encoded
      exact (Encoding.sequence_eq_ok.mp sequence).1
    · cases isNext
      exact start

end ClassImage

namespace Pool

/-- The pool that a class file with the entries and the bootstrap methods of another pool
starts with. -/
def reread (pool : Pool) : Pool :=
  ofLists pool.constants.toList pool.bootstraps.toList

theorem size_reread (pool : Pool) : pool.reread.bootstraps.size = pool.bootstraps.size :=
  congrArg Array.size (bootstraps_ofLists pool.constants.toList pool.bootstraps.toList)

theorem Extends.reread {pool : Pool} (first : pool.constants.start = 1) :
    Extends pool pool.reread := by
  have same : pool.reread.constants = pool.constants := constants_ofLists first _
  have table : pool.reread.bootstraps = _ := bootstraps_ofLists _ pool.bootstraps.toList
  refine ⟨congrArg SlotVector.start same, ?_, ?_⟩
  · exact ⟨[], by rw [List.append_nil, Pool.entries, Pool.entries, same]⟩
  · exact ⟨[], by rw [List.append_nil, table]⟩

/-- A pool that starts with any entries and any table that positions reach, to which things were
added. -/
inductive Reachable : Pool → Prop
  | started (constants : List Constant) (bootstraps : List BootstrapMethod)
    (small : bootstraps.length ≤ 65536) : Reachable (ofLists constants bootstraps)
  | added {pool : Pool} (reachable : Reachable pool) (addition : Addition) :
    Reachable (addition.request.run pool).2

namespace Reachable

variable {pool : Pool}

theorem empty : Reachable empty :=
  .started [] [] (by decide)

/-- What a class file that is read without a fault starts with. -/
theorem of_parse {bytes : Bytes} {image : ClassImage}
    (parsed : ClassImage.parse bytes = .ok image) : Reachable image.pool := by
  rcases Transcript.parse_eq_ok.mp parsed with ⟨written, bootstraps, -, areBootstraps, rfl⟩
  exact .started _ bootstraps (Nat.le_of_lt (ClassImage.length_of_readBootstraps areBootstraps))

theorem addAll (reachable : pool.Reachable) (additions : List Addition) :
    (pool.addAll additions).Reachable := by
  induction additions generalizing pool with
  | nil => exact reachable
  | cons addition additions ih => exact ih (reachable.added addition)

theorem start_eq (reachable : pool.Reachable) : pool.constants.start = 1 := by
  induction reachable with
  | started constants bootstraps => exact start_ofLists constants bootstraps
  | @added pool _ addition ih => exact (addition.extends_run pool).1.start_eq.trans ih

theorem table_small (reachable : pool.Reachable) : pool.bootstraps.size ≤ 65536 := by
  induction reachable with
  | started constants bootstraps small =>
    rwa [bootstraps_ofLists, List.size_toArray]
  | @added pool _ addition ih =>
    have bounded := (addition.size_run_le pool).1
    rwa [Nat.max_eq_right ih] at bounded

/-- A value that was added is read back in its normal form, however much is added after it, also
from a class file with these entries. -/
theorem value_addLoadable (reachable : pool.Reachable) {value : Loadable} {index : PoolIndex}
    {after : Pool} (run : (addLoadable value).run pool = (.ok index, after))
    (more : List Addition) :
    (after.addAll more).value index = .ok value.normal ∧
      (after.addAll more).reread.value index = .ok value.normal := by
  have stands : after.Denotes value index := by
    rcases addLoadable_lasts value pool (.refl pool) with ⟨answer, grown, run', -, -, known⟩
    cases run'.symm.trans run
    exact (known index rfl).1
  have last : (after.addAll more).Reachable := by
    have here := reachable.added (.loadable value)
    rw [Addition.request, run] at here
    exact here.addAll more
  have lasting := (extends_addAll after more).1.denotes value stands
  refine ⟨value_of_denotes last.table_small lasting, value_of_denotes ?_ ?_⟩
  · rw [size_reread]
    exact last.table_small
  · exact (Extends.reread last.start_eq).denotes value lasting

/-- A value with another one among its arguments, added to a pool that has an entry twice.  A
string that is there and a bootstrap method are added after it. -/
theorem value_addLoadable_nested :
    let getter : Handle := ⟨.getField, "A", "f", "I", true⟩
    let maker : Handle := ⟨.invokeStatic, "A", "m", "()V", true⟩
    let inner := Loadable.dynamic "f" "I" maker [.short (-2), .boolean true, .handle getter]
    let outer := Loadable.dynamic "g" "J" maker [.byte (-1), inner, .char 65535, .float 0x7FC00001]
    let pool := ofLists [.utf8 "A", .utf8 "A"] []
    let more := [.loadable (.string "A"), .bootstrap getter [.type "Q"], .bootstrap getter []]
    ∃ index after, (addLoadable outer).run pool = (.ok index, after) ∧
      (after.addAll more).value index = .ok (.dynamic "g" "J" maker [.integer (-1),
        .dynamic "f" "I" maker
          [.integer (-2), .integer 1, .handle ⟨.getField, "A", "f", "I", false⟩],
        .integer 65535, .float 0x7FC00001]) := by
  intro getter maker inner outer pool more
  have good : outer.check = .ok () := rfl
  have room : pool.bootstraps.size + (Addition.loadable outer).positions ≤ 65536 := by decide
  rcases (Addition.loadable outer).atomic_of_room room with
    ⟨fault, bad, -⟩ | ⟨-, index, after, run⟩
  · cases good.symm.trans bad
  · have reachable : pool.Reachable := .started _ [] (by decide)
    exact ⟨index, after, run, (reachable.value_addLoadable run more).1⟩

end Reachable

end Pool
end ClassFile
