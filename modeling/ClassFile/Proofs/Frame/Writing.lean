import ClassFile.Proofs.Frame.Sites
import ClassFile.Proofs.Frame.StackMaps

namespace ClassFile

/-!
# When stack maps are written

Frames whose sites have offsets become the entries of a stack map.  Writing these only
fails where a class stands so far behind in the pool that its index does not fit: an
entry was chosen so that its counts do.
-/

/-- The computation fails, if at all, since an index does not fit in 16 bits. -/
def FailsWide {α : Type} (result : Except Fault α) : Prop :=
  ∀ fault, result = .error fault → ∃ index, 65536 ≤ index ∧ fault = .codec (.wideIndex index)

namespace FailsWide

variable {α β : Type}

theorem ok (value : α) : FailsWide (.ok value) := by
  rintro fault ⟨⟩

theorem bind {first : Except Fault α} {next : α → Except Fault β} (start : FailsWide first)
    (onward : ∀ value, first = .ok value → FailsWide (next value)) :
    FailsWide (first >>= next) := by
  cases first with
  | ok value => exact onward value rfl
  | error fault =>
    rintro _ ⟨⟩
    exact start fault rfl

theorem map {first : Except Fault α} (start : FailsWide first) (change : α → β) :
    FailsWide (change <$> first) := by
  rw [map_eq_pure_bind]
  exact start.bind fun value _ => ok (change value)

theorem index (index : PoolIndex) : FailsWide (Encoding.index index) := by
  rw [Encoding.index]
  split
  · exact ok _
  · next large =>
    rintro _ ⟨⟩
    exact ⟨index, Nat.le_of_not_lt large, rfl⟩

variable {one : α → Except Fault Bytes} {parts : List α}

theorem each (every : ∀ part ∈ parts, FailsWide (one part)) : FailsWide (Encoding.each one parts) := by
  refine FailsWide.map ?_ List.flatten
  induction parts with
  | nil => exact ok []
  | cons part parts ih =>
    rw [List.forall_mem_cons] at every
    rw [List.mapM_cons]
    exact every.1.bind fun piece _ => (ih every.2).bind fun pieces _ => ok (piece :: pieces)

theorem sequence (short : parts.length < 65536) (every : ∀ part ∈ parts, FailsWide (one part)) :
    FailsWide (Encoding.sequence one parts) := by
  rw [Encoding.sequence, if_pos short]
  exact (each every).bind fun bytes _ => ok _

theorem type (type : VerificationType PoolIndex Nat) : FailsWide type.encode := by
  cases type with
  | object cls => exact (index cls).bind fun bytes _ => ok _
  | _ => exact ok _

theorem types (types : List (VerificationType PoolIndex Nat)) :
    FailsWide (Encoding.each VerificationType.encode types) :=
  each fun each _ => type each

end FailsWide

/-! ## Entries -/

namespace Frame

variable {κ υ : Type}

theorem length_gather_le (types : List (VerificationType κ υ)) :
    (gather types).length ≤ types.length := by
  fun_induction gather types with
  | case1 => exact Nat.le_refl _
  | case2 => exact Nat.le_refl _
  | case3 type next rest wide ih =>
    rw [List.length_cons, List.length_cons, List.length_cons]
    omega
  | case4 type next rest narrow ih =>
    rw [List.length_cons, List.length_cons]
    exact Nat.succ_le_succ ih

theorem length_entries_le (frame : Frame κ υ) : frame.entries.length ≤ frame.locals.length := by
  rw [entries, trim, List.length_reverse]
  calc (List.dropWhile isTop (gather frame.locals).reverse).length
      ≤ (gather frame.locals).reverse.length := (List.dropWhile_sublist isTop).length_le
    _ = (gather frame.locals).length := List.length_reverse
    _ ≤ frame.locals.length := length_gather_le _

theorem length_operands (frame : Frame κ υ) : frame.operands.length = frame.stack.length :=
  List.length_reverse

variable {frame : WrittenFrame}

theorem failsWide_fullEntry (locals : frame.locals.length < 65536)
    (stack : frame.stack.length < 65536) (delta : Nat) : FailsWide (frame.fullEntry delta).encode := by
  have entries := Nat.lt_of_le_of_lt frame.length_entries_le locals
  rw [fullEntry, StackMapEntry.encode]
  refine (FailsWide.sequence entries fun type _ => .type type).bind fun front _ => ?_
  refine (FailsWide.sequence (frame.length_operands ▸ stack) fun type _ => .type type).bind
    fun back _ => ?_
  exact .ok _

/-- The entry that is chosen for a frame can be written. -/
theorem failsWide_entryAfter (locals : frame.locals.length < 65536)
    (stack : frame.stack.length < 65536) (previous : WrittenFrame) (delta : Nat) :
    FailsWide (frame.entryAfter previous delta).encode := by
  have full := failsWide_fullEntry locals stack delta
  rw [entryAfter]
  split
  · split
    · exact .ok _
    split
    · next fewer =>
      rw [StackMapEntry.encode, if_pos (by omega)]
      exact .ok _
    split
    · next more =>
      rw [StackMapEntry.encode, if_pos (by rw [List.length_drop]; omega)]
      exact (FailsWide.types _).bind fun bytes _ => .ok _
    · exact full
  · split
    · exact (FailsWide.type _).bind fun bytes _ => .ok _
    · exact full
  · exact full

/-- No entry is written for more operands than can be counted. -/
theorem length_stack_of_entryAfter {previous : WrittenFrame} {delta : Nat} {bytes : Bytes}
    (encoded : (frame.entryAfter previous delta).encode = .ok bytes) :
    frame.stack.length < 65536 := by
  have full : (frame.fullEntry delta).encode = .ok bytes → frame.stack.length < 65536 := by
    intro encoded
    obtain ⟨front, -, encoded⟩ := bind_eq_ok.1 encoded
    obtain ⟨back, counted, -⟩ := bind_eq_ok.1 encoded
    rw [← frame.length_operands]
    exact (Encoding.sequence_eq_ok.1 counted).1
  rw [entryAfter] at encoded
  split at encoded
  · next none => rw [none, List.length_nil]; omega
  · next one => rw [one, List.length_singleton]; omega
  · exact full encoded

end Frame

/-! ## The table -/

namespace StackMap

variable {method : MethodContext} {offsets : Array Nat} {frames : List (Nat × BlockFrame)}
  {before after : Assembler.State} {entries : List StackMapEntry}

/-- An entry is made from a frame with as many locals and operands. -/
def Shaped (placed : Nat × BlockFrame) (entry : StackMapEntry) : Prop :=
  ∃ (frame previous : WrittenFrame) (delta : Nat), entry = frame.entryAfter previous delta ∧
    frame.locals.length = placed.2.locals.length ∧ frame.stack.length = placed.2.stack.length

theorem entriesAfter_shaped {placed : List (Nat × WrittenFrame)} {made entries : Array StackMapEntry}
    {previous? : Option Nat} {previous : WrittenFrame}
    (each : List.Forall₂ (fun (frame : Nat × BlockFrame) (written : Nat × WrittenFrame) =>
      written.2.locals.length = frame.2.locals.length ∧
        written.2.stack.length = frame.2.stack.length) frames placed)
    (run : entriesAfter made previous? previous placed = .ok entries) :
    ∃ added, entries.toList = made.toList ++ added ∧ List.Forall₂ Shaped frames added := by
  induction each generalizing previous? previous made with
  | nil =>
    cases run
    exact ⟨[], (List.append_nil _).symm, .nil⟩
  | @cons frame written frames placed here _ ih =>
    rw [entriesAfter_cons] at run
    split at run
    · obtain ⟨added, whole, shaped⟩ := ih run
      refine ⟨written.2.entryAfter previous (deltaAfter previous? written.1) :: added, ?_,
        .cons ⟨written.2, previous, _, rfl, here.1, here.2⟩ shaped⟩
      rw [whole, Array.toList_push, List.append_assoc, List.singleton_append]
    · cases run

theorem FrameWritten.lengths {pool : Pool} {frame : BlockFrame} {written : WrittenFrame}
    (isWritten : FrameWritten offsets pool frame written) :
    written.locals.length = frame.locals.length ∧ written.stack.length = frame.stack.length := by
  obtain ⟨named, isNamed, -, rfl⟩ := isWritten
  obtain ⟨locals, areLocals, onward⟩ := bind_eq_ok.1 isNamed
  obtain ⟨operands, areOperands, last⟩ := bind_eq_ok.1 onward
  obtain rfl := pure_eq_ok.1 last
  rw [Frame.withClasses, List.length_map, List.length_map]
  constructor
  · exact (mapM_eq_ok.1 areLocals).length_eq.symm
  · rw [List.length_reverse, ← (mapM_eq_ok.1 areOperands).length_eq, frame.length_operands]

/-- The entries of a stack map are made from its frames. -/
theorem ofFrames_shaped (run : (ofFrames method offsets frames).run before = (.ok entries, after)) :
    List.Forall₂ Shaped frames entries := by
  obtain ⟨placed, between, isPlaced, onward⟩ := run_bind_eq_ok.1 run
  have lengths := (placedWritten_of_run isPlaced).2.imp fun _ _ here => FrameWritten.lengths here.2
  rw [run_get_bind] at onward
  obtain ⟨entry, _, -, onward⟩ := run_bind_eq_ok.1 onward
  obtain ⟨array, _, differs, last⟩ := run_bind_eq_ok.1 onward
  obtain ⟨isMade, rfl⟩ := run_lift_eq_ok.1 differs
  obtain ⟨rfl, rfl⟩ := run_pure_eq_ok.1 last
  obtain ⟨added, whole, shaped⟩ := entriesAfter_shaped lengths isMade
  rw [whole]
  exact shaped

/-- Frames with few locals and operands are written. -/
theorem failsWide_encodeTable (shaped : List.Forall₂ Shaped frames entries)
    (count : frames.length < 65536)
    (small : ∀ placed ∈ frames, placed.2.locals.length < 65536 ∧ placed.2.stack.length < 65536) :
    FailsWide (StackMapEntry.encodeTable entries) := by
  refine .sequence (shaped.length_eq ▸ count) fun entry member => ?_
  obtain ⟨placed, isPlaced, frame, previous, delta, rfl, locals, stack⟩ := forall₂_mem shaped member
  obtain ⟨fewLocals, fewOperands⟩ := small placed isPlaced
  exact frame.failsWide_entryAfter (locals ▸ fewLocals) (stack ▸ fewOperands) previous delta

/-- What was written has few operands. -/
theorem length_stack_of_encodeTable (shaped : List.Forall₂ Shaped frames entries) {bytes : Bytes}
    (encoded : StackMapEntry.encodeTable entries = .ok bytes) :
    ∀ placed ∈ frames, placed.2.stack.length < 65536 := by
  intro placed member
  obtain ⟨-, _, all, -⟩ := Encoding.sequence_eq_ok.1 encoded
  obtain ⟨pieces, each, -⟩ := Encoding.each_eq_ok.1 all
  obtain ⟨entry, isEntry, frame, previous, delta, rfl, -, stack⟩ := forall₂_mem shaped.flip member
  obtain ⟨piece, -, written⟩ := forall₂_mem each.flip isEntry
  rw [← stack]
  exact frame.length_stack_of_entryAfter written

/-! ## Making entries -/

/-- Sites that frames mention have offsets in the code. -/
def Located (offsets : Array Nat) (frame : BlockFrame) : Prop :=
  ∀ site, frame.Mentions site → ∃ offset, offsets[site]? = some offset ∧ offset < 65536

theorem exists_run_mapM {α β ε σ : Type} {step : α → ExceptT ε (StateM σ) β} {values : List α}
    (each : ∀ value ∈ values, ∀ now, ∃ result later, (step value).run now = (.ok result, later))
    (now : σ) : ∃ results later, (values.mapM step).run now = (.ok results, later) := by
  induction values generalizing now with
  | nil => exact ⟨[], now, rfl⟩
  | cons value values ih =>
    rw [List.forall_mem_cons] at each
    obtain ⟨result, between, first⟩ := each.1 now
    obtain ⟨results, later, rest⟩ := ih each.2 between
    rw [List.mapM_cons]
    exact ⟨_, later, run_bind_eq_ok.2 ⟨result, between, first,
      run_bind_eq_ok.2 ⟨results, later, rest, rfl⟩⟩⟩

theorem exists_run_writtenType {type : VerificationType String Nat}
    (located : ∀ site, type = .uninitialized site →
      ∃ offset, offsets[site]? = some offset ∧ offset < 65536) (now : Assembler.State) :
    ∃ written later, (writtenType offsets type).run now = (.ok written, later) := by
  cases type with
  | object name =>
    exact ⟨_, _, run_bind_eq_ok.2 ⟨_, _, run_symbol (Pool.addClass name) now, rfl⟩⟩
  | uninitialized site =>
    obtain ⟨offset, found, small⟩ := located site rfl
    refine ⟨.uninitialized offset, now, run_bind_eq_ok.2 ⟨offset, now, ?_, rfl⟩⟩
    refine run_lift_eq_ok.2 ⟨?_, rfl⟩
    rw [siteOffset, found]
    exact if_pos small
  | _ => exact ⟨_, now, rfl⟩

theorem exists_run_written {frame : BlockFrame} (located : Located offsets frame)
    (now : Assembler.State) :
    ∃ result later, (written offsets frame).run now = (.ok result, later) := by
  have each : ∀ types : List (VerificationType String Nat),
      (∀ type ∈ types, type ∈ frame.locals ∨ type ∈ frame.stack) → ∀ now : Assembler.State,
        ∃ results later, (types.mapM (writtenType offsets)).run now = (.ok results, later) := by
    intro types inside
    refine exists_run_mapM fun type member => exists_run_writtenType ?_
    rintro site rfl
    exact located site (inside _ member)
  obtain ⟨locals, between, first⟩ := each frame.locals (fun _ => .inl) now
  obtain ⟨operands, later, second⟩ :=
    each frame.operands (fun _ member => .inr (List.mem_reverse.1 member)) between
  exact ⟨_, later, run_bind_eq_ok.2 ⟨locals, between, first,
    run_bind_eq_ok.2 ⟨operands, later, second, rfl⟩⟩⟩

theorem exists_entriesAfter {placed : List (Nat × WrittenFrame)}
    (small : ∀ frame ∈ placed, frame.1 < 65536) (made : Array StackMapEntry)
    (previous? : Option Nat) (previous : WrittenFrame) :
    ∃ entries, entriesAfter made previous? previous placed = .ok entries := by
  induction placed generalizing made previous? previous with
  | nil => exact ⟨made, rfl⟩
  | cons first placed ih =>
    obtain ⟨offset, frame⟩ := first
    rw [List.forall_mem_cons] at small
    have delta : deltaAfter previous? offset < 65536 := by
      refine Nat.lt_of_le_of_lt ?_ small.1
      cases previous? with
      | none => exact Nat.le_refl _
      | some earlier =>
        rw [deltaAfter]
        omega
    rw [entriesAfter_cons, if_pos delta]
    exact ih small.2 _ _ _

/-- Frames become entries where their own offsets and those of their sites fit. -/
theorem exists_run_ofFrames (located : ∀ placed ∈ frames, Located offsets placed.2)
    (small : ∀ placed ∈ frames, placed.1 < 65536) (before : Assembler.State) :
    ∃ entries after, (ofFrames method offsets frames).run before = (.ok entries, after) := by
  have each : ∀ frame ∈ frames, ∀ now : Assembler.State, ∃ result later,
      (do return (frame.1, ← written offsets frame.2) : Assembler (Nat × WrittenFrame)).run now =
        (.ok result, later) := by
    intro frame member now
    obtain ⟨result, later, run⟩ := exists_run_written (located frame member) now
    exact ⟨_, later, run_bind_eq_ok.2 ⟨result, later, run, rfl⟩⟩
  obtain ⟨placed, between, isPlaced⟩ := exists_run_mapM each before
  have offsets_ : ∀ frame ∈ placed, frame.1 < 65536 := by
    intro written member
    obtain ⟨frame, isFrame, same, -⟩ := forall₂_mem (placedWritten_of_run isPlaced).2 member
    rw [same]
    exact small frame isFrame
  obtain ⟨array, isMade⟩ := exists_entriesAfter offsets_ #[] none
    (method.entryFrame.withClasses between.pool.classIndex)
  refine ⟨array.toList, between, run_bind_eq_ok.2 ⟨placed, between, isPlaced, ?_⟩⟩
  rw [run_get_bind]
  refine run_bind_eq_ok.2 ⟨_, between, run_lift_eq_ok.2 ⟨compared_entryFrame _ _ method, rfl⟩, ?_⟩
  exact run_bind_eq_ok.2 ⟨array, between, run_lift_eq_ok.2 ⟨isMade, rfl⟩, rfl⟩

end StackMap
end ClassFile
