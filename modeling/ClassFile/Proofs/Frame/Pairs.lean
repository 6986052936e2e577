import Mathlib.Data.List.TakeWhile
import ClassFile.Proofs.Frame.Effects
import ClassFile.Proofs.Frame.Joining

namespace ClassFile

/-!
# Local variables of two slots

A wide local variable stands in two slots, and the second of them is unusable.
Stores and joins work slot by slot and know nothing of this, so it takes an
argument that they keep it.  Where it holds, the locals by value that class files
list are as good as the slots: the implicit ones can be put back.
-/

variable {κ υ : Type}

/-- The slot after every wide type is there and unusable. -/
def Paired (locals : List (VerificationType κ υ)) : Prop :=
  ∀ slot type, locals[slot]? = some type → type.width = 2 → locals[slot + 1]? = some .top

/-- A frame of a method with the given number of local variable slots. -/
structure Frame.Shaped (slots : Nat) (frame : Frame κ υ) : Prop where
  length : frame.locals.length = slots
  paired : Paired frame.locals

namespace Paired

variable {type : VerificationType κ υ} {locals rest : List (VerificationType κ υ)}

theorem nil : Paired ([] : List (VerificationType κ υ)) :=
  fun _ _ found => nomatch found

theorem narrow (paired : Paired rest) (isNarrow : type.width ≠ 2) : Paired (type :: rest) := by
  intro slot other found wide
  cases slot with
  | zero =>
    cases found
    exact absurd wide isNarrow
  | succ slot => exact paired slot other found wide

theorem wide (paired : Paired rest) : Paired (type :: .top :: rest) := by
  intro slot other found wide
  cases slot with
  | zero => rfl
  | succ slot =>
    have behind : Paired (.top :: rest) := paired.narrow nofun
    exact behind slot other found wide

theorem tail (paired : Paired (type :: rest)) : Paired rest :=
  fun slot => paired (slot + 1)

theorem append_tops (paired : Paired locals) (count : Nat) :
    Paired (locals ++ List.replicate count .top) := by
  intro slot type found wide
  by_cases inside : slot < locals.length
  · rw [List.getElem?_append_left inside] at found
    have next := paired slot type found wide
    have behind : slot + 1 < locals.length := (List.getElem?_eq_some_iff.1 next).1
    rw [List.getElem?_append_left behind, next]
  · rw [List.getElem?_append_right (Nat.not_lt.1 inside)] at found
    have isTop := List.eq_of_mem_replicate (List.mem_of_getElem? found)
    rw [isTop] at wide
    cases wide

/-- Making a slot unusable spoils at most the value that it was a part of. -/
theorem set_top (paired : Paired locals) (slot : Nat) : Paired (locals.set slot .top) := by
  intro other type found wide
  rw [List.getElem?_set] at found
  split at found
  · split at found
    · cases found
      cases wide
    · cases found
  · have next := paired other type found wide
    have behind := (List.getElem?_eq_some_iff.1 next).1
    rw [List.getElem?_set, next]
    split
    · next same => rw [if_pos (same ▸ behind)]
    · rfl

section

variable {slot : Nat}
  (free : ∀ below, below + 1 = slot → ∀ other, locals[below]? = some other → other.width ≠ 2)
include free

/-- Where no wide value reaches into a slot from below, a change of the slot spoils no value
of another one. -/
theorem set_elsewhere (paired : Paired locals) {other : Nat} (apart : other ≠ slot)
    {kept : VerificationType κ υ} (found : (locals.set slot type)[other]? = some kept)
    (wide : kept.width = 2) : (locals.set slot type)[other + 1]? = some .top := by
  rw [List.getElem?_set_ne apart.symm] at found
  have next : slot ≠ other + 1 := fun same => free other same.symm kept found wide
  rw [List.getElem?_set_ne next]
  exact paired other kept found wide

theorem set_narrow (paired : Paired locals) (isNarrow : type.width ≠ 2) :
    Paired (locals.set slot type) := by
  intro other kept found wide
  by_cases same : other = slot
  · rw [same, List.getElem?_set, if_pos rfl] at found
    split at found
    · cases found
      exact absurd wide isNarrow
    · cases found
  · exact paired.set_elsewhere free same found wide

theorem set_wide (paired : Paired locals) (inside : slot + 1 < locals.length) :
    Paired ((locals.set slot type).set (slot + 1) .top) := by
  have length : slot + 1 < (locals.set slot type).length := by
    rw [List.length_set]
    exact inside
  intro other kept found wide
  by_cases same : other = slot
  · rw [same, List.getElem?_set_self length]
  · have apart : slot + 1 ≠ other + 1 := fun equal => same (Nat.succ.inj equal).symm
    rw [List.getElem?_set_ne apart]
    rw [List.getElem?_set] at found
    split at found
    · cases found
      cases wide
    · exact paired.set_elsewhere free same found wide

end

end Paired

/-! ## Locals by value -/

namespace Frame

variable {types more : List (VerificationType κ υ)}

theorem paired_spread (types : List (VerificationType κ υ)) : Paired (spread types) := by
  fun_induction spread types with
  | case1 => exact .nil
  | case2 type rest wide ih => exact .wide ih
  | case3 type rest narrow ih => exact .narrow ih narrow

theorem spread_append : spread (types ++ more) = spread types ++ spread more := by
  fun_induction spread types with
  | case1 => rfl
  | case2 type rest wide ih =>
    rw [List.cons_append, spread, if_pos wide, ih]
    rfl
  | case3 type rest narrow ih =>
    rw [List.cons_append, spread, if_neg narrow, ih]
    rfl

theorem spread_tops (count : Nat) :
    spread (List.replicate count (.top : VerificationType κ υ)) = List.replicate count .top := by
  induction count with
  | zero => rfl
  | succ count ih =>
    rw [List.replicate_succ, spread, if_neg nofun, ih]

/-- The slots left out for wide values are the unusable ones behind them. -/
theorem spread_gather (paired : Paired types) : spread (gather types) = types := by
  fun_induction gather types with
  | case1 => rfl
  | case2 type =>
    by_cases wide : type.width = 2
    · cases paired 0 type rfl wide
    · rw [spread, if_neg wide]
      rfl
  | case3 type next rest wide ih =>
    have isTop : next = .top := Option.some.inj (paired 0 type rfl wide)
    rw [spread, if_pos wide, ih paired.tail.tail, isTop]
  | case4 type next rest narrow ih =>
    rw [spread, if_neg narrow, ih paired.tail]

/-- Only unusable locals are left out at the end. -/
theorem exists_trim_append (types : List (VerificationType κ υ)) :
    ∃ count, types = trim types ++ List.replicate count .top := by
  have tops : ∀ type ∈ types.reverse.takeWhile isTop, type = .top := by
    intro type member
    have passed := List.mem_takeWhile_imp member
    cases type <;> first | rfl | cases passed
  refine ⟨(types.reverse.takeWhile isTop).length, ?_⟩
  rw [trim, ← List.reverse_replicate, ← List.eq_replicate_of_mem tops, ← List.reverse_append,
    List.takeWhile_append_dropWhile, List.reverse_reverse]

/-- Frames can be had back from what a class file lists of them. -/
theorem Shaped.resize_ofEntries {frame : Frame κ υ} {slots : Nat} (shaped : frame.Shaped slots) :
    (ofEntries frame.entries frame.operands).resize slots = frame := by
  rcases exists_trim_append (gather frame.locals) with ⟨count, whole⟩
  have locals : frame.locals = spread frame.entries ++ List.replicate count .top := by
    rw [entries, ← spread_tops, ← spread_append, ← whole, spread_gather shaped.paired]
  have length := shaped.length
  rw [locals, List.length_append, List.length_replicate] at length
  have rest : slots - (spread frame.entries).length = count := by omega
  have fits : (spread frame.entries).length ≤ slots := by omega
  cases frame with
  | mk types stack =>
    rw [resize, ofEntries, operands]
    dsimp only at *
    rw [List.take_of_length_le fits, rest, ← locals, List.reverse_reverse]

end Frame

/-! ## Storing -/

namespace Frame

/-- The locals where a store has made a wide value unusable that it cuts in two. -/
def clobber (locals : List BlockType) (slot : Nat) : List BlockType :=
  if 0 < slot ∧ (locals[slot - 1]?.map VerificationType.width) = some 2 then
    locals.set (slot - 1) .top
  else locals

section

variable {locals : List BlockType} {slot : Nat}

theorem length_clobber : (clobber locals slot).length = locals.length := by
  unfold clobber
  split
  · exact List.length_set
  · rfl

theorem paired_clobber (paired : Paired locals) (slot : Nat) : Paired (clobber locals slot) := by
  unfold clobber
  split
  · exact paired.set_top _
  · exact paired

theorem clobber_free (below : Nat) (before : below + 1 = slot) (type : BlockType)
    (found : (clobber locals slot)[below]? = some type) : type.width ≠ 2 := by
  subst before
  intro wide
  rw [clobber, Nat.add_sub_cancel] at found
  split at found
  · next cut =>
    rw [List.getElem?_set, if_pos rfl] at found
    split at found
    · cases found
      cases wide
    · cases found
  · next whole =>
    apply whole
    rw [found, Option.map_some, wide]
    exact ⟨Nat.succ_pos below, rfl⟩

end

variable {frame after : BlockFrame} {slots : Nat}

theorem Shaped.storeLocal (shaped : frame.Shaped slots) {slot : Nat} {type : BlockType}
    (run : frame.storeLocal slot type = .ok after) : after.Shaped slots := by
  refine ⟨(length_storeLocal run).trans shaped.length, ?_⟩
  rw [Frame.storeLocal] at run
  split at run
  · next enough =>
    rw [← length_clobber] at enough
    have clobbered := paired_clobber shaped.paired slot
    rw [← Except.ok.inj run]
    dsimp only
    rw [← clobber]
    split
    · next wide =>
      rw [wide] at enough
      exact clobbered.set_wide clobber_free enough
    · next narrow => exact clobbered.set_narrow clobber_free narrow
  · cases run

/-! ## Instructions -/

variable {context : CodeContext} {block : Nat}

/-- What has the same locals is as well shaped. -/
theorem Shaped.of_locals (shaped : frame.Shaped slots) (same : after.locals = frame.locals) :
    after.Shaped slots :=
  ⟨same ▸ shaped.length, same ▸ shaped.paired⟩

/-- Putting an object in the place of one before its constructor was called changes no width,
and no unusable slot. -/
theorem Shaped.initialized (shaped : frame.Shaped slots) {receiver : BlockType}
    {cls? : Option String} (made : context.initializedClass receiver = .ok cls?) :
    (frame.initialized receiver cls?).Shaped slots := by
  cases cls? with
  | none => exact shaped
  | some cls =>
    have isNew : receiver ≠ .top := by
      rintro rfl
      cases made
    refine ⟨(List.length_map _).trans shaped.length, fun slot type found wide => ?_⟩
    rw [Frame.initialized, replace, List.getElem?_map] at found ⊢
    rcases Option.map_eq_some_iff.1 found with ⟨old, there, rfl⟩
    split at wide
    · cases wide
    · rw [shaped.paired slot old there wide, Option.map_some, if_neg isNew.symm]

theorem Shaped.turns (shaped : frame.Shaped slots) {effect : Effect}
    (turns : effect.Turns context frame after) : after.Shaped slots := by
  cases turns with
  | @store slot type locals rest _ stored =>
    have popped : Frame.Shaped slots ⟨locals, rest⟩ := shaped.of_locals rfl
    exact popped.storeLocal stored
  | @construct _ _ receiver rest cls? _ _ made =>
    have popped : Frame.Shaped slots ⟨frame.locals, rest⟩ := shaped.of_locals rfl
    exact (popped.initialized made).of_locals rfl
  | _ => exact shaped.of_locals rfl

theorem Shaped.step (shaped : frame.Shaped slots) {instruction : Instruction}
    (run : context.step block frame instruction = .ok after) : after.Shaped slots := by
  rcases (CodeContext.step_eq_ok block instruction after).1 run with ⟨effect, -, turns⟩
  exact shaped.turns turns

end Frame

/-- The parameters, with room behind them. -/
theorem MethodContext.shaped_entryFrame (method : MethodContext) {slots : Nat}
    (fits : method.entryFrame.locals.length ≤ slots) :
    (method.entryFrame.resize slots).Shaped slots := by
  refine ⟨Frame.length_resize _ slots, ?_⟩
  rw [Frame.resize, List.take_of_length_le fits]
  exact Paired.append_tops (Frame.paired_spread _) _

/-! ## Joins -/

namespace Hierarchy

open Query

/-- Any question ends somehow. -/
theorem Query.answers_somehow {α : Type} (query : Query α) :
    Answers (fun _ => True) query fun _ => True :=
  fun _ _ => ⟨_, _, rfl, trivial, fun _ _ => trivial⟩

/-- A join is wide only where both types are the same, and unusable where both are. -/
structure Fused (first second joined : BlockType) : Prop where
  known : joined.width = 2 → first = joined
  incoming : joined.width = 2 → second = joined
  top : first = .top → second = .top → joined = .top

theorem joinTypes_fused (first second : BlockType) :
    Answers (fun _ => True) (joinTypes first second) (Fused first second) := by
  unfold joinTypes
  split
  · next same =>
    subst same
    exact (succeeds_pure ⟨fun _ => rfl, fun _ => rfl, fun top _ => top⟩).answers
  · split
    · exact (succeeds_pure ⟨nofun, nofun, nofun⟩).answers
    · exact (succeeds_pure ⟨nofun, nofun, nofun⟩).answers
    · next name other _ =>
      refine (answers_somehow (joinNames name other)).bind fun answer _ => ?_
      exact (succeeds_pure ⟨nofun, nofun, nofun⟩).answers
    · exact (succeeds_pure ⟨nofun, nofun, fun _ _ => rfl⟩).answers

/-- Where a joined local is wide both sides are, and both leave the slot after it unusable. -/
theorem joinFrames_shaped {slots block : Nat} {known incoming : BlockFrame}
    (knownShaped : known.Shaped slots) (incomingShaped : incoming.Shaped slots) :
    Answers (fun _ => True) (joinFrames block known incoming) (Frame.Shaped slots) := by
  have sameLocals := knownShaped.length.trans incomingShaped.length.symm
  refine (joinFrames_each block sameLocals (fun pair _ => joinTypes_fused pair.1 pair.2)
    fun pair _ => joinTypes_fused pair.1 pair.2).mono ?_
  rintro joined ⟨fused, -, -⟩
  have length := fused.length_eq
  rw [List.length_zip, sameLocals, Nat.min_self, incomingShaped.length] at length
  refine ⟨length.symm, fun slot type found wide => ?_⟩
  rcases forall₂_getElem? fused found with ⟨pair, both, here⟩
  rw [List.getElem?_zip_eq_some] at both
  have knownNext := knownShaped.paired slot type (here.known wide ▸ both.1) wide
  have incomingNext := incomingShaped.paired slot type (here.incoming wide ▸ both.2) wide
  have inside : slot + 1 < joined.locals.length := by
    rw [← length, ← knownShaped.length]
    exact (List.getElem?_eq_some_iff.1 knownNext).1
  have next := List.getElem?_eq_getElem inside
  rcases forall₂_getElem? fused next with ⟨tops, bothNext, there⟩
  rw [List.getElem?_zip_eq_some, knownNext, incomingNext] at bothNext
  rw [next, there.top (Option.some.inj bothNext.1).symm (Option.some.inj bothNext.2).symm]

end Hierarchy
end ClassFile
