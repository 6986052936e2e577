import ClassFile.Code.FramePlaces
import ClassFile.Proofs.Pool.Growth

namespace ClassFile

/-!
# Frames by name and by index

A frame is written with a pool index for each of its classes.  That index is the
first one that stands for the name, or zero for a name without one, so that two
types of which one has been written are equal as indices exactly if they are as
names.
-/

section

variable {κ κ' υ : Type}

namespace VerificationType

def withClasses (change : κ → κ') : VerificationType κ υ → VerificationType κ' υ
  | top => top
  | integer => integer
  | float => float
  | double => double
  | long => long
  | null => null
  | uninitializedThis => uninitializedThis
  | object cls => object (change cls)
  | uninitialized site => uninitialized site

theorem width_withClasses (change : κ → κ') (type : VerificationType κ υ) :
    (type.withClasses change).width = type.width := by
  cases type <;> rfl

theorem isTop_withClasses (change : κ → κ') (type : VerificationType κ υ) :
    Frame.isTop (type.withClasses change) = Frame.isTop type := by
  cases type <;> rfl

end VerificationType

namespace Frame

def withClasses (change : κ → κ') (frame : Frame κ υ) : Frame κ' υ :=
  ⟨frame.locals.map (·.withClasses change), frame.stack.map (·.withClasses change)⟩

theorem gather_withClasses (change : κ → κ') (types : List (VerificationType κ υ)) :
    gather (types.map (·.withClasses change)) = (gather types).map (·.withClasses change) := by
  induction types using gather.induct with
  | case1 => rfl
  | case2 type => rfl
  | case3 type next rest wide ih =>
    rw [List.map_cons, List.map_cons, gather, gather, VerificationType.width_withClasses, if_pos wide,
      if_pos wide, List.map_cons, ih]
  | case4 type next rest narrow ih =>
    rw [List.map_cons] at ih
    rw [List.map_cons, List.map_cons, gather, gather, VerificationType.width_withClasses,
      if_neg narrow, if_neg narrow, List.map_cons, ih]

theorem trim_withClasses (change : κ → κ') (types : List (VerificationType κ υ)) :
    trim (types.map (·.withClasses change)) = (trim types).map (·.withClasses change) := by
  have same : (isTop ∘ fun type : VerificationType κ υ => type.withClasses change) = isTop :=
    funext (VerificationType.isTop_withClasses change)
  rw [trim, trim, ← List.map_reverse, List.dropWhile_map, same, List.map_reverse]

@[simp] theorem entries_withClasses (change : κ → κ') (frame : Frame κ υ) :
    (frame.withClasses change).entries = frame.entries.map (·.withClasses change) := by
  rw [entries, withClasses, gather_withClasses, trim_withClasses, entries]

@[simp] theorem operands_withClasses (change : κ → κ') (frame : Frame κ υ) :
    (frame.withClasses change).operands = frame.operands.map (·.withClasses change) := by
  simp only [operands, withClasses, List.map_reverse]

theorem mem_of_mem_gather {types : List (VerificationType κ υ)} {type : VerificationType κ υ}
    (member : type ∈ gather types) : type ∈ types := by
  induction types using gather.induct with
  | case1 => exact member
  | case2 => exact member
  | case3 first next rest wide ih =>
    rw [gather, if_pos wide, List.mem_cons] at member
    rcases member with rfl | later
    · exact List.mem_cons_self
    · exact List.mem_cons_of_mem _ (List.mem_cons_of_mem _ (ih later))
  | case4 first next rest narrow ih =>
    rw [gather, if_neg narrow, List.mem_cons] at member
    rcases member with rfl | later
    · exact List.mem_cons_self
    · exact List.mem_cons_of_mem _ (ih later)

theorem mem_locals_of_mem_entries {frame : Frame κ υ} {type : VerificationType κ υ}
    (member : type ∈ frame.entries) : type ∈ frame.locals := by
  rw [entries, trim, List.mem_reverse] at member
  exact mem_of_mem_gather (List.mem_reverse.mp ((List.dropWhile_sublist _).subset member))

end Frame

end

/-! ## Classes by index -/

namespace Pool

variable {pool before after : Pool} {name : String} {index : PoolIndex}

/-- The index of a class, or zero if there is none. -/
def classIndex (pool : Pool) (name : String) : PoolIndex :=
  (pool.classOf? name).getD 0

theorem classOf_eq_some :
    pool.classOf? name = some index ↔
      ∃ text, pool.slots[Constant.utf8 name]? = some text ∧
        pool.slots[Constant.cls text]? = some index := by
  rw [classOf?, Option.bind_eq_bind, Option.bind_eq_some_iff]

theorem className_of_classOf (known : pool.classOf? name = some index) :
    pool.className index = .ok name := by
  rcases classOf_eq_some.mp known with ⟨text, isText, isClass⟩
  exact className_eq_ok.mpr ⟨text, entry_eq_ok.mpr (mem_entries_of_slot isClass),
    utf8_eq_ok.mpr (entry_eq_ok.mpr (mem_entries_of_slot isText))⟩

theorem Extends.classOf (grown : Extends before after) (known : before.classOf? name = some index) :
    after.classOf? name = some index := by
  rcases classOf_eq_some.mp known with ⟨text, isText, isClass⟩
  exact classOf_eq_some.mpr ⟨text, grown.slot isText, grown.slot isClass⟩

/-- An entry that was asked for is the first of its equals. -/
theorem slot_of_intern {constant : Constant}
    (run : (intern constant).run before = (index, after)) :
    Extends before after ∧ after.slots[constant]? = some index := by
  cases found : before.slots[constant]? with
  | some slot =>
    cases (run_intern_of_some found).symm.trans run
    exact ⟨.refl before, found⟩
  | none =>
    cases (run_intern_of_none found).symm.trans run
    exact ⟨.append before constant, slots_append found⟩

theorem classOf_of_addClass (run : (addClass name).run before = (index, after)) :
    Extends before after ∧ after.classOf? name = some index := by
  rw [addClass, StateT.run_bind] at run
  rcases first : (addUtf8 name).run before with ⟨text, between⟩
  rw [first] at run
  rcases slot_of_intern first with ⟨grown, isText⟩
  rcases slot_of_intern run with ⟨grown', isClass⟩
  exact ⟨grown.trans grown', classOf_eq_some.mpr ⟨text, grown'.slot isText, isClass⟩⟩

end Pool

namespace VerificationType

variable {pool before after : Pool}

/-- A type that can be written: its class has an index and its site an offset. -/
def Legible (pool : Pool) : VerificationType String Nat → Prop
  | object name => ∃ index, pool.classOf? name = some index
  | uninitialized site => site < 65536
  | _ => True

theorem Legible.grow (grown : Pool.Extends before after) {type : VerificationType String Nat}
    (legible : type.Legible before) :
    type.Legible after ∧
      type.withClasses after.classIndex = type.withClasses before.classIndex := by
  cases type with
  | object name =>
    rcases legible with ⟨index, known⟩
    have later := grown.classOf known
    refine ⟨⟨index, later⟩, ?_⟩
    simp only [withClasses, Pool.classIndex, known, later]
  | _ => exact ⟨legible, rfl⟩

/-- Only one name has the index of a class that can be written. -/
theorem withClasses_inj (start : pool.constants.start = 1) {type other : VerificationType String Nat}
    (legible : type.Legible pool)
    (same : other.withClasses pool.classIndex = type.withClasses pool.classIndex) : other = type := by
  cases type with
  | object name =>
    rcases legible with ⟨index, known⟩
    cases other <;> simp only [withClasses, reduceCtorEq, object.injEq] at same
    rename_i candidate
    have positive : index ≠ 0 := by
      rcases Pool.classOf_eq_some.mp known with ⟨_, -, isClass⟩
      have first := (pool.constants.laid.bounds (Pool.mem_entries_of_slot isClass)).1
      rw [start] at first
      exact Nat.one_le_iff_ne_zero.mp first
    rw [Pool.classIndex, Pool.classIndex, known, Option.getD_some] at same
    cases candidateKnown : pool.classOf? candidate with
    | none =>
      rw [candidateKnown] at same
      exact absurd same.symm positive
    | some found =>
      rw [candidateKnown, Option.getD_some] at same
      subst same
      have both := Pool.className_of_classOf candidateKnown
      rw [Pool.className_of_classOf known] at both
      rw [Except.ok.inj both]
  | uninitialized site =>
    cases other <;> simp only [withClasses, reduceCtorEq, uninitialized.injEq] at same
    rw [same]
  | _ => cases other <;> first | rfl | cases same

theorem map_withClasses_inj (start : pool.constants.start = 1)
    {types others : List (VerificationType String Nat)} (legible : ∀ type ∈ types, type.Legible pool)
    (same : others.map (·.withClasses pool.classIndex) = types.map (·.withClasses pool.classIndex)) :
    others = types := by
  induction types generalizing others with
  | nil => exact List.map_eq_nil_iff.mp same
  | cons type types ih =>
    cases others with
    | nil => cases same
    | cons other others =>
      rw [List.map_cons, List.map_cons, List.cons.injEq] at same
      rw [List.forall_mem_cons] at legible
      rw [withClasses_inj start legible.1 same.1, ih legible.2 same.2]

section

variable (start : pool.constants.start = 1) {now before : List (VerificationType String Nat)}
  (legible : ∀ type ∈ now, type.Legible pool)

include start legible

theorem map_withClasses_eq_iff :
    now.map (·.withClasses pool.classIndex) = before.map (·.withClasses pool.classIndex) ↔
      now = before :=
  ⟨fun same => (map_withClasses_inj start legible same.symm).symm, fun same => by rw [same]⟩

theorem isPrefixOf_map_withClasses_left :
    (now.map (·.withClasses pool.classIndex)).isPrefixOf
      (before.map (·.withClasses pool.classIndex)) = true ↔ now <+: before := by
  rw [List.isPrefixOf_iff_prefix, List.prefix_iff_eq_take, List.prefix_iff_eq_take, List.length_map,
    ← List.map_take, map_withClasses_eq_iff start legible]

theorem isPrefixOf_map_withClasses_right :
    (before.map (·.withClasses pool.classIndex)).isPrefixOf
      (now.map (·.withClasses pool.classIndex)) = true ↔ before <+: now := by
  rw [List.isPrefixOf_iff_prefix, List.prefix_iff_eq_take, List.prefix_iff_eq_take, List.length_map,
    ← List.map_take, eq_comm, map_withClasses_eq_iff start, eq_comm]
  exact fun type member => legible type (List.mem_of_mem_take member)

end

end VerificationType

/-! ## Writing -/

/-- Every type of a frame can be written. -/
def Frame.Legible (pool : Pool) (frame : Frame String Nat) : Prop :=
  ∀ type, type ∈ frame.locals ∨ type ∈ frame.stack → type.Legible pool

namespace StackMap

variable {offsets : Array Nat} {now after : Assembler.State}

/-- A frame with code offsets for sites. -/
def sited (offsets : Array Nat) (frame : BlockFrame) : Except Fault (Frame String Nat) :=
  frame.mapM pure (siteOffset offsets)

theorem run_symbol {α : Type} (request : StateM Pool α) (now : Assembler.State) :
    (Assembler.symbol (liftM request)).run now =
      (.ok (request.run now.pool).1, ⟨(request.run now.pool).2, now.hierarchy⟩) :=
  rfl

theorem run_symbol_addClass {name : String} {index : PoolIndex}
    (run : (Assembler.symbol (Pool.addClass name)).run now = (.ok index, after)) :
    Pool.Extends now.pool after.pool ∧ after.pool.classOf? name = some index := by
  rcases added : (Pool.addClass name).run now.pool with ⟨found, pool⟩
  rw [run_symbol, added] at run
  cases run
  exact Pool.classOf_of_addClass added

theorem site_lt {site offset : Nat} (known : siteOffset offsets site = .ok offset) :
    offset < 65536 := by
  rw [siteOffset] at known
  split at known
  · split at known
    · next small =>
      cases known
      exact small
    · cases known
  · cases known

/-- What was written for a type names it by index. -/
def TypeWritten (offsets : Array Nat) (pool : Pool) (type : VerificationType String Nat)
    (written : VerificationType PoolIndex Nat) : Prop :=
  ∃ named, type.mapM pure (siteOffset offsets) = .ok named ∧ named.Legible pool ∧
    named.withClasses pool.classIndex = written

def FrameWritten (offsets : Array Nat) (pool : Pool) (frame : BlockFrame)
    (written : WrittenFrame) : Prop :=
  ∃ named, sited offsets frame = .ok named ∧ named.Legible pool ∧
    named.withClasses pool.classIndex = written

theorem TypeWritten.grow {before later : Pool} (grown : Pool.Extends before later) {type : VerificationType String Nat}
    {written : VerificationType PoolIndex Nat} (here : TypeWritten offsets before type written) :
    TypeWritten offsets later type written := by
  rcases here with ⟨named, isNamed, legible, rfl⟩
  rcases legible.grow grown with ⟨there, same⟩
  exact ⟨named, isNamed, there, same⟩

theorem FrameWritten.grow {before later : Pool} (grown : Pool.Extends before later)
    {frame : BlockFrame} {written : WrittenFrame} (here : FrameWritten offsets before frame written) :
    FrameWritten offsets later frame written := by
  rcases here with ⟨named, isNamed, legible, rfl⟩
  refine ⟨named, isNamed, fun type member => ((legible type member).grow grown).1, ?_⟩
  rw [Frame.withClasses, Frame.withClasses, Frame.mk.injEq]
  constructor
  · exact List.map_congr_left fun type member => ((legible type (.inl member)).grow grown).2
  · exact List.map_congr_left fun type member => ((legible type (.inr member)).grow grown).2

/-- A type as it is written, its class added to the pool. -/
def writtenType (offsets : Array Nat) (type : VerificationType String Nat) :
    Assembler (VerificationType PoolIndex Nat) :=
  type.mapM (fun name => Assembler.symbol (Pool.addClass name)) fun site => siteOffset offsets site

theorem typeWritten_of_run {type : VerificationType String Nat}
    {written : VerificationType PoolIndex Nat}
    (run : (writtenType offsets type).run now = (.ok written, after)) :
    Pool.Extends now.pool after.pool ∧ TypeWritten offsets after.pool type written := by
  cases type with
  | object name =>
    rw [writtenType, VerificationType.mapM] at run
    rcases run_bind_eq_ok.mp run with ⟨index, between, added, last⟩
    rcases run_pure_eq_ok.mp last with ⟨rfl, rfl⟩
    rcases run_symbol_addClass added with ⟨grown, known⟩
    refine ⟨grown, .object name, rfl, ⟨index, known⟩, ?_⟩
    rw [VerificationType.withClasses, Pool.classIndex, known, Option.getD_some]
  | uninitialized site =>
    rw [writtenType, VerificationType.mapM] at run
    rcases run_bind_eq_ok.mp run with ⟨offset, between, found, last⟩
    rcases run_pure_eq_ok.mp last with ⟨rfl, rfl⟩
    rcases run_lift_eq_ok.mp found with ⟨known, rfl⟩
    refine ⟨.refl _, .uninitialized offset, ?_, site_lt known, rfl⟩
    rw [VerificationType.mapM, known]
    rfl
  | _ =>
    rcases run_pure_eq_ok.mp run with ⟨rfl, rfl⟩
    exact ⟨.refl _, _, rfl, trivial, rfl⟩

/-- Types one by one are types as a whole. -/
theorem typesWritten {pool : Pool} {types : List (VerificationType String Nat)}
    {written : List (VerificationType PoolIndex Nat)}
    (each : List.Forall₂ (TypeWritten offsets pool) types written) :
    ∃ named, (types.mapM fun type => type.mapM pure (siteOffset offsets)) = .ok named ∧
      (∀ type ∈ named, type.Legible pool) ∧ named.map (·.withClasses pool.classIndex) = written := by
  induction each with
  | nil => exact ⟨[], rfl, fun _ member => absurd member List.not_mem_nil, rfl⟩
  | cons here _ ih =>
    rcases here with ⟨first, isFirst, legible, rfl⟩
    rcases ih with ⟨rest, areRest, legible', rfl⟩
    refine ⟨first :: rest, ?_, List.forall_mem_cons.mpr ⟨legible, legible'⟩, rfl⟩
    rw [List.mapM_cons, isFirst, areRest]
    rfl

theorem frameWritten_of_run {frame : BlockFrame} {result : WrittenFrame}
    (run : (written offsets frame).run now = (.ok result, after)) :
    Pool.Extends now.pool after.pool ∧ FrameWritten offsets after.pool frame result := by
  have each : ∀ {types : List (VerificationType String Nat)} {results now after},
      (types.mapM (writtenType offsets)).run now = (.ok results, after) →
      Pool.Extends now.pool after.pool ∧
        List.Forall₂ (TypeWritten offsets after.pool) types results :=
    run_mapM_eq_ok (fun _ => .refl _) .trans (fun _ _ _ _ grown here => here.grow grown)
      fun _ _ _ _ => typeWritten_of_run
  rw [written, Frame.mapM] at run
  rcases run_bind_eq_ok.mp run with ⟨locals, between, first, onward⟩
  rcases run_bind_eq_ok.mp onward with ⟨operands, _, second, last⟩
  rcases run_pure_eq_ok.mp last with ⟨rfl, rfl⟩
  rcases each first with ⟨grown, areLocals⟩
  rcases each second with ⟨grown', areOperands⟩
  rcases typesWritten (areLocals.imp fun _ _ here => here.grow grown') with
    ⟨locals, isLocals, legible, rfl⟩
  rcases typesWritten areOperands with ⟨operands, isOperands, legible', rfl⟩
  refine ⟨grown.trans grown', ⟨locals, operands.reverse⟩, ?_, ?_, ?_⟩
  · rw [sited, Frame.mapM, isLocals, isOperands]
    rfl
  · rintro type (member | member)
    · exact legible type member
    · exact legible' type (List.mem_reverse.mp member)
  · rw [Frame.withClasses, List.map_reverse]

end StackMap
end ClassFile
