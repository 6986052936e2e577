import ClassFile.Proofs.Frame.Effects

namespace ClassFile

/-!
# Instructions on related frames

Instructions tell the types of operands apart by little more than the slots they take.
So two frames whose types are related in pairs are taken to frames that are related again,
for any relation that looks at types no closer than this, as long as no operand of the
second frame is unusable.
-/

/-- A type of references to objects that may be used. -/
def VerificationType.IsReference : BlockType → Prop
  | .null | .object _ => True
  | _ => False

theorem VerificationType.IsReference.width_eq {type : BlockType}
    (isReference : type.IsReference) : type.width = 1 := by
  cases type with
  | null | object => rfl
  | _ => exact isReference.elim

theorem CodeContext.isReference_elementType (type : BlockType) :
    (elementType type).IsReference := by
  unfold elementType
  split
  · trivial
  · cases found : type.arrayElement? with
    | none => trivial
    | some element =>
      obtain ⟨name, inner, -, -, reference, rfl⟩ := VerificationType.arrayElement?_eq_some found
      cases inner with
      | base => cases reference
      | object | array => trivial

/-- A relation of types that instructions keep.  Types that it relates are the same or both
references, or the second one is unusable. -/
structure StepsKeep (context : CodeContext) (holds : BlockType → BlockType → Prop) : Prop where
  cases : ∀ type other, holds type other →
    type = other ∨ other = .top ∨ type.IsReference ∧ other.IsReference
  unusable : ∀ type other, holds type other → holds type .top
  top : holds .top .top
  element : ∀ type other, holds type other →
    holds (CodeContext.elementType type) (CodeContext.elementType other)
  given : ∀ block instruction effect type, context.effect block instruction = .ok effect →
    effect.given? = some type → holds type type
  initialized : ∀ receiver cls, context.initializedClass receiver = .ok (some cls) →
    holds (.object cls) (.object cls)

/-- Frames with as many locals and operands, each related to the other one in its place. -/
structure FramesRelated (holds : BlockType → BlockType → Prop) (frame other : BlockFrame) :
    Prop where
  locals : List.Forall₂ holds frame.locals other.locals
  stack : List.Forall₂ holds frame.stack other.stack

/-- Two contexts of the same method that only differ in what frames were recorded. -/
structure CodeContext.Alike (context context' : CodeContext) : Prop where
  method : context'.method = context.method
  pool : context'.pool = context.pool
  sites : ∀ site, context'.siteClass site = context.siteClass site

/-! ## Operands -/

/-- Operands that no instruction can tell apart by their slots are rearranged alike. -/
theorem Shuffle.rearrange_forall₂ {holds : BlockType → BlockType → Prop}
    (narrow : ∀ type other, holds type other → isNarrow type = isNarrow other) {op : Shuffle}
    {types others rearranged : List BlockType} (each : List.Forall₂ holds types others)
    (run : op.rearrange? others = some rearranged) :
    ∃ result, op.rearrange? types = some result ∧ List.Forall₂ holds result rearranged := by
  unfold rearrange? at run
  split at run
  all_goals repeat' split at run
  all_goals cases run
  all_goals
    simp only [List.forall₂_cons_right_iff] at each
    obtain ⟨_, _, first, each, rfl⟩ := each
    have sameFirst := narrow _ _ first
  -- Only some of the instructions look at more operands.
  all_goals try
    obtain ⟨_, _, second, each, rfl⟩ : ∃ type rest, holds type _ ∧ _ ∧ _ = type :: rest := each
    have sameSecond := narrow _ _ second
  all_goals try
    obtain ⟨_, _, third, each, rfl⟩ : ∃ type rest, holds type _ ∧ _ ∧ _ = type :: rest := each
    have sameThird := narrow _ _ third
  all_goals try
    obtain ⟨_, _, fourth, each, rfl⟩ : ∃ type rest, holds type _ ∧ _ ∧ _ = type :: rest := each
    have sameFourth := narrow _ _ fourth
  all_goals simp_all [rearrange?]

theorem forall₂_set {holds : BlockType → BlockType → Prop} {types others : List BlockType}
    (each : List.Forall₂ holds types others) {type other : BlockType} (here : holds type other)
    (slot : Nat) : List.Forall₂ holds (types.set slot type) (others.set slot other) := by
  induction each generalizing slot with
  | nil => exact .nil
  | cons first rest ih =>
    cases slot with
    | zero => exact .cons here rest
    | succ slot => exact .cons first (ih slot)

section

variable {context context' : CodeContext} {holds : BlockType → BlockType → Prop}
  (keep : StepsKeep context holds) {frame other after : BlockFrame} {types others : List BlockType}
include keep

/-- Related types take the same slots, unless one is unusable. -/
theorem StepsKeep.width_eq {type other : BlockType} (related : holds type other)
    (usable : other ≠ .top) : type.width = other.width := by
  rcases keep.cases type other related with rfl | unusable | ⟨isReference, otherIsReference⟩
  · rfl
  · exact absurd unusable usable
  · rw [isReference.width_eq, otherIsReference.width_eq]

theorem StepsKeep.widths (each : List.Forall₂ holds types others) (usable : .top ∉ others) :
    List.Forall₂ (fun type other => holds type other ∧ type.width = other.width) types others := by
  induction each with
  | nil => exact .nil
  | cons related rest ih =>
    rw [List.mem_cons, not_or] at usable
    exact .cons ⟨related, keep.width_eq related (Ne.symm usable.1)⟩ (ih usable.2)

/-- Values of two slots become unusable together, unless one already was. -/
theorem StepsKeep.clobber (each : List.Forall₂ holds types others) (slot : Nat) :
    List.Forall₂ holds
      (if (types[slot]?.map VerificationType.width) = some 2 then types.set slot .top else types)
      (if (others[slot]?.map VerificationType.width) = some 2 then others.set slot .top
        else others) := by
  induction each generalizing slot with
  | nil => exact .nil
  | @cons type other types others here rest ih =>
    cases slot with
    | zero =>
      have head : ∀ (first : BlockType) (types : List BlockType),
          (if ((first :: types)[0]?.map VerificationType.width) = some 2 then
              (first :: types).set 0 .top
            else first :: types) =
          (if first.width = 2 then .top else first) :: types := by
        intro first types
        simp only [List.getElem?_cons_zero, Option.map_some, Option.some.injEq, List.set_cons_zero]
        split <;> rfl
      rw [head, head]
      refine .cons ?_ rest
      rcases keep.cases type other here with rfl | rfl | ⟨isReference, otherIsReference⟩
      · split
        · exact keep.top
        · exact here
      · rw [ite_self]
        split
        · exact keep.top
        · exact here
      · rw [if_neg (by rw [isReference.width_eq]; decide),
          if_neg (by rw [otherIsReference.width_eq]; decide)]
        exact here
    | succ slot =>
      have tail : ∀ (first : BlockType) (types : List BlockType),
          (if ((first :: types)[slot + 1]?.map VerificationType.width) = some 2 then
              (first :: types).set (slot + 1) .top
            else first :: types) =
          first :: if (types[slot]?.map VerificationType.width) = some 2 then types.set slot .top
            else types := by
        intro first types
        rw [List.getElem?_cons_succ, List.set_cons_succ]
        split <;> rfl
      rw [tail, tail]
      exact .cons here (ih slot)

/-- Storing related values in related frames. -/
theorem FramesRelated.storeLocal (related : FramesRelated holds frame other)
    {type otherType : BlockType} (here : holds type otherType) (usable : otherType ≠ .top)
    {slot : Nat} {otherAfter : BlockFrame} (run : other.storeLocal slot otherType = .ok otherAfter) :
    ∃ after, frame.storeLocal slot type = .ok after ∧ FramesRelated holds after otherAfter := by
  have width := keep.width_eq here usable
  have length := related.locals.length_eq
  rw [Frame.storeLocal] at run ⊢
  split at run
  · next inside =>
    obtain rfl := Except.ok.inj run
    rw [width, length, if_pos inside]
    refine ⟨_, rfl, ?_, related.stack⟩
    dsimp only
    have clobbered : List.Forall₂ holds
        (if 0 < slot ∧ (frame.locals[slot - 1]?.map VerificationType.width) = some 2 then
          frame.locals.set (slot - 1) .top
        else frame.locals)
        (if 0 < slot ∧ (other.locals[slot - 1]?.map VerificationType.width) = some 2 then
          other.locals.set (slot - 1) .top
        else other.locals) := by
      by_cases first : 0 < slot
      · simp only [and_iff_right first]
        exact keep.clobber related.locals (slot - 1)
      · rw [if_neg fun both => first both.1, if_neg fun both => first both.1]
        exact related.locals
    have stored := forall₂_set clobbered here slot
    split
    · exact forall₂_set stored keep.top _
    · exact stored
  · cases run

omit keep in
theorem FramesRelated.give (related : FramesRelated holds frame other) {given : Option BlockType}
    (here : ∀ type, given = some type → holds type type) :
    FramesRelated holds (frame.give given) (other.give given) := by
  cases given with
  | none => exact related
  | some type => exact ⟨related.locals, .cons (here type rfl) related.stack⟩

/-- What is replaced is related to nothing but itself and unusable types. -/
theorem StepsKeep.replace (each : List.Forall₂ holds types others) {old new : BlockType}
    (usable : old ≠ .top) (notReference : ¬old.IsReference) (here : holds new new) :
    List.Forall₂ holds (types.map fun type => if type = old then new else type)
      (others.map fun type => if type = old then new else type) := by
  rw [List.forall₂_map_left_iff, List.forall₂_map_right_iff]
  refine each.imp fun type other related => ?_
  rcases keep.cases type other related with rfl | rfl | ⟨isReference, otherIsReference⟩
  · split
    · exact here
    · exact related
  · rw [if_neg usable.symm]
    split
    · exact keep.unusable _ _ here
    · exact related
  · have apart : ∀ {type : BlockType}, type.IsReference → type ≠ old :=
      fun isReference same => notReference (same ▸ isReference)
    rw [if_neg (apart isReference), if_neg (apart otherIsReference)]
    exact related

/-! ## Effects -/

omit keep in
theorem CodeContext.Alike.initializedClass (alike : context.Alike context') (type : BlockType) :
    context'.initializedClass type = context.initializedClass type := by
  cases type with
  | uninitializedThis => exact congrArg (fun method : MethodContext => Except.ok (some method.thisClass)) alike.method
  | uninitialized site => exact congrArg (some <$> ·) (alike.sites site)
  | _ => rfl

omit keep in
theorem CodeContext.initializedClass_of_isReference {type : BlockType}
    (isReference : type.IsReference) : context.initializedClass type = .ok none := by
  cases type with
  | null | object => rfl
  | _ => exact isReference.elim

/-- An effect on a frame whose operands are all usable is the same on related frames. -/
theorem Effect.Turns.related {effect : Effect} (turns : effect.Turns context other after)
    (given : ∀ type, effect.given? = some type → holds type type)
    (alike : context.Alike context') (related : FramesRelated holds frame other)
    (usable : .top ∉ other.stack) :
    ∃ result, effect.Turns context' frame result ∧ FramesRelated holds result after := by
  obtain ⟨onLocals, onStack⟩ := related
  cases turns with
  | @exchange taken given' _ enough =>
    rw [← onStack.length_eq] at enough
    have popped : FramesRelated holds ⟨frame.locals, frame.stack.drop taken⟩
        ⟨other.locals, other.stack.drop taken⟩ := ⟨onLocals, List.forall₂_drop taken onStack⟩
    exact ⟨_, .exchange enough, popped.give given⟩
  | @load slot type _ found =>
    obtain ⟨type', found', here⟩ := forall₂_getElem? onLocals found
    exact ⟨_, .load found', onLocals, .cons here onStack⟩
  | @store slot type locals rest _ stored =>
    obtain ⟨locals', stack'⟩ := frame
    obtain ⟨type', rest', here, onRest, rfl⟩ := List.forall₂_cons_right_iff.1 onStack
    have apart : type ≠ .top := fun same => usable (same ▸ List.mem_cons_self)
    have popped : FramesRelated holds ⟨locals', rest'⟩ ⟨locals, rest⟩ := ⟨onLocals, onRest⟩
    obtain ⟨result, stored', after⟩ := popped.storeLocal keep here apart stored
    exact ⟨result, .store stored', after⟩
  | @touch slot type _ found =>
    obtain ⟨type', found', -⟩ := forall₂_getElem? onLocals found
    exact ⟨_, .touch found', onLocals, onStack⟩
  | @element index array locals rest =>
    obtain ⟨locals', stack'⟩ := frame
    obtain ⟨index', _, -, onArray, rfl⟩ := List.forall₂_cons_right_iff.1 onStack
    obtain ⟨array', rest', here, onRest, rfl⟩ := List.forall₂_cons_right_iff.1 onArray
    exact ⟨_, .element, onLocals, .cons (keep.element _ _ here) onRest⟩
  | @rearrange op stack _ run =>
    obtain ⟨result, run', onResult⟩ := Shuffle.rearrange_forall₂
      (fun type other both => by rw [Shuffle.isNarrow, both.2, Shuffle.isNarrow])
      (keep.widths onStack usable) run
    exact ⟨_, .rearrange run', onLocals, onResult.imp fun _ _ both => both.1⟩
  | @construct arguments result receiver rest cls? _ operands made =>
    have dropped := List.forall₂_drop arguments onStack
    rw [operands] at dropped
    obtain ⟨receiver', rest', here, onRest, operands'⟩ := List.forall₂_cons_right_iff.1 dropped
    have apart : receiver ≠ .top := fun same => usable
      (List.mem_of_mem_drop (same ▸ operands ▸ List.mem_cons_self))
    have popped : FramesRelated holds ⟨frame.locals, rest'⟩ ⟨other.locals, rest⟩ :=
      ⟨onLocals, onRest⟩
    rcases keep.cases receiver' receiver here with rfl | unusable | ⟨isReference, otherIsReference⟩
    · refine ⟨_, .construct operands' ((alike.initializedClass _).trans made),
        FramesRelated.give ?_ given⟩
      cases cls? with
      | none => exact popped
      | some cls =>
        have notReference : ¬receiver'.IsReference := fun isReference => by
          cases made.symm.trans (CodeContext.initializedClass_of_isReference isReference)
        have object := keep.initialized receiver' cls made
        exact ⟨keep.replace onLocals apart notReference object,
          keep.replace onRest apart notReference object⟩
    · exact absurd unusable apart
    · obtain rfl : cls? = none := Except.ok.inj
        (made.symm.trans (CodeContext.initializedClass_of_isReference otherIsReference))
      exact ⟨_, .construct operands' (CodeContext.initializedClass_of_isReference isReference),
        popped.give given⟩

/-! ## Instructions -/

namespace CodeContext

omit keep in
theorem Alike.effect (alike : context.Alike context') (block : Nat) (instruction : Instruction) :
    context'.effect block instruction = context.effect block instruction := by
  obtain ⟨graph, method, pool⟩ := context
  obtain ⟨graph', method', pool'⟩ := context'
  obtain rfl : pool' = pool := alike.pool
  cases instruction <;> rfl

/-- An instruction does the same to related frames when all operands are usable. -/
theorem Alike.step (alike : context.Alike context') {block : Nat} {instruction : Instruction}
    (related : FramesRelated holds frame other) (usable : .top ∉ other.stack)
    (run : context.step block other instruction = .ok after) :
    ∃ result, context'.step block frame instruction = .ok result ∧
      FramesRelated holds result after := by
  obtain ⟨effect, isEffect, turns⟩ := (step_eq_ok block instruction after).1 run
  obtain ⟨result, turns', onResult⟩ := turns.related keep
    (fun type => keep.given block instruction effect type isEffect) alike related usable
  refine ⟨result, (step_eq_ok block instruction result).2 ⟨effect, ?_, turns'⟩, onResult⟩
  rw [alike.effect, isEffect]

theorem Alike.steps (alike : context.Alike context') {block : Nat} {instructions : List Instruction}
    (related : FramesRelated holds frame other)
    (usable : ∀ taken left here, taken ++ left = instructions →
      taken.foldlM (context.step block) other = .ok here → .top ∉ here.stack)
    (run : instructions.foldlM (context.step block) other = .ok after) :
    ∃ result, instructions.foldlM (context'.step block) frame = .ok result ∧
      FramesRelated holds result after := by
  induction instructions generalizing frame other with
  | nil =>
    obtain rfl := pure_eq_ok.1 run
    exact ⟨frame, rfl, related⟩
  | cons instruction instructions ih =>
    obtain ⟨middle, stepped, onward⟩ := foldlM_cons_eq_ok.1 run
    obtain ⟨middle', stepped', onMiddle⟩ :=
      alike.step keep related (usable [] _ other rfl rfl) stepped
    obtain ⟨result, onward', onResult⟩ := ih onMiddle
      (fun taken left here whole through => usable (instruction :: taken) left here
        (congrArg (instruction :: ·) whole) (foldlM_cons_eq_ok.2 ⟨middle, stepped, through⟩)) onward
    exact ⟨result, foldlM_cons_eq_ok.2 ⟨middle', stepped', onward'⟩, onResult⟩

omit keep in
theorem Alike.turns (alike : context.Alike context') {effect : Effect}
    (turns : effect.Turns context frame after) : effect.Turns context' frame after := by
  cases turns with
  | exchange enough => exact .exchange enough
  | load found => exact .load found
  | store stored => exact .store stored
  | touch found => exact .touch found
  | element => exact .element
  | rearrange run => exact .rearrange run
  | construct operands made => exact .construct operands ((alike.initializedClass _).trans made)

omit keep in
/-- The recorded frames do not matter to where instructions lead. -/
theorem Alike.foldlM_step (alike : context.Alike context') {block : Nat}
    {instructions : List Instruction}
    (run : instructions.foldlM (context.step block) frame = .ok after) :
    instructions.foldlM (context'.step block) frame = .ok after := by
  induction instructions generalizing frame with
  | nil => exact run
  | cons instruction instructions ih =>
    obtain ⟨middle, stepped, onward⟩ := foldlM_cons_eq_ok.1 run
    obtain ⟨effect, isEffect, turns⟩ := (step_eq_ok block instruction middle).1 stepped
    refine foldlM_cons_eq_ok.2 ⟨middle, (step_eq_ok block instruction middle).2
      ⟨effect, ?_, alike.turns turns⟩, ih onward⟩
    rw [alike.effect, isEffect]

omit keep in
theorem stepBranch_related {branch : Branch Nat Nat Nat} (related : FramesRelated holds frame other)
    (run : stepBranch other branch = .ok after) :
    ∃ result, stepBranch frame branch = .ok result ∧ FramesRelated holds result after := by
  have dropped : ∀ {count : Nat} {site : UnderflowSite}, other.drop count site = .ok after →
      ∃ result, frame.drop count site = .ok result ∧ FramesRelated holds result after := by
    intro count site run
    obtain ⟨enough, rfl⟩ := Frame.drop_eq_ok.1 run
    rw [← related.stack.length_eq] at enough
    exact ⟨_, Frame.drop_eq_ok.2 ⟨enough, rfl⟩, related.locals,
      List.forall₂_drop count related.stack⟩
  cases branch with
  | conditional condition => cases condition <;> exact dropped run
  | tableSwitch | lookupSwitch => exact dropped run
  | jsr | jsrWide | ret => cases run
  | _ =>
    obtain rfl := Except.ok.inj run
    exact ⟨frame, rfl, related⟩

end CodeContext

end

end ClassFile
