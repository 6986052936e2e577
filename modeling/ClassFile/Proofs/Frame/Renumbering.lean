import ClassFile.Proofs.Frame.Related
import ClassFile.Proofs.Frame.Sites
import ClassFile.Proofs.Graph.Halving

namespace ClassFile

/-!
# Instructions and other numbers for blocks

The sites of a frame are blocks, so a frame changes with their numbers.  Instructions look
at a site only to find the class that is made there and to put an object in its place.  So
they do the same to a frame whose sites have other numbers, as long as no two sites get the
same one.
-/

section

variable {number : Nat → Nat}

/-! ## Types -/

namespace VerificationType

theorem renumber_of_ne {type : BlockType} (made : ∀ site, type ≠ .uninitialized site) :
    type.renumber number = type := by
  cases type with
  | uninitialized site => exact absurd rfl (made site)
  | _ => rfl

@[simp] theorem width_renumber (number : Nat → Nat) (type : BlockType) :
    (type.renumber number).width = type.width := by
  cases type <;> rfl

theorem renumber_injective (apart : Function.Injective number) :
    Function.Injective (renumber number) := by
  intro type other same
  cases type with
  | uninitialized site =>
    cases other with
    | uninitialized site' => exact congrArg _ (apart (VerificationType.uninitialized.inj same))
    | _ => cases same
  | _ =>
    cases other with
    | uninitialized => cases same
    | _ => exact same

theorem elementType_renumber (type : BlockType) :
    CodeContext.elementType (type.renumber number) =
      (CodeContext.elementType type).renumber number := by
  rw [renumber_of_ne (elementType_ne_uninitialized type)]
  cases type <;> rfl

end VerificationType

theorem Frame.renumber_renumber (number number' : Nat → Nat) (frame : BlockFrame) :
    (frame.renumber number).renumber number' = frame.renumber (number' ∘ number) := by
  have types : VerificationType.renumber number' ∘ VerificationType.renumber number =
      VerificationType.renumber (number' ∘ number) := by
    funext type
    cases type <;> rfl
  rw [Frame.renumber, Frame.renumber, List.map_map, List.map_map, types, Frame.renumber]

/-- Only the numbers of the sites of a frame count. -/
theorem Frame.renumber_congr {number number' : Nat → Nat} {frame : BlockFrame}
    (same : ∀ site, frame.Mentions site → number site = number' site) :
    frame.renumber number = frame.renumber number' := by
  have types : ∀ type, type ∈ frame.locals ∨ type ∈ frame.stack →
      type.renumber number = type.renumber number' := by
    intro type member
    cases type with
    | uninitialized site => exact congrArg _ (same site member)
    | _ => rfl
  exact congrArg₂ Frame.mk (List.map_congr_left fun type member => types type (.inl member))
    (List.map_congr_left fun type member => types type (.inr member))

/-! ## Operands and local variables -/

/-- A run ends in the frame of another one with other numbers, and where that fails, so
does it. -/
def RunsAs (number : Nat → Nat) (run run' : Except Fault BlockFrame) : Prop :=
  EndsAlike (fun frame frame' => frame' = frame.renumber number) run run'

theorem RunsAs.ok (frame : BlockFrame) : RunsAs number (.ok frame) (.ok (frame.renumber number)) :=
  EndsAlike.ok rfl

theorem RunsAs.error (fault fault' : Fault) : RunsAs number (.error fault) (.error fault') :=
  EndsAlike.error fault fault'

theorem RunsAs.bind {run run' : Except Fault BlockFrame}
    {next next' : BlockFrame → Except Fault BlockFrame} (runs : RunsAs number run run')
    (onward : ∀ frame, RunsAs number (next frame) (next' (frame.renumber number))) :
    RunsAs number (run >>= next) (run' >>= next') := by
  refine EndsAlike.bind runs fun frame frame' same => ?_
  rw [same]
  exact onward frame

namespace Frame

variable {frame : BlockFrame} {types : List BlockType}

theorem drop_renumber (frame : BlockFrame) (count : Nat) (site site' : UnderflowSite) :
    RunsAs number (frame.drop count site) ((frame.renumber number).drop count site') := by
  unfold drop
  have length : (frame.renumber number).stack.length = frame.stack.length := List.length_map _
  rw [length]
  split
  · have dropped : (frame.renumber number).stack.drop count =
        (frame.stack.drop count).map (VerificationType.renumber number) := List.map_drop.symm
    rw [dropped]
    exact .ok ⟨frame.locals, frame.stack.drop count⟩
  · exact .error _ _

theorem pop_renumber (frame : BlockFrame) (site site' : UnderflowSite)
    {next next' : BlockType × BlockFrame → Except Fault BlockFrame}
    (onward : ∀ type below, RunsAs number (next (type, below))
      (next' (type.renumber number, below.renumber number))) :
    RunsAs number (frame.pop site >>= next) ((frame.renumber number).pop site' >>= next') := by
  obtain ⟨locals, stack⟩ := frame
  cases stack with
  | nil => exact .error _ _
  | cons type rest => exact onward type ⟨locals, rest⟩

theorem local_renumber (frame : BlockFrame) (slot : Nat)
    {next next' : BlockType → Except Fault BlockFrame}
    (onward : ∀ type, RunsAs number (next type) (next' (type.renumber number))) :
    RunsAs number (frame.local_ slot >>= next) ((frame.renumber number).local_ slot >>= next') := by
  rw [local_, local_, renumber, List.getElem?_map]
  cases frame.locals[slot]? with
  | none => exact .error _ _
  | some type => exact onward type

theorem storeLocal_renumber (frame : BlockFrame) (slot : Nat) (type : BlockType) :
    RunsAs number (frame.storeLocal slot type)
      ((frame.renumber number).storeLocal slot (type.renumber number)) := by
  unfold storeLocal
  have widths : ∀ index : Nat, ((frame.renumber number).locals[index]?.map VerificationType.width) =
      frame.locals[index]?.map VerificationType.width := by
    intro index
    rw [renumber, List.getElem?_map, Option.map_map]
    exact congrArg (Option.map · _) (funext (VerificationType.width_renumber number))
  have length : (frame.renumber number).locals.length = frame.locals.length := List.length_map _
  rw [VerificationType.width_renumber, length, widths]
  split
  · have stored : ∀ (locals : List BlockType) (slot : Nat) (type : BlockType),
        (locals.map (VerificationType.renumber number)).set slot (type.renumber number) =
          (locals.set slot type).map (VerificationType.renumber number) :=
      fun _ _ _ => List.map_set.symm
    have top : ∀ (locals : List BlockType) (slot : Nat),
        (locals.map (VerificationType.renumber number)).set slot .top =
          (locals.set slot .top).map (VerificationType.renumber number) :=
      fun locals slot => stored locals slot .top
    rw [renumber, top, ← apply_ite (List.map (VerificationType.renumber number))]
    dsimp only
    rw [stored, top, ← apply_ite (List.map (VerificationType.renumber number))]
    exact .ok ⟨_, frame.stack⟩
  · exact .error _ _

theorem replace_renumber (apart : Function.Injective number) (frame : BlockFrame)
    (old : BlockType) (name : String) :
    (frame.renumber number).replace (old.renumber number) (.object name) =
      (frame.replace old (.object name)).renumber number := by
  have types : ∀ types : List BlockType,
      (types.map (VerificationType.renumber number)).map
          (fun type => if type = old.renumber number then .object name else type) =
        (types.map fun type => if type = old then .object name else type).map
          (VerificationType.renumber number) := by
    intro types
    rw [List.map_map, List.map_map]
    refine List.map_congr_left fun type _ => ?_
    dsimp only [Function.comp_apply]
    rw [apply_ite (VerificationType.renumber number)]
    exact if_congr (VerificationType.renumber_injective apart).eq_iff rfl rfl
  rw [replace, replace, renumber, renumber]
  exact congrArg₂ Frame.mk (types frame.locals) (types frame.stack)

theorem give_renumber (frame : BlockFrame) (given : Option BlockType) :
    (frame.renumber number).give (given.map (VerificationType.renumber number)) =
      (frame.give given).renumber number := by
  cases given <;> rfl

end Frame

/-- Operands are rearranged by their widths alone. -/
theorem Shuffle.rearrange_renumber (op : Shuffle) (types : List BlockType) :
    op.rearrange? (types.map (VerificationType.renumber number)) =
      (op.rearrange? types).map (List.map (VerificationType.renumber number)) := by
  have narrow : ∀ type : BlockType, isNarrow (type.renumber number) = isNarrow type := by
    intro type
    rw [isNarrow, VerificationType.width_renumber, isNarrow]
  have each : List.Forall₂ (fun type other => type = other.renumber number)
      (types.map (VerificationType.renumber number)) types :=
    List.forall₂_map_left_iff.2 (List.forall₂_same.2 fun _ _ => rfl)
  have each' : List.Forall₂ (fun type other => other = type.renumber number)
      types (types.map (VerificationType.renumber number)) := each.flip
  cases run : op.rearrange? types with
  | some rearranged =>
    obtain ⟨result, run', same⟩ := rearrange_forall₂
      (by rintro _ other rfl; exact narrow other) each run
    rw [run', Option.map_some]
    refine congrArg some ?_
    rwa [← List.forall₂_eq_eq_eq, List.forall₂_map_right_iff]
  | none =>
    cases run' : op.rearrange? (types.map (VerificationType.renumber number)) with
    | some rearranged =>
      obtain ⟨result, run'', -⟩ := rearrange_forall₂
        (by rintro type _ rfl; exact (narrow type).symm) each' run'
      cases run.symm.trans run''
    | none => rfl

/-! ## Instructions -/

/-- A context whose blocks have other numbers. -/
structure CodeContext.Renumbered (number : Nat → Nat) (context context' : CodeContext) : Prop where
  method : context'.method = context.method
  pool : context'.pool = context.pool
  sites : ∀ site cls, context'.siteClass (number site) = .ok cls ↔ context.siteClass site = .ok cls

def Effect.renumber (number : Nat → Nat) : Effect → Effect
  | .exchange taken given => .exchange taken (given.map (VerificationType.renumber number))
  | .construct arguments result =>
    .construct arguments (result.map (VerificationType.renumber number))
  | effect => effect

theorem Effect.renumber_of_given {effect : Effect}
    (noSite : ∀ type, effect.given? = some type → ∀ site, type ≠ .uninitialized site) :
    effect.renumber number = effect := by
  have same : ∀ given : Option BlockType,
      (∀ type, given = some type → ∀ site, type ≠ .uninitialized site) →
        given.map (VerificationType.renumber number) = given := by
    intro given noSite
    cases given with
    | none => rfl
    | some type => exact congrArg some (VerificationType.renumber_of_ne (noSite type rfl))
  cases effect with
  | exchange taken given => exact congrArg (Effect.exchange taken) (same given noSite)
  | construct arguments result => exact congrArg (Effect.construct arguments) (same result noSite)
  | _ => rfl

variable {context context' : CodeContext} (renumbered : context.Renumbered number context')

include renumbered

theorem CodeContext.Renumbered.initializedClass {type : BlockType} {cls? : Option String} :
    context'.initializedClass (type.renumber number) = .ok cls? ↔
      context.initializedClass type = .ok cls? := by
  cases type with
  | uninitializedThis =>
    change Except.ok (some context'.method.thisClass) = _ ↔ _
    rw [renumbered.method]
    rfl
  | uninitialized site =>
    change some <$> context'.siteClass (number site) = _ ↔ some <$> context.siteClass site = _
    simp only [map_eq_ok, renumbered.sites]
  | _ => rfl

omit renumbered in
theorem Effect.turns_of_runs {effect effect' : Effect} {frame frame' after' : BlockFrame}
    {run run' : Except Fault BlockFrame}
    (turns : ∀ after, effect.Turns context frame after ↔ run = .ok after)
    (turns' : ∀ after, effect'.Turns context' frame' after ↔ run' = .ok after)
    (runs : RunsAs number run run') : effect'.Turns context' frame' after' ↔
      ∃ after, effect.Turns context frame after ∧ after' = after.renumber number := by
  rw [turns', EndsAlike.iff_ok_iff.1 runs]
  simp only [turns]

/-- An effect does the same whatever numbers the blocks have. -/
theorem Effect.turns_renumber (apart : Function.Injective number) (effect : Effect)
    (frame after' : BlockFrame) :
    (effect.renumber number).Turns context' (frame.renumber number) after' ↔
      ∃ after, effect.Turns context frame after ∧ after' = after.renumber number := by
  have site : UnderflowSite := .instruction .nop
  cases effect with
  | exchange taken given =>
    refine turns_of_runs (fun _ => turns_dropGive) (fun _ => turns_dropGive)
      ((frame.drop_renumber taken site site).bind fun middle => ?_)
    rw [Frame.give_renumber]
    exact .ok (middle.give given)
  | load slot =>
    exact turns_of_runs (fun _ => turns_load) (fun _ => turns_load)
      (frame.local_renumber slot fun type => .ok (frame.push type))
  | store slot =>
    exact turns_of_runs (fun _ => turns_store) (fun _ => turns_store)
      (frame.pop_renumber site site fun type middle => middle.storeLocal_renumber slot type)
  | touch slot =>
    exact turns_of_runs (fun _ => turns_touch) (fun _ => turns_touch)
      (frame.local_renumber slot fun _ => .ok frame)
  | element =>
    refine turns_of_runs (fun _ => turns_element) (fun _ => turns_element)
      ((frame.drop_renumber 1 site site).bind fun middle =>
        middle.pop_renumber site site fun array below => ?_)
    dsimp only
    rw [VerificationType.elementType_renumber]
    exact .ok (below.push (CodeContext.elementType array))
  | rearrange op =>
    refine turns_of_runs (fun after => @turns_rearrange context frame after site op)
      (fun after => @turns_rearrange context' _ after site op) ?_
    rw [Frame.renumber, Shuffle.rearrange_renumber]
    cases op.rearrange? frame.stack with
    | some stack => exact .ok ⟨frame.locals, stack⟩
    | none => exact .error _ _
  | construct arguments result =>
    have dropped : (frame.renumber number).stack.drop arguments =
        (frame.stack.drop arguments).map (VerificationType.renumber number) := List.map_drop.symm
    have onward : ∀ (rest : List BlockType) (receiver : BlockType) (cls? : Option String),
        Frame.give (Frame.initialized (Frame.renumber number ⟨frame.locals, rest⟩)
          (receiver.renumber number) cls?) (result.map (VerificationType.renumber number)) =
            (Frame.give (Frame.initialized ⟨frame.locals, rest⟩ receiver cls?) result).renumber
              number := by
      intro rest receiver cls?
      rw [← Frame.give_renumber]
      cases cls? with
      | none => rfl
      | some cls => rw [Frame.initialized, Frame.initialized, Frame.replace_renumber apart]
    constructor
    · intro turns
      cases turns with
      | @construct _ _ _ _ cls? _ operands' made =>
        rw [dropped] at operands'
        obtain ⟨receiver, rest, operands, rfl, rfl⟩ := List.map_eq_cons_iff.1 operands'
        exact ⟨_, .construct operands ((renumbered.initializedClass).1 made), onward rest receiver cls?⟩
    · rintro ⟨_, turns, rfl⟩
      cases turns with
      | @construct _ _ receiver rest cls? _ operands made =>
        rw [operands] at dropped
        rw [← onward]
        exact .construct dropped (renumbered.initializedClass.2 made)

variable {block block' : Nat} {instruction : Instruction}

theorem CodeContext.Renumbered.effect
    (here : block' = number block ∨ ∀ cls, instruction ≠ .withClass .new cls) :
    context'.effect block' instruction =
      Effect.renumber number <$> context.effect block instruction := by
  by_cases isNew : ∃ cls, instruction = .withClass .new cls
  · obtain ⟨cls, rfl⟩ := isNew
    obtain rfl := here.resolve_right fun old => old cls rfl
    rfl
  · have same : context'.effect block' instruction = context.effect block instruction := by
      obtain ⟨graph, method, pool⟩ := context
      obtain ⟨graph', method', pool'⟩ := context'
      obtain rfl : pool' = pool := renumbered.pool
      cases instruction with
      | withClass op cls =>
        cases op with
        | new => exact absurd ⟨cls, rfl⟩ isNew
        | _ => rfl
      | load kind | arrayLoad kind => cases kind <;> rfl
      | accessField access => cases access <;> rfl
      | _ => rfl
    rw [same]
    cases found : context.effect block instruction with
    | error fault => rfl
    | ok effect =>
      refine congrArg Except.ok (Effect.renumber_of_given ?_).symm
      rintro _ given site rfl
      exact isNew (effect_given found given).1

/-- An instruction does the same whatever numbers the blocks have, where it makes an object
at the start of its block. -/
theorem CodeContext.Renumbered.step (apart : Function.Injective number)
    (here : block' = number block ∨ ∀ cls, instruction ≠ .withClass .new cls)
    (frame : BlockFrame) : RunsAs number (context.step block frame instruction)
      (context'.step block' (frame.renumber number) instruction) := by
  refine EndsAlike.iff_ok_iff.2 fun after' => ?_
  simp only [step_eq_ok block' instruction after', renumbered.effect here, map_eq_ok,
    step_eq_ok block instruction _]
  constructor
  · rintro ⟨_, ⟨effect, isEffect, rfl⟩, turns'⟩
    obtain ⟨after, turns, rfl⟩ := (Effect.turns_renumber renumbered apart _ _ _).1 turns'
    exact ⟨after, ⟨effect, isEffect, turns⟩, rfl⟩
  · rintro ⟨after, ⟨effect, isEffect, turns⟩, rfl⟩
    exact ⟨_, ⟨effect, isEffect, rfl⟩,
      (Effect.turns_renumber renumbered apart _ _ _).2 ⟨after, turns, rfl⟩⟩

theorem CodeContext.Renumbered.foldlM_step (apart : Function.Injective number)
    {instructions : List Instruction}
    (here : block' = number block ∨ ∀ cls, .withClass .new cls ∉ instructions)
    (frame : BlockFrame) : RunsAs number (instructions.foldlM (context.step block) frame)
      (instructions.foldlM (context'.step block') (frame.renumber number)) := by
  induction instructions generalizing frame with
  | nil => exact .ok frame
  | cons instruction instructions ih =>
    rw [List.foldlM_cons, List.foldlM_cons]
    refine (renumbered.step apart ?_ frame).bind (ih ?_)
    · exact here.imp_right fun old cls same => old cls (same ▸ List.mem_cons_self)
    · exact here.imp_right fun old cls member => old cls (List.mem_cons_of_mem _ member)

omit renumbered

theorem CodeContext.stepBranch_renumber (frame : BlockFrame) (branch : Branch Nat Nat Nat) :
    RunsAs number (stepBranch frame branch)
      (stepBranch (frame.renumber number) (branch.renumber number)) := by
  cases branch with
  | conditional condition => cases condition <;> exact frame.drop_renumber _ _ _
  | tableSwitch | lookupSwitch => exact frame.drop_renumber _ _ _
  | jsr | jsrWide | ret => exact .error _ _
  | _ => exact .ok frame

end

end ClassFile
