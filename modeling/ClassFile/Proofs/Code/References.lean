import ClassFile.Class.Builder
import ClassFile.Proofs.Code.Decoding
import ClassFile.Proofs.Code.Offsets
import ClassFile.Proofs.Code.Transcribing
import ClassFile.Proofs.Graph.Undefined

namespace ClassFile

/-!
# References of recorded code

Targets, handlers and sites in decoded code are offsets, which may be anything.  Recording
gives every offset that is referred to a label of its own, but places only those of
operations and of the end.  So when the method is ended, a reference leads to the block that
starts with just the operation at its offset, and where there is none the method fails.
-/

/-! ## Labels that are resolved -/

section

variable {leads leads' : Nat → Nat → Prop} {labels : Std.HashMap Nat Nat}

theorem VerificationType.Sited.resolve {type between type' : BlockType} (sited : Sited leads type between)
    (resolved : Sited (fun label block => FlowGraph.resolve labels label = .ok block) between type')
    (onward : ∀ offset label block, leads offset label → labels[label]? = some block →
      leads' offset block) : Sited leads' type type' := by
  cases sited with
  | uninitialized made =>
    cases resolved with
    | uninitialized known => exact .uninitialized (onward _ _ _ made (FlowGraph.resolve_eq_ok.1 known))
    | same finished => exact absurd rfl (finished _)
  | same finished =>
    cases resolved with
    | uninitialized => exact absurd rfl (finished _)
    | same => exact .same finished

theorem Operation.Becomes.resolve {returned : Option ValueKind} {operation : Operation}
    {step : Step Unit} {step' : Step Nat} (becomes : operation.Becomes leads returned step)
    (resolved : FlowGraph.StepResolved labels step step')
    (onward : ∀ offset label block, leads offset label → labels[label]? = some block →
      leads' offset block) : operation.Becomes leads' returned step' := by
  have through : ∀ offset block,
      Relation.Comp leads (fun label block => labels[label]? = some block) offset block →
        leads' offset block :=
    fun offset block ⟨label, first, second⟩ => onward offset label block first second
  cases becomes with
  | instruction found recorded =>
    cases resolved
    exact .instruction found recorded
  | branch renamed =>
    cases resolved with
    | branch renamed' =>
      exact .branch ((renamed.comp renamed').mono through through fun _ _ _ => trivial)

theorem DecodedHandler.Becomes.resolve {decoded : DecodedHandler} {handler handler' : Handler}
    (becomes : decoded.Becomes leads handler)
    (resolved : FlowGraph.resolveHandler labels handler = .ok handler')
    (onward : ∀ offset label block, leads offset label → labels[label]? = some block →
      leads' offset block) : decoded.Becomes leads' handler' := by
  rcases bind_eq_ok.1 resolved with ⟨start, isStart, rest⟩
  rcases bind_eq_ok.1 rest with ⟨stop, isStop, rest⟩
  rcases bind_eq_ok.1 rest with ⟨entry, isEntry, same⟩
  cases same
  exact ⟨onward _ _ _ becomes.start (FlowGraph.resolve_eq_ok.1 isStart),
    onward _ _ _ becomes.stop (FlowGraph.resolve_eq_ok.1 isStop),
    onward _ _ _ becomes.entry (FlowGraph.resolve_eq_ok.1 isEntry)⟩

theorem DecodedFrame.Becomes.resolve {decoded : DecodedFrame} {frame frame' : BlockFrame}
    (becomes : decoded.Becomes leads frame)
    (resolved : frame.mapM pure (FlowGraph.resolve labels) = .ok frame')
    (onward : ∀ offset label block, leads offset label → labels[label]? = some block →
      leads' offset block) : decoded.Becomes leads' frame' := by
  rcases becomes with ⟨locals, operands, rfl, areLocals, areOperands⟩
  rcases bind_eq_ok.1 resolved with ⟨slots, areSlots, rest⟩
  rcases bind_eq_ok.1 rest with ⟨operands', isStack, same⟩
  cases same
  rcases Frame.sited_spread (VerificationType.sited_types areSlots) with ⟨locals', rfl, each⟩
  have each' := VerificationType.sited_types isStack
  rw [Frame.operands, Frame.ofEntries, List.reverse_reverse] at each'
  have through : ∀ type type', Relation.Comp (VerificationType.Sited leads)
      (VerificationType.Sited fun label block => FlowGraph.resolve labels label = .ok block)
        type type' → VerificationType.Sited leads' type type' := by
    rintro type type' ⟨between, sited, known⟩
    exact sited.resolve known onward
  exact ⟨locals', operands', rfl, (forall₂_comp areLocals each).imp through,
    (forall₂_comp areOperands each').imp through⟩

theorem Frame.mem_spread_of_mem {locals : List BlockType} {type : BlockType} (member : type ∈ locals) :
    type ∈ spread locals := by
  induction locals with
  | nil => cases member
  | cons first locals ih =>
    rw [spread]
    rcases List.mem_cons.1 member with rfl | later
    · split <;> exact List.mem_cons_self
    · split
      · exact List.mem_cons_of_mem _ (List.mem_cons_of_mem _ (ih later))
      · exact List.mem_cons_of_mem _ (ih later)

/-- A frame mentions what the sites of a decoded frame lead to. -/
theorem DecodedFrame.Becomes.mentions {decoded : DecodedFrame} {frame : BlockFrame}
    (becomes : decoded.Becomes leads frame) {site : Nat} (isSite : site ∈ DecodedCode.sites decoded) :
    ∃ place, leads site place ∧ frame.Mentions place := by
  rcases becomes with ⟨locals, operands, rfl, areLocals, areOperands⟩
  have isType : .uninitialized site ∈ decoded.locals ++ decoded.operands := by
    rcases List.mem_filterMap.1 isSite with ⟨type, member, named⟩
    cases type with
    | uninitialized => exact Option.some.inj named ▸ member
    | _ => cases named
  have found : ∀ {types types' : List BlockType},
      List.Forall₂ (VerificationType.Sited leads) types types' → .uninitialized site ∈ types →
        ∃ place, leads site place ∧ .uninitialized place ∈ types' := by
    intro types types' each member
    rcases forall₂_mem each.flip member with ⟨type', isIn, sited⟩
    cases sited with
    | uninitialized made => exact ⟨_, made, isIn⟩
    | same finished => exact absurd rfl (finished site)
  rcases List.mem_append.1 isType with inLocals | inOperands
  · rcases found areLocals inLocals with ⟨place, made, isIn⟩
    exact ⟨place, made, .inl (Frame.mem_spread_of_mem isIn)⟩
  · rcases found areOperands inOperands with ⟨place, made, isIn⟩
    exact ⟨place, made, .inr (List.mem_reverse.2 isIn)⟩

end

/-! ## Methods that are recorded -/

/-- Labels that are placed are given out before and stand in one place each, branches take bytes,
and a method without code has none. -/
structure MethodDraft.Orderly (draft : MethodDraft) : Prop where
  once : (draft.items.toList.filterMap Item.label?).Nodup
  below : ∀ label ∈ draft.items.toList.filterMap Item.label?, label < draft.nextLabel
  solid : FlowGraph.Solid draft.items.toList
  bare : draft.hasCode = false → draft.items = #[] ∧ draft.handlers = #[]

/-- A method starts without code. -/
theorem MethodDraft.orderly_empty (access : Access .method) (name descriptor : PoolIndex)
    (context : MethodContext) : (empty access name descriptor context).Orderly where
  once := List.nodup_nil
  below := List.forall_mem_nil _
  solid := fun _ member => absurd member List.not_mem_nil
  bare := fun _ => ⟨rfl, rfl⟩

namespace DecodedCode

/-! ## Offsets and labels -/

/-- The offsets that a label can be placed at: those of the operations and the end. -/
def places (code : DecodedCode) : List Nat :=
  code.operations.map Prod.fst ++ [code.length]

/-- Something in the code refers to an offset. -/
inductive Refers (code : DecodedCode) (offset : Nat) : Prop
  | target {start : Nat} {found : Branch Nat Nat Unit}
      (member : (start, .branch found) ∈ code.operations) (isTarget : offset ∈ found.targets)
  | start {handler : DecodedHandler} (member : handler ∈ code.handlers) (same : handler.start = offset)
  | stop {handler : DecodedHandler} (member : handler ∈ code.handlers) (same : handler.stop = offset)
  | entry {handler : DecodedHandler} (member : handler ∈ code.handlers) (same : handler.entry = offset)
  | site {start : Nat} {operation : Operation} {frame : DecodedFrame}
      (member : (start, operation) ∈ code.operations) (framed : code.frame? start = some frame)
      (isSite : offset ∈ sites frame)

/-- A block starts with the operation at an offset, or at the end of the code, where some steps
stand before the code. -/
structure Leads (code : DecodedCode) (graph : FlowGraph) (base offset block : Nat) : Prop where
  inside : block < graph.blocks.size
  starts : ∃ index, code.places[index]? = some offset ∧ graph.position block = base + index

/-- The code is found in a graph behind some steps and handlers, and every reference leads where it
should.  Blocks start at different steps, so there is only one block to lead to. -/
structure Resolves (code : DecodedCode) (returned : Option ValueKind) (graph : FlowGraph)
    (base caught : Nat) : Prop where
  apart : ∀ block, block + 1 < graph.blocks.size → graph.position block < graph.position (block + 1)
  steps : List.Forall₂ (fun entry step => entry.2.Becomes (code.Leads graph base) returned step)
    code.operations (graph.steps.drop base)
  handlers : List.Forall₂ (DecodedHandler.Becomes (code.Leads graph base)) code.handlers
    (graph.handlers.drop caught)
  frames : ∀ (index offset : Nat) operation decoded, code.operations[index]? = some (offset, operation) →
    code.frame? offset = some decoded → ∃ (block : Nat) (here : CodeBlock) (frame : BlockFrame),
      graph.blocks[block]? = some here ∧ graph.position block = base + index ∧
        here.frame = some frame ∧ decoded.Becomes (code.Leads graph base) frame

variable {code : DecodedCode} {before after : MethodDraft} {items : List Item}
  {handlers : List Handler}

section

variable {offset other label : Nat} {draft : MethodDraft}

/-- The labels of code were not given out before. -/
theorem Labelled.fresh (labelled : Labelled (code.labelsIn draft) offset label) :
    draft.nextLabel ≤ label ∧ label < draft.nextLabel + code.labelled.size := by
  rcases labelsFrom_eq_some labelled with ⟨position, found, rfl⟩
  have inside := (Array.getElem?_eq_some_iff.1 found).1
  omega

/-- Different offsets have different labels. -/
theorem Labelled.injective (labelled : Labelled (code.labelsIn draft) offset label)
    (labelled' : Labelled (code.labelsIn draft) other label) : offset = other := by
  rcases labelsFrom_eq_some labelled with ⟨position, found, rfl⟩
  rcases labelsFrom_eq_some labelled' with ⟨position', found', same⟩
  cases Nat.add_left_cancel same
  exact Option.some.inj (found.symm.trans found')

end

namespace Adds

theorem items_eq (adds : code.Adds before after items handlers) : after.items.toList =
    before.items.toList ++ (items ++ labelItems (code.labelsIn before) code.length) := by
  rcases adds.extends_ with ⟨limits, rfl⟩
  simp [MethodDraft.extend]

theorem handlers_eq (adds : code.Adds before after items handlers) :
    after.handlers.toList = before.handlers.toList ++ handlers := by
  rcases adds.extends_ with ⟨limits, rfl⟩
  simp [MethodDraft.extend]

/-- The labels that are placed are those of offsets in the code. -/
theorem labels_eq (adds : code.Adds before after items handlers) :
    (items ++ labelItems (code.labelsIn before) code.length).filterMap Item.label? =
      code.places.filterMap ((code.labelsIn before)[·]?) := by
  rw [List.filterMap_append, adds.transcribes.labels_eq, Transcribes.label?_labelItems, places,
    List.filterMap_append]
  rfl

/-- The labels in the method afterwards. -/
theorem labels_after (adds : code.Adds before after items handlers) :
    after.items.toList.filterMap Item.label? = before.items.toList.filterMap Item.label? ++
      code.places.filterMap ((code.labelsIn before)[·]?) := by
  rw [adds.items_eq, List.filterMap_append, adds.labels_eq]

/-- A label is placed only if its offset has an operation or is the end. -/
theorem mem_places (adds : code.Adds before after items handlers) (orderly : before.Orderly)
    {offset label : Nat} (labelled : Labelled (code.labelsIn before) offset label)
    (placed : .label label ∈ after.items.toList) : offset ∈ code.places := by
  have named : label ∈ after.items.toList.filterMap Item.label? :=
    List.mem_filterMap.2 ⟨_, placed, rfl⟩
  rw [adds.labels_after, List.mem_append] at named
  rcases named with old | new
  · have below := orderly.below label old
    have fresh := labelled.fresh
    omega
  · rcases List.mem_filterMap.1 new with ⟨other, member, labelled'⟩
    rw [labelled.injective labelled']
    exact member

/-- The label of a place stands there. -/
theorem split_label (adds : code.Adds before after items handlers) {index offset label : Nat}
    (place : code.places[index]? = some offset)
    (labelled : Labelled (code.labelsIn before) offset label) :
    ∃ front back, after.items.toList = front ++ .label label :: back ∧
      (Item.steps front).length = (Item.steps before.items.toList).length + index := by
  have here : labelItems (code.labelsIn before) offset = [.label label] := by
    rw [labelItems, labelled]
    rfl
  rw [places, List.getElem?_append] at place
  split at place
  · rw [List.getElem?_map, Option.map_eq_some_iff] at place
    rcases place with ⟨⟨_, operation⟩, found, rfl⟩
    rcases adds.transcribes.split found with ⟨front, recorded?, step, back, whole, position, -⟩
    refine ⟨before.items.toList ++ front, recorded?.toList.map .frame ++ .ofStep step :: back ++
      labelItems (code.labelsIn before) code.length, ?_, ?_⟩
    · rw [adds.items_eq, whole, here]
      simp
    · rw [Item.steps_append, List.length_append, position]
  · next outside =>
    rw [List.length_map] at outside place
    rw [List.getElem?_singleton] at place
    split at place
    · cases place
      refine ⟨before.items.toList ++ items, [], ?_, ?_⟩
      · rw [adds.items_eq, here, List.append_assoc]
      · rw [Item.steps_append, List.length_append, ← adds.transcribes.steps.length_eq]
        omega
    · cases place

/-- The frame of an operation stands right before its step. -/
theorem split_frame (adds : code.Adds before after items handlers) {index offset : Nat}
    {operation : Operation} {decoded : DecodedFrame}
    (found : code.operations[index]? = some (offset, operation))
    (framed : code.frame? offset = some decoded) : ∃ front frame step back,
      after.items.toList = front ++ .frame frame :: .ofStep step :: back ∧
        (Item.steps front).length = (Item.steps before.items.toList).length + index ∧
          decoded.Becomes (Labelled (code.labelsIn before)) frame := by
  rcases adds.transcribes.split found with ⟨front, recorded?, step, back, whole, counted, rel⟩
  rw [framed] at rel
  cases rel with
  | @some _ frame becomes =>
    refine ⟨before.items.toList ++ front ++ labelItems (code.labelsIn before) offset, frame, step,
      back ++ labelItems (code.labelsIn before) code.length, ?_, ?_, becomes⟩
    · rw [adds.items_eq, whole]
      simp
    · rw [Item.steps_append, steps_labelItems, List.append_nil, Item.steps_append, List.length_append,
        counted]

/-! ## The method after recording -/

/-- A branch that is added was a branch of the code. -/
theorem solid (adds : code.Adds before after items handlers)
    (spaced : Operation.Spaced code.length 0 code.operations) : FlowGraph.Solid items := by
  intro branch member
  have isStep : .inr branch ∈ Item.steps items := List.mem_filterMap.2 ⟨_, member, rfl⟩
  rcases forall₂_mem adds.transcribes.steps isStep with ⟨⟨offset, operation⟩, isEntry, becomes⟩
  have solid := spaced.solid _ isEntry
  cases becomes with
  | branch renamed =>
    rw [← renamed.width]
    exact Branch.width_recordedAs (solid _ rfl)

/-- A method stays in order when code is recorded. -/
theorem orderly (adds : code.Adds before after items handlers) (orderly : before.Orderly)
    (spaced : Operation.Spaced code.length 0 code.operations) : after.Orderly := by
  have distinct : (code.places.filterMap ((code.labelsIn before)[·]?)).Nodup :=
    spaced.increasing.nodup.filterMap fun _ _ _ isLabel isLabel' => Labelled.injective isLabel isLabel'
  have fresh : ∀ label ∈ code.places.filterMap ((code.labelsIn before)[·]?),
      before.nextLabel ≤ label ∧ label < before.nextLabel + code.labelled.size := by
    intro label member
    rcases List.mem_filterMap.1 member with ⟨offset, -, labelled⟩
    exact Labelled.fresh labelled
  have next : after.nextLabel = before.nextLabel + code.labelled.size := by
    rcases adds.extends_ with ⟨limits, rfl⟩
    rfl
  constructor
  case once =>
    rw [adds.labels_after]
    refine orderly.once.append distinct fun label old new => ?_
    have below := orderly.below label old
    have above := (fresh label new).1
    omega
  case below =>
    rw [adds.labels_after, next, List.forall_mem_append]
    refine ⟨fun label old => ?_, fun label new => (fresh label new).2⟩
    have below := orderly.below label old
    omega
  case solid =>
    intro branch member
    rw [adds.items_eq, List.mem_append, List.mem_append] at member
    rcases member with old | new | last
    · exact orderly.solid branch old
    · exact adds.solid spaced branch new
    · rcases List.mem_map.1 last with ⟨_, -, same⟩
      cases same
  case bare =>
    rcases adds.extends_ with ⟨limits, rfl⟩
    intro none
    simp only [MethodDraft.extend, Bool.or_eq_false_iff, Bool.not_eq_eq_eq_not, Bool.not_false,
      List.isEmpty_iff] at none ⊢
    rcases orderly.bare none.1.1 with ⟨noItems, noHandlers⟩
    rw [noItems, noHandlers, none.1.2, none.2]
    exact ⟨rfl, rfl⟩

/-! ## Where references lead -/

section

variable {graph : FlowGraph} {pieces : List FlowGraph.Piece} {subroutines : Bool}

/-- A label of the code leads to the block at its offset. -/
theorem leads (adds : code.Adds before after items handlers) (orderly : before.Orderly)
    (solid : FlowGraph.Solid after.items.toList)
    (isCut : graph.IsCut after.items.toList after.handlers.toList pieces) {offset label block : Nat}
    (labelled : Labelled (code.labelsIn before) offset label)
    (resolved : graph.labels[label]? = some block) :
    code.Leads graph (Item.steps before.items.toList).length offset block := by
  rcases (isCut.labels label block).1 resolved with ⟨piece, found, isMark⟩
  have placed : .label label ∈ after.items.toList := by
    rw [← isCut.whole]
    refine List.mem_flatMap.2 ⟨piece, List.mem_of_getElem? found, ?_⟩
    rw [FlowGraph.Piece.items, List.append_assoc]
    exact List.mem_append_left _ isMark
  rcases List.mem_iff_getElem?.1 (adds.mem_places orderly labelled placed) with ⟨index, place⟩
  rcases adds.split_label place labelled with ⟨front, back, split, counted⟩
  rcases isCut.position_of_label solid split with ⟨block', same, inside, position⟩
  cases same.symm.trans resolved
  exact ⟨inside, index, place, position.trans counted⟩

theorem resolves (adds : code.Adds before after items handlers) (orderly : before.Orderly)
    (solid : FlowGraph.Solid after.items.toList)
    (built : FlowGraph.ofItems after.items.toList after.handlers.toList subroutines = .ok graph) :
    code.Resolves before.context.returned graph (Item.steps before.items.toList).length
      before.handlers.size := by
  have isCut := FlowGraph.isCut_of_ofItems built
  have onward : ∀ offset label block : Nat, Labelled (code.labelsIn before) offset label →
      graph.labels[label]? = some block →
        code.Leads graph (Item.steps before.items.toList).length offset block :=
    fun _ _ _ => adds.leads orderly solid isCut
  constructor
  case apart => exact fun block inside => isCut.position_lt solid inside
  case steps =>
    have steps := List.forall₂_drop (Item.steps before.items.toList).length (isCut.steps solid)
    rw [adds.items_eq, Item.steps_append, List.drop_left, Item.steps_append, steps_labelItems,
      List.append_nil] at steps
    exact (forall₂_comp adds.transcribes.steps steps).imp
      fun _ _ ⟨_, becomes, resolved⟩ => becomes.resolve resolved onward
  case handlers =>
    have caught := List.forall₂_drop before.handlers.size isCut.handlers
    rw [adds.handlers_eq, ← Array.length_toList, List.drop_left] at caught
    exact (forall₂_comp adds.caught caught).imp
      fun _ _ ⟨_, becomes, resolved⟩ => becomes.resolve resolved onward
  case frames =>
    intro index offset operation decoded found framed
    rcases adds.split_frame found framed with ⟨front, frame, step, back, split, counted, becomes⟩
    rcases isCut.frame_of_step solid split with ⟨block, here, frame', there, position, isFrame, run⟩
    exact ⟨block, here, frame', there, position.trans counted, isFrame, becomes.resolve run onward⟩

end

/-! ## References that lead nowhere -/

section

variable {subroutines : Bool}

theorem mem_places_of_target (adds : code.Adds before after items handlers) (orderly : before.Orderly)
    (linked : FlowGraph.Linked after.items.toList after.handlers.toList subroutines)
    {start offset : Nat} {found : Branch Nat Nat Unit} (member : (start, .branch found) ∈ code.operations)
    (isTarget : offset ∈ found.targets) : offset ∈ code.places := by
  rcases forall₂_mem adds.transcribes.steps.flip member with ⟨step, isStep, becomes⟩
  cases becomes with
  | @branch found recorded renamed =>
    rcases List.mem_filterMap.1 isStep with ⟨item, isItem, same⟩
    have isBranch : item = .branch recorded := by
      cases item <;> cases same
      rfl
    have added : .branch recorded ∈ after.items.toList := by
      rw [adds.items_eq, ← isBranch]
      exact List.mem_append_right _ (List.mem_append_left _ isItem)
    rw [← Branch.mem_targets_recordedAs] at isTarget
    rcases forall₂_mem renamed.targets.flip isTarget with ⟨label, isTarget', labelled⟩
    exact adds.mem_places orderly labelled (linked.branches recorded added label isTarget')

theorem mem_places_of_handler (adds : code.Adds before after items handlers) (orderly : before.Orderly)
    (linked : FlowGraph.Linked after.items.toList after.handlers.toList subroutines)
    {decoded : DecodedHandler} (member : decoded ∈ code.handlers) :
    decoded.start ∈ code.places ∧ decoded.stop ∈ code.places ∧ decoded.entry ∈ code.places := by
  rcases forall₂_mem adds.caught.flip member with ⟨handler, isHandler, becomes⟩
  have added : handler ∈ after.handlers.toList := by
    rw [adds.handlers_eq]
    exact List.mem_append_right _ isHandler
  rcases linked.handlers handler added with ⟨start, stop, entry⟩
  exact ⟨adds.mem_places orderly becomes.start start, adds.mem_places orderly becomes.stop stop,
    adds.mem_places orderly becomes.entry entry⟩

theorem mem_places_of_site (adds : code.Adds before after items handlers) (orderly : before.Orderly)
    (linked : FlowGraph.Linked after.items.toList after.handlers.toList subroutines)
    {start offset : Nat} {operation : Operation} {decoded : DecodedFrame}
    (member : (start, operation) ∈ code.operations) (framed : code.frame? start = some decoded)
    (isSite : offset ∈ sites decoded) : offset ∈ code.places := by
  rcases List.mem_iff_getElem?.1 member with ⟨index, found⟩
  rcases adds.split_frame found framed with ⟨front, frame, step, back, split, -, becomes⟩
  -- No mark comes between the frame and its step, so the frame is not replaced.
  have keeps : Item.Keeps after.items.toList frame := by
    refine ⟨front, .ofStep step :: back, split, ?_⟩
    rw [List.takeWhile_cons_of_neg (by rw [Item.isMark_ofStep]; exact Bool.false_ne_true)]
    exact List.forall_mem_nil _
  rcases becomes.mentions isSite with ⟨label, labelled, mentions⟩
  exact adds.mem_places orderly labelled (linked.frames frame keeps label mentions)

/-- Where labels are linked, nothing refers to an offset that is not a place. -/
theorem mem_places_of_refers (adds : code.Adds before after items handlers) (orderly : before.Orderly)
    (linked : FlowGraph.Linked after.items.toList after.handlers.toList subroutines) {offset : Nat}
    (refers : code.Refers offset) : offset ∈ code.places := by
  cases refers with
  | target member isTarget => exact adds.mem_places_of_target orderly linked member isTarget
  | start member same => exact same ▸ (adds.mem_places_of_handler orderly linked member).1
  | stop member same => exact same ▸ (adds.mem_places_of_handler orderly linked member).2.1
  | entry member same => exact same ▸ (adds.mem_places_of_handler orderly linked member).2.2
  | site member framed isSite => exact adds.mem_places_of_site orderly linked member framed isSite

end

end Adds
end DecodedCode

/-! ## Ending a method -/

namespace Build

variable {draft : MethodDraft} {body : MethodBody} {builder built : ClassBuilder}

theorem run_assembling {α : Type} {action : Assembler α} {answer : Except Fault α}
    {after : Assembler.State} (run : action.run ⟨builder.pool, builder.hierarchy⟩ = (answer, after)) :
    (assembling action).run builder =
      (answer, { builder with pool := after.pool, hierarchy := after.hierarchy }) := by
  let place (result : Except Fault α × Assembler.State) : Except Fault α × ClassBuilder :=
    (result.1, { builder with pool := result.2.pool, hierarchy := result.2.hierarchy })
  exact congrArg place run

/-- A method fails first for its labels and subroutines, before anything changes. -/
theorem run_endMethod_of_error {fault : Fault} (isBody : draft.body? = some body)
    (fails : FlowGraph.ofItems body.items body.handlers (!builder.mode.computesFrames) = .error fault) :
    (endMethod draft).run builder = (.error fault, builder) := by
  have assembles : ∀ method wantsFrames (before : Assembler.State),
      (body.assemble method builder.mode wantsFrames).run before = (.error fault, before) := by
    intro method wantsFrames before
    rw [MethodBody.assemble]
    apply run_bind_of_error
    rw [run_lift, fails]
  have code : (codeAttribute draft.context body).run builder = (.error fault, builder) := by
    rw [codeAttribute, run_get_bind]
    apply run_bind_of_error
    exact run_assembling (assembles _ _ _)
  rw [endMethod, isBody, Option.mapM_some, ← bind_pure_comp]
  exact run_bind_of_error (run_bind_of_error code)

theorem exists_ofItems_of_endMethod (isBody : draft.body? = some body)
    (run : (endMethod draft).run builder = (.ok (), built)) :
    ∃ graph, FlowGraph.ofItems body.items body.handlers (!builder.mode.computesFrames) = .ok graph := by
  cases outcome : FlowGraph.ofItems body.items body.handlers (!builder.mode.computesFrames) with
  | ok graph => exact ⟨graph, rfl⟩
  | error fault =>
    rw [run_endMethod_of_error isBody outcome] at run
    cases run

end Build

namespace MethodDraft

/-- A method that is in order has the code that was recorded, or there is none. -/
theorem Orderly.body?_cases {draft : MethodDraft} (orderly : draft.Orderly) :
    draft.body? = some ⟨draft.items.toList, draft.handlers.toList, draft.limits⟩ ∨
      draft.body? = none ∧ draft.items = #[] ∧ draft.handlers = #[] := by
  rw [body?]
  cases has : draft.hasCode with
  | true => exact .inl rfl
  | false => exact .inr ⟨rfl, orderly.bare has⟩

end MethodDraft

namespace DecodedCode

variable {pool : Pool} {method : MethodContext} {wantsFrames : Bool} {info : Bytes} {code : DecodedCode}
  {before after : Record.State} {ended : MethodDraft} {builder : ClassBuilder}

/-- When code that was read is recorded and the method is ended, every reference leads to the block
that starts with the operation at just its offset, or at the end of the code.  If anything refers to
an offset with neither, the method fails. -/
theorem record_resolves (decoded : (read pool method wantsFrames).runOn info = .ok code)
    (orderly : before.draft.Orderly)
    (recorded : (code.record pool).run before = (.ok (), after))
    (same : ended.body? = after.draft.body?) :
    after.draft.Orderly ∧
      (∀ built, (Build.endMethod ended).run builder = (.ok (), built) →
        ∃ graph, FlowGraph.ofItems after.draft.items.toList after.draft.handlers.toList
            (!builder.mode.computesFrames) = .ok graph ∧
          code.Resolves before.draft.context.returned graph
            (Item.steps before.draft.items.toList).length before.draft.handlers.size) ∧
      ∀ offset, code.Refers offset → offset ∉ code.places →
        ∃ fault, (Build.endMethod ended).run builder = (.error fault, builder) ∧
          FlowGraph.Unlinkable after.draft.items.toList (!builder.mode.computesFrames) fault := by
  have spaced := spaced_of_read decoded
  rcases record_adds recorded with ⟨items, handlers, adds⟩
  have ordered := adds.orderly orderly spaced
  refine ⟨ordered, fun built run => ?_, fun offset refers missing => ?_⟩
  · have exists_ : ∃ graph, FlowGraph.ofItems after.draft.items.toList after.draft.handlers.toList
        (!builder.mode.computesFrames) = .ok graph := by
      rcases ordered.body?_cases with isBody | ⟨-, noItems, noHandlers⟩
      · exact Build.exists_ofItems_of_endMethod (same.trans isBody) run
      · rw [noItems, noHandlers]
        exact ⟨_, rfl⟩
    rcases exists_ with ⟨graph, built⟩
    exact ⟨graph, built, adds.resolves orderly ordered.solid built⟩
  · cases outcome : FlowGraph.ofItems after.draft.items.toList after.draft.handlers.toList
        (!builder.mode.computesFrames) with
    | ok graph =>
      have linked := FlowGraph.exists_ofItems_iff.1 ⟨graph, outcome⟩
      exact absurd (adds.mem_places_of_refers orderly linked refers) missing
    | error fault =>
      refine ⟨fault, ?_, FlowGraph.failsOnly_ofItems ordered.once fault outcome⟩
      rcases ordered.body?_cases with isBody | ⟨-, noItems, noHandlers⟩
      · exact Build.run_endMethod_of_error (same.trans isBody) outcome
      · rw [noItems, noHandlers] at outcome
        cases outcome

/-! ### A switch, and a jump into the middle of itself -/

deriving instance DecidableEq for DecodedHandler, DecodedCode

/-- The attribute of code with a switch that goes back to the start. -/
def switchingInfo : Bytes :=
  [0, 0, 0, 0, 0, 0, 0, 20] ++ switchingImage.bytes ++ [0, 0, 0, 0]

def switchingCode : DecodedCode :=
  ⟨⟨0, 0⟩, 20, [(0, .instruction .nop), (1, .branch (.tableSwitch 2 0 (.ofNat 5) [0]))], [], []⟩

/-- The attribute of code with a jump to the second of its own three bytes. -/
def strayInfo : Bytes :=
  [0, 0, 0, 0, 0, 0, 0, 3, 0xA7, 0, 1, 0, 0, 0, 0]

def strayCode : DecodedCode :=
  ⟨⟨0, 0⟩, 3, [(0, .branch (.goto 1))], [], []⟩

theorem switchingCode_read :
    (read .empty switchingMethod false).runOn switchingInfo = .ok switchingCode := by
  decide +kernel

theorem strayCode_read : (read .empty switchingMethod false).runOn strayInfo = .ok strayCode := by
  decide +kernel

def switchingDraft : MethodDraft :=
  .empty ⟨9, by decide⟩ 1 2 switchingMethod

/-- The method with the code of the switch. -/
def switchingEnded : MethodDraft :=
  { switchingDraft with
    items := switching.items.toArray
    limits := some ⟨0, 0⟩
    hasCode := true
    nextLabel := 1 }

/-- A class that has no frames in its code. -/
def switchingBuilder : ClassBuilder :=
  { ClassBuilder.ofPool .nothing (.ofGraph .standard []) .empty with
    header := some ⟨⟨0, 49⟩, ⟨0, by decide⟩, "Loop", 1, none, []⟩ }

/-- The only label is at the only offset that is referred to. -/
theorem labelsFrom_single (target offset : Nat) :
    (labelsFrom 0 #[target])[offset]? = if target = offset then some 0 else none := by
  refine Std.HashMap.getElem?_insert.trans ?_
  simp

theorem run_newLabels : (Record.newLabels 1).run ⟨.empty, switchingDraft⟩ =
    (.ok 0, ⟨.empty, { switchingDraft with nextLabel := 1 }⟩) :=
  rfl

theorem switchingCode_record : (switchingCode.record .empty).run ⟨.empty, switchingDraft⟩ =
    (.ok (), ⟨.empty, switchingEnded⟩) := by
  have labelled : switchingCode.labelled = #[0] :=
    (congrArg distinct (List.mergeSort_of_pairwise (by decide))).trans rfl
  have operations : switchingCode.operations =
      [(0, .instruction .nop), (1, .branch (.tableSwitch 2 0 (.ofNat 5) [0]))] := rfl
  have length : switchingCode.length = 20 := rfl
  have numbered : (Record.newLabels #[0].size).run ⟨.empty, switchingDraft⟩ = _ := run_newLabels
  have first := labelsFrom_single 0 0
  have second := labelsFrom_single 0 1
  have last := labelsFrom_single 0 20
  have unframed : ∀ offset, switchingCode.frame? offset = none := fun _ => Std.HashMap.getElem?_empty
  have relabels : relabelBranch (labelsFrom 0 #[0]) (.tableSwitch 0 0 (.ofNat 5) [0]) =
      .ok (.tableSwitch 0 0 (.ofNat 5) [0]) := by
    have known := labelAt_eq_ok.2 first
    rw [relabelBranch, Branch.mapM, known, mapM_eq_ok.2 (.cons known .nil)]
    rfl
  rw [record_eq, labelled, operations, length, run_bind_of_ok numbered]
  simp only [List.forM_cons, recordEntry, placeLabel, first, second, last, placeFrame, unframed,
    recordOperation, recordBranch, Branch.withPadding, relabels]
  rfl

theorem strayCode_record : ∃ after, (strayCode.record .empty).run ⟨.empty, switchingDraft⟩ =
    (.ok (), after) := by
  have labelled : strayCode.labelled = #[1] :=
    (congrArg distinct (List.mergeSort_of_pairwise (by decide))).trans rfl
  have operations : strayCode.operations = [(0, .branch (.goto 1))] := rfl
  have length : strayCode.length = 3 := rfl
  have numbered : (Record.newLabels #[1].size).run ⟨.empty, switchingDraft⟩ = _ := run_newLabels
  have first := labelsFrom_single 1 0
  have last := labelsFrom_single 1 3
  have unframed : ∀ offset, strayCode.frame? offset = none := fun _ => Std.HashMap.getElem?_empty
  have relabels : relabelBranch (labelsFrom 0 #[1]) (.goto 1) = .ok (.goto 0) := by
    rw [relabelBranch, Branch.mapM, labelAt_eq_ok.2 (labelsFrom_single 1 1)]
    rfl
  rw [record_eq, labelled, operations, length, run_bind_of_ok numbered]
  simp only [List.forM_cons, recordEntry, placeLabel, first, last, placeFrame, unframed,
    recordOperation, recordBranch, Branch.withPadding, relabels]
  exact ⟨_, rfl⟩

theorem switching_ends :
    ∃ built, (Build.endMethod switchingEnded).run switchingBuilder = (.ok (), built) := by
  have isBody : switchingEnded.body? = some { switching with limits := some ⟨0, 0⟩ } := rfl
  have assembles : ({ switching with limits := some ⟨0, 0⟩ }.assemble switchingMethod .nothing
      false).run ⟨switchingBuilder.pool, switchingBuilder.hierarchy⟩ = (.ok switchingImage, _) :=
    switching_run _
  have encodes : switchingImage.encode = .ok switchingInfo := by decide +kernel
  have code : ∃ attr between, (Build.codeAttribute switchingMethod
      { switching with limits := some ⟨0, 0⟩ }).run switchingBuilder = (.ok attr, between) := by
    rw [Build.codeAttribute, run_get_bind]
    exact ⟨_, _, run_bind_eq_ok.2 ⟨_, _, Build.run_assembling assembles, run_bind_eq_ok.2 ⟨_, _, rfl,
      run_bind_eq_ok.2 ⟨_, _, run_lift_eq_ok.2 ⟨encodes, rfl⟩, rfl⟩⟩⟩⟩
  rcases code with ⟨attr, between, code⟩
  rw [Build.endMethod, isBody, Option.mapM_some, ← bind_pure_comp]
  exact ⟨_, run_bind_eq_ok.2 ⟨_, _, run_bind_eq_ok.2 ⟨attr, between, code, rfl⟩, rfl⟩⟩

/-- The switch leads back to the start of its method, and the method with the jump into itself is
never built. -/
theorem record_resolves_switching :
    (∃ built graph, (Build.endMethod switchingEnded).run switchingBuilder = (.ok (), built) ∧
      FlowGraph.ofItems switching.items [] true = .ok graph ∧ switchingCode.Resolves none graph 0 0) ∧
    ∃ after label, (strayCode.record .empty).run ⟨.empty, switchingDraft⟩ = (.ok (), after) ∧
      (Build.endMethod after.draft).run switchingBuilder =
        (.error (.undefinedLabel label), switchingBuilder) := by
  have orderly := MethodDraft.orderly_empty ⟨9, by decide⟩ 1 2 switchingMethod
  constructor
  · rcases switching_ends with ⟨built, ends⟩
    rcases (record_resolves switchingCode_read orderly switchingCode_record rfl).2.1 built ends with
      ⟨graph, isGraph, resolves⟩
    exact ⟨built, graph, ends, isGraph, resolves⟩
  · rcases strayCode_record with ⟨after, recorded⟩
    have refers : strayCode.Refers 1 := .target List.mem_cons_self List.mem_cons_self
    have outcome : ∃ fault, (Build.endMethod after.draft).run switchingBuilder =
        (.error fault, switchingBuilder) ∧ FlowGraph.Unlinkable after.draft.items.toList true fault :=
      (record_resolves strayCode_read orderly recorded rfl).2.2 1 refers (by decide)
    rcases outcome with ⟨fault, fails, ⟨⟨subroutines, -⟩, -⟩ | ⟨-, label, rfl, -⟩⟩
    · cases subroutines
    · exact ⟨after, label, recorded, fails⟩

end DecodedCode
end ClassFile
