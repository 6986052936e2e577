import ClassFile.Code.Decoded
import ClassFile.Proofs.Graph.Positions

namespace ClassFile

/-!
# What recording decoded code adds

Decoded code is recorded operation by operation, each behind the label of its offset, if
anything refers to that, and behind its frame, if it has one.  Whatever refers to an offset
in the decoded code refers to the label of just that offset among the items.
-/

/-! ## References that change -/

namespace Branch

variable {σ ν : Type}

/-- A branch as it is recorded: wide jumps are short, paddings are left out, the keys of a
switch are in order, and returns follow the descriptor of the method. -/
def recordedAs (returned : Option ValueKind) : Branch σ σ ν → Branch σ σ ν
  | gotoWide target => goto target
  | jsrWide target next => jsr target next
  | tableSwitch _ otherwise low targets => tableSwitch 0 otherwise low targets
  | lookupSwitch _ otherwise pairs =>
    lookupSwitch 0 otherwise (pairs.mergeSort fun a b => a.1.toInt ≤ b.1.toInt)
  | returns _ => returns returned
  | branch => branch

theorem recordedAs_withPadding (returned : Option ValueKind) (padding : Nat) (branch : Branch σ σ ν) :
    (branch.withPadding padding).recordedAs returned = branch.recordedAs returned := by
  cases branch <;> rfl

/-- Recording takes no target away and adds none. -/
theorem mem_targets_recordedAs {returned : Option ValueKind} {branch : Branch σ σ ν} {target : σ} :
    target ∈ (branch.recordedAs returned).targets ↔ target ∈ branch.targets := by
  cases branch with
  | lookupSwitch padding otherwise pairs =>
    have sorted := (List.mergeSort_perm pairs fun a b => a.1.toInt ≤ b.1.toInt).map Prod.snd
    rw [recordedAs, targets, targets, List.mem_cons, List.mem_cons, sorted.mem_iff]
  | _ => rfl

theorem width_recordedAs {returned : Option ValueKind} {branch : Branch σ σ ν}
    (some_ : 0 < branch.width) : 0 < (branch.recordedAs returned).width := by
  cases branch with
  | fallThrough | stop => cases some_
  | ret slot => exact some_
  | tableSwitch | lookupSwitch =>
    rw [recordedAs, width]
    omega
  | _ => exact Nat.succ_pos _

end Branch

section

variable {α β κ : Type}

/-- Pairs with related values stay so when they are sorted by their keys. -/
theorem forall₂_mergeSort (before : κ → κ → Bool) {holds : α → β → Prop} {pairs : List (κ × α)}
    {pairs' : List (κ × β)}
    (each : List.Forall₂ (fun pair pair' => pair.1 = pair'.1 ∧ holds pair.2 pair'.2) pairs pairs') :
    List.Forall₂ (fun pair pair' => pair.1 = pair'.1 ∧ holds pair.2 pair'.2)
      (pairs.mergeSort fun first second => before first.1 second.1)
      (pairs'.mergeSort fun first second => before first.1 second.1) := by
  rcases List.forall₂_iff_zip.1 each with ⟨length, holdsAt⟩
  have firsts : (pairs.zip pairs').map Prod.fst = pairs := List.map_fst_zip (Nat.le_of_eq length)
  have seconds : (pairs.zip pairs').map Prod.snd = pairs' :=
    List.map_snd_zip (Nat.le_of_eq length.symm)
  -- Both lists are halves of one list, which has the same keys on either side.
  let sorted := (pairs.zip pairs').mergeSort fun first second => before first.1.1 second.1.1
  have isFirsts : sorted.map Prod.fst =
      pairs.mergeSort fun first second => before first.1 second.1 := by
    refine (List.map_mergeSort (s := fun first second => before first.1 second.1) ?_).trans ?_
    · exact fun _ _ _ _ => rfl
    · rw [firsts]
  have isSeconds : sorted.map Prod.snd =
      pairs'.mergeSort fun first second => before first.1 second.1 := by
    refine (List.map_mergeSort (s := fun first second => before first.1 second.1) ?_).trans ?_
    · intro first isIn second isIn'
      rw [(holdsAt isIn).1, (holdsAt isIn').1]
    · rw [seconds]
  rw [← isFirsts, ← isSeconds, List.forall₂_map_left_iff, List.forall₂_map_right_iff,
    List.forall₂_same]
  intro pair member
  exact holdsAt (List.mem_mergeSort.1 member)

end

namespace Branch.Renamed

variable {σ σ' ν ν' : Type} {leads : σ → σ' → Prop} {next : ν → ν' → Prop} {branch : Branch σ σ ν}
  {renamed : Branch σ' σ' ν'}

theorem recordedAs (same : Renamed leads leads next branch renamed) (returned : Option ValueKind) :
    Renamed leads leads next (branch.recordedAs returned) (renamed.recordedAs returned) := by
  cases same with
  | gotoWide taken => exact .goto taken
  | jsrWide taken back => exact .jsr taken back
  | tableSwitch _ low default_ taken => exact .tableSwitch 0 low default_ taken
  | lookupSwitch _ default_ taken =>
    exact .lookupSwitch 0 default_ (forall₂_mergeSort (fun a b => a.toInt ≤ b.toInt) taken)
  | returns _ => exact .returns returned
  | conditional condition taken otherwise => exact .conditional condition taken otherwise
  | goto taken => exact .goto taken
  | jsr taken back => exact .jsr taken back
  | ret slot => exact .ret slot
  | throws => exact .throws
  | fallThrough into => exact .fallThrough into
  | stop => exact .stop

/-- Renaming keeps a padding that was set. -/
theorem withPadding_eq {padding : Nat}
    (same : Renamed leads leads next (branch.withPadding padding) renamed) :
    renamed.withPadding padding = renamed := by
  generalize isPadded : branch.withPadding padding = padded at same
  cases same with
  | tableSwitch | lookupSwitch => cases branch <;> cases isPadded; rfl
  | _ => rfl

end Branch.Renamed

namespace VerificationType

/-- Types are the same but for the sites of uninitialized values. -/
inductive Sited (leads : Nat → Nat → Prop) : BlockType → BlockType → Prop
  | uninitialized {site site' : Nat} (made : leads site site') :
    Sited leads (.uninitialized site) (.uninitialized site')
  | same {type : BlockType} (made : ∀ site, type ≠ .uninitialized site) : Sited leads type type

variable {leads leads' : Nat → Nat → Prop} {type type' : BlockType}

theorem sited_of_mapM {site : Nat → Except Fault Nat} (run : type.mapM pure site = .ok type') :
    Sited (fun place place' => site place = .ok place') type type' := by
  cases type with
  | uninitialized place =>
    rcases bind_eq_ok.1 run with ⟨place', made, same⟩
    cases same
    exact .uninitialized made
  | _ =>
    cases run
    exact .same nofun

theorem sited_types {types types' : List BlockType} {site : Nat → Except Fault Nat}
    (run : types.mapM (fun type => type.mapM pure site) = .ok types') :
    List.Forall₂ (Sited fun place place' => site place = .ok place') types types' :=
  (mapM_eq_ok.1 run).imp fun _ _ => sited_of_mapM

theorem Sited.mono (sited : Sited leads type type')
    (onward : ∀ place place', leads place place' → leads' place place') : Sited leads' type type' := by
  cases sited with
  | uninitialized made => exact .uninitialized (onward _ _ made)
  | same made => exact .same made

theorem Sited.width (sited : Sited leads type type') : type.width = type'.width := by
  cases sited with
  | uninitialized | same => rfl

end VerificationType

namespace Frame

open VerificationType (Sited)

variable {leads : Nat → Nat → Prop}

/-- The slots of locals are those of related locals. -/
theorem sited_spread {locals slots : List BlockType}
    (each : List.Forall₂ (Sited leads) (spread locals) slots) :
    ∃ locals', slots = spread locals' ∧ List.Forall₂ (Sited leads) locals locals' := by
  induction locals generalizing slots with
  | nil =>
    cases each
    exact ⟨[], rfl, .nil⟩
  | cons type locals ih =>
    rw [spread] at each
    split at each
    · next wide =>
      cases each with
      | @cons _ type' _ _ here onward =>
        cases onward with
        | cons unusable onward =>
          rcases ih onward with ⟨locals', rfl, there⟩
          cases unusable
          exact ⟨type' :: locals', by rw [spread, if_pos (here.width ▸ wide)], .cons here there⟩
    · next narrow =>
      cases each with
      | @cons _ type' _ _ here onward =>
        rcases ih onward with ⟨locals', rfl, there⟩
        exact ⟨type' :: locals', by rw [spread, if_neg (here.width ▸ narrow)], .cons here there⟩

end Frame

/-! ## What decoded code becomes -/

/-- An instruction is recorded as one instruction and a branch as a branch, which leads where it
did. -/
inductive Operation.Becomes {ν : Type} (leads : Nat → Nat → Prop) (returned : Option ValueKind) :
    Operation → Step ν → Prop
  | instruction (found recorded : Instruction) : Becomes leads returned (.instruction found) (.inl recorded)
  | branch {found : Branch Nat Nat Unit} {recorded : Branch Nat Nat ν}
      (renamed : Branch.Renamed leads leads (fun _ _ => True) (found.recordedAs returned) recorded) :
      Becomes leads returned (.branch found) (.inr recorded)

/-- A frame lists the same types by value, made where they were. -/
def DecodedFrame.Becomes (leads : Nat → Nat → Prop) (decoded : DecodedFrame) (frame : BlockFrame) :
    Prop :=
  ∃ locals operands, frame = .ofEntries locals operands ∧
    List.Forall₂ (VerificationType.Sited leads) decoded.locals locals ∧
      List.Forall₂ (VerificationType.Sited leads) decoded.operands operands

structure DecodedHandler.Becomes (leads : Nat → Nat → Prop) (decoded : DecodedHandler)
    (handler : Handler) : Prop where
  start : leads decoded.start handler.start
  stop : leads decoded.stop handler.stop
  entry : leads decoded.entry handler.entry

/-! ## Labels by offset -/

namespace DecodedCode

variable {labels : Labels} {offset label : Nat}

/-- Labels are numbered in the order of the offsets. -/
theorem labelsFrom_eq_some {first : Nat} {offsets : Array Nat}
    (known : (labelsFrom first offsets)[offset]? = some label) :
    ∃ position, offsets[position]? = some offset ∧ label = first + position := by
  let Numbered (labels : Labels) : Prop := ∀ offset label : Nat, labels[offset]? = some label →
    ∃ position, offsets[position]? = some offset ∧ label = first + position
  have numbered : Numbered (labelsFrom first offsets) := by
    rw [labelsFrom, ← Array.foldl_toList]
    refine List.foldlRecOn _ _ ?_ fun labels soFar ⟨offset, position⟩ member => ?_
    · intro offset label known
      cases Std.HashMap.getElem?_empty.symm.trans known
    · intro other label known
      rw [Std.HashMap.getElem?_insert] at known
      split at known
      · next same =>
        cases known
        cases eq_of_beq same
        exact ⟨position, Array.mem_zipIdx_iff_getElem?.1 (Array.mem_toList_iff.1 member), rfl⟩
      · exact soFar other label known
  exact numbered offset label known

theorem labelAt_eq_ok : labelAt labels offset = .ok label ↔ labels[offset]? = some label := by
  rw [labelAt]
  split
  · next known => rw [known, Except.ok.injEq, Option.some.injEq]
  · next unknown => simp [unknown]

end DecodedCode

/-! ## What is added to a method -/

namespace MethodDraft

/-- A method with more code. -/
def extend (draft : MethodDraft) (items : List Item) (handlers : List Handler) : MethodDraft :=
  { draft with
    items := draft.items ++ items.toArray
    handlers := draft.handlers ++ handlers.toArray
    hasCode := draft.hasCode || !items.isEmpty || !handlers.isEmpty }

theorem add_eq_extend (draft : MethodDraft) (item : Item) : draft.add item = draft.extend [item] [] := by
  simp [add, extend]

theorem addHandler_eq_extend (draft : MethodDraft) (handler : Handler) :
    draft.addHandler handler = draft.extend [] [handler] := by
  simp [addHandler, extend]

@[simp]
theorem extend_nil (draft : MethodDraft) : draft.extend [] [] = draft := by
  simp [extend]

@[simp]
theorem extend_extend (draft : MethodDraft) (items items' : List Item)
    (handlers handlers' : List Handler) : (draft.extend items handlers).extend items' handlers' =
      draft.extend (items ++ items') (handlers ++ handlers') := by
  have hasCode : ∀ has : Bool, (has || !items.isEmpty || !handlers.isEmpty || !items'.isEmpty ||
      !handlers'.isEmpty) = (has || !(items ++ items').isEmpty || !(handlers ++ handlers').isEmpty) := by
    intro has
    cases has <;> cases items <;> cases items' <;> cases handlers <;> rfl
  simp only [extend, Array.append_assoc, List.append_toArray, hasCode]

end MethodDraft

/-- The kind of value that a method returns. -/
def MethodContext.returned (method : MethodContext) : Option ValueKind :=
  method.descriptor.result.map FieldType.kind

namespace Record

variable {α : Type} {before after : State}

/-- An action that succeeds only by adding an instruction. -/
def AddsInstruction (action : Record Unit) : Prop :=
  ∀ before after, action.run before = (.ok (), after) →
    ∃ recorded, after.draft = before.draft.extend [.instruction recorded] []

namespace AddsInstruction

theorem instruction (recorded : Instruction) : AddsInstruction (Record.instruction recorded) := by
  intro before after run
  cases run
  exact ⟨recorded, MethodDraft.add_eq_extend before.draft _⟩

theorem throw (fault : Fault) : AddsInstruction (MonadExcept.throw fault) := by
  intro before after run
  cases run

theorem lift {value : Except Fault α} {next : α → Record Unit}
    (adds : ∀ value, AddsInstruction (next value)) : AddsInstruction (liftM value >>= next) := by
  intro before after run
  rcases run_bind_eq_ok.1 run with ⟨found, between, first, onward⟩
  rcases run_lift_eq_ok.1 first with ⟨-, rfl⟩
  exact adds found _ _ onward

theorem symbol {request : Pool.Request α} {next : α → Record Unit}
    (adds : ∀ value, AddsInstruction (next value)) :
    AddsInstruction (Record.symbol request >>= next) := by
  intro before after run
  rcases run_bind_eq_ok.1 run with ⟨found, between, first, onward⟩
  have untouched : between.draft = before.draft := by
    cases congrArg Prod.snd first
    rfl
  rcases adds found _ _ onward with ⟨recorded, added⟩
  exact ⟨recorded, untouched ▸ added⟩

theorem withClass (op : ClassOp) (name : String) : AddsInstruction (Record.withClass op name) :=
  symbol fun _ => instruction _

theorem newMultiArray (descriptor : String) (dimensions : UInt8) :
    AddsInstruction (Record.newMultiArray descriptor dimensions) :=
  lift fun _ => symbol fun _ => instruction _

theorem load (value : Loadable) : AddsInstruction (Record.load value) :=
  lift fun _ => symbol fun _ => instruction _

theorem accessField (access : FieldAccess) (owner name descriptor : String) :
    AddsInstruction (Record.accessField access owner name descriptor) :=
  lift fun _ => symbol fun _ => instruction _

theorem invoke (kind : CallKind) (owner name descriptor : String) (ownerIsInterface : Bool) :
    AddsInstruction (Record.invoke kind owner name descriptor ownerIsInterface) := by
  refine lift fun parsed => symbol fun method => ?_
  split
  · exact instruction _
  · exact throw _

theorem invokeDynamic (name descriptor : String) (bootstrap : Handle) (arguments : List Loadable) :
    AddsInstruction (Record.invokeDynamic name descriptor bootstrap arguments) :=
  lift fun _ => symbol fun _ => instruction _

end AddsInstruction
end Record

namespace DecodedCode

open Record (AddsInstruction)

variable {labels : Labels} {before after : Record.State}

theorem addsInstruction (pool : Pool) (found : Instruction) :
    AddsInstruction (recordInstruction pool found) := by
  cases found with
  | loadConstant | loadWideConstant => exact .lift fun value => .load value
  | accessField access => exact .lift fun _ => .accessField access _ _ _
  | invoke mode => exact .lift fun _ => .lift fun _ => .invoke mode.kind _ _ _ _
  | invokeDynamic =>
    refine .lift fun constant => ?_
    split
    · exact .lift fun _ => .lift fun _ => .invokeDynamic _ _ _ _
    · exact .throw _
  | withClass op => exact .lift fun name => .withClass op name
  | newMultiArray _ dimensions => exact .lift fun name => .newMultiArray name dimensions
  | _ => exact .instruction _

/-- Offsets lead to their labels. -/
def Labelled (labels : Labels) (offset label : Nat) : Prop :=
  labels[offset]? = some label

theorem recordBranch_adds {found : Branch Nat Nat Unit}
    (run : (recordBranch labels found).run before = (.ok (), after)) :
    ∃ recorded, Branch.Renamed (Labelled labels) (Labelled labels) (fun _ _ => True)
        (found.recordedAs before.draft.context.returned) recorded ∧
      after.draft = before.draft.extend [.branch recorded] [] := by
  rcases run_bind_eq_ok.1 run with ⟨relabelled, between, first, onward⟩
  rcases run_lift_eq_ok.1 first with ⟨relabels, rfl⟩
  have renamed := Branch.renamed_of_mapM relabels
  have unpadded := renamed.withPadding_eq
  have recorded := (renamed.mono (fun _ _ => labelAt_eq_ok.1) (fun _ _ => labelAt_eq_ok.1)
    (fun _ _ _ => trivial)).recordedAs before.draft.context.returned
  rw [Branch.recordedAs_withPadding] at recorded
  refine ⟨_, recorded, ?_⟩
  rw [← MethodDraft.add_eq_extend]
  cases relabelled <;> cases unpadded <;> cases onward <;> rfl

theorem recordOperation_adds {pool : Pool} {operation : Operation}
    (run : (recordOperation pool labels operation).run before = (.ok (), after)) :
    ∃ step, operation.Becomes (Labelled labels) before.draft.context.returned step ∧
      after.draft = before.draft.extend [.ofStep step] [] := by
  cases operation with
  | instruction found =>
    rcases addsInstruction pool found before after run with ⟨recorded, added⟩
    exact ⟨.inl recorded, .instruction found recorded, added⟩
  | branch found =>
    rcases recordBranch_adds run with ⟨recorded, renamed, added⟩
    exact ⟨.inr recorded, .branch renamed, added⟩

/-- The label of an offset, where it has one. -/
def labelItems (labels : Labels) (offset : Nat) : List Item :=
  labels[offset]?.toList.map .label

theorem steps_labelItems (offset : Nat) : Item.steps (labelItems labels offset) = [] := by
  rw [labelItems]
  cases labels[offset]? <;> rfl

theorem placeLabel_adds {offset : Nat} (run : (placeLabel labels offset).run before = (.ok (), after)) :
    after.draft = before.draft.extend (labelItems labels offset) [] := by
  rw [placeLabel] at run
  rw [labelItems]
  split at run
  · next label known =>
    cases run
    rw [known]
    exact MethodDraft.add_eq_extend before.draft _
  · next unknown =>
    cases run
    rw [unknown]
    exact (MethodDraft.extend_nil before.draft).symm

theorem sited_of_relabelTypes {types relabelled : List BlockType}
    (run : relabelTypes labels types = .ok relabelled) :
    List.Forall₂ (VerificationType.Sited (Labelled labels)) types relabelled :=
  (VerificationType.sited_types run).imp fun _ _ sited => sited.mono fun _ _ => labelAt_eq_ok.1

theorem recordFrame_adds {decoded : DecodedFrame}
    (run : (recordFrame labels decoded).run before = (.ok (), after)) :
    ∃ frame, decoded.Becomes (Labelled labels) frame ∧
      after.draft = before.draft.extend [.frame frame] [] := by
  rcases run_bind_eq_ok.1 run with ⟨locals, between, first, onward⟩
  rcases run_lift_eq_ok.1 first with ⟨areLocals, rfl⟩
  rcases run_bind_eq_ok.1 onward with ⟨operands, between, second, onward⟩
  rcases run_lift_eq_ok.1 second with ⟨areOperands, rfl⟩
  cases onward
  exact ⟨_, ⟨locals, operands, rfl, sited_of_relabelTypes areLocals, sited_of_relabelTypes areOperands⟩,
    MethodDraft.add_eq_extend before.draft _⟩

theorem recordHandler_adds {decoded : DecodedHandler}
    (run : (recordHandler labels decoded).run before = (.ok (), after)) :
    ∃ handler, decoded.Becomes (Labelled labels) handler ∧
      after.draft = before.draft.extend [] [handler] := by
  rcases run_bind_eq_ok.1 run with ⟨start, between, first, onward⟩
  rcases run_lift_eq_ok.1 first with ⟨isStart, rfl⟩
  rcases run_bind_eq_ok.1 onward with ⟨stop, between, second, onward⟩
  rcases run_lift_eq_ok.1 second with ⟨isStop, rfl⟩
  rcases run_bind_eq_ok.1 onward with ⟨entry, between, third, onward⟩
  rcases run_lift_eq_ok.1 third with ⟨isEntry, rfl⟩
  rcases run_bind_eq_ok.1 onward with ⟨catches, caught, named, last⟩
  have untouched : caught.draft = before.draft := by
    cases isCaught : decoded.catches with
    | none =>
      rw [isCaught] at named
      cases named
      rfl
    | some name =>
      rw [isCaught, Option.mapM_some, ← bind_pure_comp] at named
      rcases run_bind_eq_ok.1 named with ⟨cls, found, isClass, same⟩
      cases congrArg Prod.snd isClass
      cases congrArg Prod.snd same
      rfl
  cases last
  refine ⟨⟨start, stop, entry, catches⟩,
    ⟨labelAt_eq_ok.1 isStart, labelAt_eq_ok.1 isStop, labelAt_eq_ok.1 isEntry⟩, ?_⟩
  rw [← untouched]
  exact MethodDraft.addHandler_eq_extend caught.draft _

/-! ## All of the code -/

/-- The frame at an offset. -/
def frame? (code : DecodedCode) (offset : Nat) : Option DecodedFrame :=
  (Std.HashMap.ofList code.frames)[offset]?

/-- Each operation is recorded behind its label and its frame. -/
inductive Transcribes (labels : Labels) (frame? : Nat → Option DecodedFrame)
    (returned : Option ValueKind) : List (Nat × Operation) → List Item → Prop
  | nil : Transcribes labels frame? returned [] []
  | cons {offset : Nat} {operation : Operation} {operations : List (Nat × Operation)}
      {recorded? : Option BlockFrame} {step : Step Unit} {items : List Item}
      (framed : Option.Rel (DecodedFrame.Becomes (Labelled labels)) (frame? offset) recorded?)
      (becomes : operation.Becomes (Labelled labels) returned step)
      (rest : Transcribes labels frame? returned operations items) :
      Transcribes labels frame? returned ((offset, operation) :: operations)
        (labelItems labels offset ++ recorded?.toList.map .frame ++ .ofStep step :: items)

namespace Transcribes

variable {frame? : Nat → Option DecodedFrame} {returned : Option ValueKind}
  {operations : List (Nat × Operation)} {items : List Item}

theorem isMark_of_mem {offset : Nat} {recorded? : Option BlockFrame} {item : Item}
    (member : item ∈ labelItems labels offset ++ recorded?.toList.map .frame) : item.isMark = true := by
  rcases List.mem_append.1 member with member | member
  all_goals
    rcases List.mem_map.1 member with ⟨_, -, rfl⟩
    rfl

/-- Every operation is one step. -/
theorem steps (transcribes : Transcribes labels frame? returned operations items) :
    List.Forall₂ (fun entry step => entry.2.Becomes (Labelled labels) returned step) operations
      (Item.steps items) := by
  induction transcribes with
  | nil => exact .nil
  | cons framed becomes rest ih =>
    rw [Item.steps_append, Item.steps_of_marks fun _ => isMark_of_mem, Item.steps_cons_ofStep]
    exact .cons becomes ih

theorem label?_labelItems (offset : Nat) :
    (labelItems labels offset).filterMap Item.label? = labels[offset]?.toList := by
  rw [labelItems]
  cases labels[offset]? <;> rfl

/-- Labels stand for the offsets of operations. -/
theorem labels_eq (transcribes : Transcribes labels frame? returned operations items) :
    items.filterMap Item.label? = (operations.map Prod.fst).filterMap (labels[·]?) := by
  induction transcribes with
  | nil => rfl
  | @cons offset operation operations recorded? step items framed becomes rest ih =>
    have unnamed : (recorded?.toList.map Item.frame).filterMap Item.label? = [] := by
      cases recorded? <;> rfl
    have undone : (Item.ofStep step).label? = none := by
      cases step <;> rfl
    rw [List.filterMap_append, List.filterMap_append, label?_labelItems, unnamed,
      List.filterMap_cons_none undone, ih, List.map_cons, List.append_nil]
    cases known : labels[offset]? with
    | none => rw [List.filterMap_cons_none known]; rfl
    | some label => rw [List.filterMap_cons_some known]; rfl

/-- An operation stands behind its label and its frame, and behind the operations before it. -/
theorem split (transcribes : Transcribes labels frame? returned operations items) {index offset : Nat}
    {operation : Operation} (found : operations[index]? = some (offset, operation)) :
    ∃ front recorded? step back,
      items = front ++ (labelItems labels offset ++ recorded?.toList.map .frame ++
        .ofStep step :: back) ∧
      (Item.steps front).length = index ∧
      Option.Rel (DecodedFrame.Becomes (Labelled labels)) (frame? offset) recorded? := by
  induction transcribes generalizing index with
  | nil => cases found
  | @cons first _ _ recorded? step items framed becomes rest ih =>
    cases index with
    | zero =>
      cases found
      exact ⟨[], recorded?, step, items, rfl, rfl, framed⟩
    | succ index =>
      rcases ih found with ⟨front, recorded?', step', back, rfl, position, framed'⟩
      refine ⟨labelItems labels first ++ recorded?.toList.map .frame ++ .ofStep step :: front,
        recorded?', step', back, by simp, ?_, framed'⟩
      rw [Item.steps_append, Item.steps_of_marks fun _ => isMark_of_mem, Item.steps_cons_ofStep,
        List.nil_append, List.length_cons, position]

end Transcribes

/-- Record the frame of an offset, if it has one. -/
def placeFrame (labels : Labels) (frame? : Option DecodedFrame) : Record Unit :=
  match frame? with
  | some frame => recordFrame labels frame
  | none => return ()

/-- Record an operation behind the label and the frame of its offset. -/
def recordEntry (pool : Pool) (labels : Labels) (frame? : Nat → Option DecodedFrame)
    (entry : Nat × Operation) : Record Unit := do
  placeLabel labels entry.1
  placeFrame labels (frame? entry.1)
  recordOperation pool labels entry.2

theorem record_eq (code : DecodedCode) (pool : Pool) : code.record pool = (do
    let first ← Record.newLabels code.labelled.size
    let labels := labelsFrom first code.labelled
    forM code.operations (recordEntry pool labels code.frame?)
    placeLabel labels code.length
    forM code.handlers (recordHandler labels)
    Record.limits code.limits) := by
  rw [record]
  refine bind_congr fun first => ?_
  dsimp only
  rw [← forIn_eq_forM, ← forIn_eq_forM]
  refine congrArg (· >>= _) (congrArg (forIn code.operations _) ?_)
  funext entry _
  simp only [recordEntry, frame?, bind_assoc]
  refine bind_congr fun _ => ?_
  cases (Std.HashMap.ofList code.frames)[entry.1]? with
  | some frame => rfl
  | none => rw [placeFrame, pure_bind]

theorem placeFrame_adds {frame? : Option DecodedFrame}
    (run : (placeFrame labels frame?).run before = (.ok (), after)) :
    ∃ recorded?, Option.Rel (DecodedFrame.Becomes (Labelled labels)) frame? recorded? ∧
      after.draft = before.draft.extend (recorded?.toList.map .frame) [] := by
  cases frame? with
  | some decoded =>
    rcases recordFrame_adds run with ⟨frame, becomes, added⟩
    exact ⟨some frame, .some becomes, added⟩
  | none =>
    cases run
    exact ⟨none, .none, (MethodDraft.extend_nil before.draft).symm⟩

theorem recordEntries_adds {pool : Pool} {frame? : Nat → Option DecodedFrame}
    {operations : List (Nat × Operation)}
    (run : (forM operations (recordEntry pool labels frame?)).run before = (.ok (), after)) :
    ∃ items, Transcribes labels frame? before.draft.context.returned operations items ∧
      after.draft = before.draft.extend items [] := by
  induction operations generalizing before with
  | nil =>
    rcases run_pure_eq_ok.1 run with ⟨-, rfl⟩
    exact ⟨[], .nil, (MethodDraft.extend_nil _).symm⟩
  | cons entry operations ih =>
    rcases run_bind_eq_ok.1 run with ⟨_, between, first, onward⟩
    rcases run_bind_eq_ok.1 first with ⟨_, labelled, placed, first⟩
    rcases run_bind_eq_ok.1 first with ⟨_, framed, isFrame, first⟩
    have label := placeLabel_adds placed
    rcases placeFrame_adds isFrame with ⟨recorded?, frame, framedDraft⟩
    rcases recordOperation_adds first with ⟨step, becomes, stepped⟩
    rcases ih onward with ⟨items, rest, added⟩
    rw [framedDraft, label] at stepped becomes
    rw [stepped] at added rest
    refine ⟨_, .cons frame becomes rest, ?_⟩
    rw [added]
    simp

theorem recordHandlers_adds {decoded : List DecodedHandler}
    (run : (forM decoded (recordHandler labels)).run before = (.ok (), after)) :
    ∃ handlers, List.Forall₂ (DecodedHandler.Becomes (Labelled labels)) decoded handlers ∧
      after.draft = before.draft.extend [] handlers := by
  induction decoded generalizing before with
  | nil =>
    rcases run_pure_eq_ok.1 run with ⟨-, rfl⟩
    exact ⟨[], .nil, (MethodDraft.extend_nil _).symm⟩
  | cons handler decoded ih =>
    rcases run_bind_eq_ok.1 run with ⟨_, between, first, onward⟩
    rcases recordHandler_adds first with ⟨recorded, becomes, added⟩
    rcases ih onward with ⟨handlers, rest, more⟩
    refine ⟨recorded :: handlers, .cons becomes rest, ?_⟩
    rw [more, added, MethodDraft.extend_extend]
    rfl

/-- The labels of decoded code in a method. -/
def labelsIn (code : DecodedCode) (draft : MethodDraft) : Labels :=
  labelsFrom draft.nextLabel code.labelled

/-- What decoded code adds to a method: items for its operations, the label of its end, and its
handlers. -/
structure Adds (code : DecodedCode) (before after : MethodDraft) (items : List Item)
    (handlers : List Handler) : Prop where
  transcribes : Transcribes (code.labelsIn before) code.frame? before.context.returned
    code.operations items
  caught : List.Forall₂ (DecodedHandler.Becomes (Labelled (code.labelsIn before))) code.handlers
    handlers
  extends_ : ∃ limits, after =
    { before.extend (items ++ labelItems (code.labelsIn before) code.length) handlers with
      nextLabel := before.nextLabel + code.labelled.size
      limits := limits }

theorem record_adds {code : DecodedCode} {pool : Pool}
    (run : (code.record pool).run before = (.ok (), after)) :
    ∃ items handlers, code.Adds before.draft after.draft items handlers := by
  rw [record_eq] at run
  rcases run_bind_eq_ok.1 run with ⟨first, numbered, given, run⟩
  rcases run_bind_eq_ok.1 run with ⟨_, between, entries, run⟩
  rcases run_bind_eq_ok.1 run with ⟨_, labelled, ended, run⟩
  rcases run_bind_eq_ok.1 run with ⟨_, handled, caught, last⟩
  cases given
  rcases recordEntries_adds entries with ⟨items, transcribes, added⟩
  have ended := placeLabel_adds ended
  rcases recordHandlers_adds caught with ⟨handlers, become, more⟩
  cases last
  refine ⟨items, handlers, transcribes, become, some code.limits, ?_⟩
  change { handled.draft with limits := some code.limits } = _
  rw [more, ended, added, MethodDraft.extend_extend, MethodDraft.extend_extend]
  simp only [List.append_nil, List.nil_append]
  rfl

end DecodedCode
end ClassFile
