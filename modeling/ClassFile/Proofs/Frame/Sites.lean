import ClassFile.Proofs.Frame.Effects
import ClassFile.Proofs.Frame.Known
import ClassFile.Proofs.Graph.Segments
import ClassFile.Proofs.Hierarchy.Faults

namespace ClassFile

/-!
# Where uninitialized values are made

A frame mentions the block that an uninitialized value was made in.  Blocks are cut before
every `new`, so such a block starts with the `new` that made the value.  No other
instruction adds a block to those that a frame mentions, and the class of a value is found
where its block starts with `new`.
-/

namespace Frame

/-- A value made at a site waits for its constructor. -/
def Mentions (frame : BlockFrame) (site : Nat) : Prop :=
  .uninitialized site ∈ frame.locals ∨ .uninitialized site ∈ frame.stack

end Frame

namespace FlowGraph

def StartsWithNew (graph : FlowGraph) (site : Nat) : Prop :=
  ∃ code cls, graph.blocks[site]? = some code ∧ code.instructions[0]? = some (.withClass .new cls)

/-- Values are only made at the start of a block. -/
def NewFirst (graph : FlowGraph) : Prop :=
  ∀ (block : Nat) code (index : Nat) cls, graph.blocks[block]? = some code →
    code.instructions[index]? = some (.withClass .new cls) → index = 0

/-! ## Blocks are cut before every `new` -/

/-- The instructions of an open block, of which only the first makes a value. -/
def Draft.NewFirst (draft : Draft) : Prop :=
  ∀ (index : Nat) cls, draft.instructions[index]? = some (.withClass .new cls) → index = 0

theorem Draft.newFirst_empty : Draft.empty.NewFirst :=
  fun index cls found => by cases found

namespace Drafts

variable {drafts after : Drafts}

structure NewFirst (drafts : Drafts) : Prop where
  closed : ∀ draft ∈ drafts.closed, draft.NewFirst
  open_ : drafts.open_.NewFirst

theorem NewFirst.cut (newFirst : NewFirst drafts) : NewFirst drafts.cut := by
  refine ⟨fun draft member => ?_, Draft.newFirst_empty⟩
  rcases Array.mem_push.1 member with before | rfl
  · exact newFirst.closed draft before
  · exact newFirst.open_

theorem NewFirst.split (newFirst : NewFirst drafts) : NewFirst drafts.split := by
  rw [Drafts.split]
  split
  · exact newFirst
  · exact newFirst.cut

theorem NewFirst.addInstruction (newFirst : NewFirst drafts) {instruction : Instruction}
    (first : instruction.isNew = true → drafts.open_.instructions = #[]) :
    NewFirst (drafts.addInstruction instruction) := by
  refine ⟨newFirst.closed, fun index cls found => ?_⟩
  have whole : (drafts.open_.instructions.push instruction)[index]? =
      some (.withClass .new cls) := found
  rw [Array.getElem?_push] at whole
  split at whole
  · next here =>
    obtain rfl := Option.some.inj whole
    rw [here, first rfl]
    rfl
  · exact newFirst.open_ index cls whole

theorem NewFirst.add {subroutines : Bool} {item : Item} (newFirst : NewFirst drafts)
    (run : drafts.add subroutines item = .ok after) : NewFirst after := by
  cases item with
  | label label =>
    obtain ⟨-, rfl⟩ := addLabel_eq_ok.1 run
    exact ⟨newFirst.split.closed, newFirst.split.open_⟩
  | frame frame =>
    cases run
    exact ⟨newFirst.split.closed, newFirst.split.open_⟩
  | instruction instruction =>
    cases run
    split
    · exact newFirst.split.addInstruction fun _ => isEmpty_split drafts
    · next other => exact newFirst.addInstruction fun new => absurd new other
  | branch branch =>
    rw [Drafts.add] at run
    split at run
    · cases run
    · cases run
      exact NewFirst.cut ⟨newFirst.closed, newFirst.open_⟩

end Drafts

theorem newFirst_of_ofItems {items : List Item} {handlers : List Handler} {subroutines : Bool}
    {graph : FlowGraph} (built : ofItems items handlers subroutines = .ok graph) :
    graph.NewFirst := by
  obtain ⟨drafts, cut, built⟩ := bind_eq_ok.1 built
  obtain ⟨blocks, resolved, built⟩ := bind_eq_ok.1 built
  obtain ⟨handlers', -, same⟩ := bind_eq_ok.1 built
  obtain rfl := pure_eq_ok.1 same
  obtain ⟨before, added, same⟩ := bind_eq_ok.1 cut
  obtain rfl := pure_eq_ok.1 same
  have nothing : Drafts.NewFirst Drafts.empty :=
    ⟨fun _ member => absurd member (Array.not_mem_empty _), Draft.newFirst_empty⟩
  have newFirst : Drafts.NewFirst before :=
    foldlM_preserves (fun item _ before after here => here.add) nothing added
  intro block code index cls isCode found
  rw [List.getElem?_toArray] at isCode
  obtain ⟨⟨draft, position⟩, isDraft, run⟩ := forall₂_getElem? (mapM_eq_ok.1 resolved) isCode
  rw [List.getElem?_zipIdx, Option.map_eq_some_iff] at isDraft
  obtain ⟨_, isDraft, same⟩ := isDraft
  obtain ⟨rfl, rfl⟩ := Prod.mk.inj same
  rw [Array.getElem?_toList] at isDraft
  rw [← (Draft.resolve_eq_ok.1 run).2.2] at found
  exact newFirst.cut.closed _ (Array.mem_of_getElem? isDraft) index cls found

end FlowGraph

/-! ## Instructions -/

theorem elementType_ne_uninitialized (type : BlockType) (site : Nat) :
    CodeContext.elementType type ≠ .uninitialized site := by
  unfold CodeContext.elementType
  split
  · exact nofun
  · cases found : type.arrayElement? with
    | none => exact nofun
    | some element =>
      obtain ⟨name, inner, -, -, -, rfl⟩ := VerificationType.arrayElement?_eq_some found
      exact ofFieldType_ne_uninitialized inner site

section

variable {context : CodeContext} {frame after : BlockFrame} {block site : Nat}

theorem Frame.each_ne_uninitialized :
    frame.Each (· ≠ .uninitialized site) ↔ ¬frame.Mentions site := by
  constructor
  · exact fun each mentions => each _ mentions rfl
  · rintro silent type member rfl
    exact silent member

/-- A value that waits for its constructor after an effect did so before, or is new. -/
theorem Effect.Turns.mentions {effect : Effect} (turns : effect.Turns context frame after)
    (mentions : after.Mentions site) :
    frame.Mentions site ∨ effect.given? = some (.uninitialized site) := by
  by_contra neither
  obtain ⟨silent, notGiven⟩ := not_or.1 neither
  refine absurd mentions (Frame.each_ne_uninitialized.1 (turns.each ?_ ?_ ?_ ?_ ?_))
  · exact nofun
  · rintro type given rfl
    exact notGiven given
  · exact fun type _ => elementType_ne_uninitialized type site
  · exact fun _ _ _ => nofun
  · exact Frame.each_ne_uninitialized.2 silent

namespace CodeContext

theorem constantType_ne_uninitialized {index : PoolIndex} {type : BlockType}
    (run : context.constantType index = .ok type) : type ≠ .uninitialized site := by
  obtain ⟨constant, -, run⟩ := bind_eq_ok.1 run
  cases constant with
  | dynamic =>
    obtain ⟨signature, -, run⟩ := bind_eq_ok.1 run
    obtain ⟨parsed, -, same⟩ := bind_eq_ok.1 run
    obtain rfl := pure_eq_ok.1 same
    exact ofFieldType_ne_uninitialized parsed site
  | integer | float | long | double | string | cls | methodType | methodHandle =>
    obtain rfl := pure_eq_ok.1 run
    exact nofun
  | _ => cases run

theorem fieldType_ne_uninitialized {index : PoolIndex} {type : BlockType}
    (run : context.fieldType index = .ok type) : type ≠ .uninitialized site := by
  obtain ⟨member, -, run⟩ := bind_eq_ok.1 run
  obtain ⟨parsed, -, same⟩ := bind_eq_ok.1 run
  obtain rfl := pure_eq_ok.1 same
  exact ofFieldType_ne_uninitialized parsed site

/-- Only `new` gives a value that waits for its constructor, and it makes it in its own
block. -/
theorem effect_given {instruction : Instruction} {effect : Effect}
    (run : context.effect block instruction = .ok effect)
    (given : effect.given? = some (.uninitialized site)) :
    (∃ cls, instruction = .withClass .new cls) ∧ site = block := by
  generalize isType : (.uninitialized site : BlockType) = type at given
  cases gives_of_effect run given with
  | plain noObject noSite => exact absurd isType.symm (noSite site)
  | @site cls isNew => exact ⟨⟨cls, isNew⟩, VerificationType.uninitialized.inj isType⟩
  | constant found => exact absurd isType.symm (constantType_ne_uninitialized found)
  | field found => exact absurd isType.symm (fieldType_ne_uninitialized found)
  | object => cases isType
  | result | dynamicResult | arrayOf | arrayOfBase =>
    exact absurd isType.symm (ofFieldType_ne_uninitialized _ site)

/-- A value that waits for its constructor after an instruction did so before, unless the
instruction made it. -/
theorem mentions_of_step {instruction : Instruction}
    (run : context.step block frame instruction = .ok after) (mentions : after.Mentions site) :
    frame.Mentions site ∨ (∃ cls, instruction = .withClass .new cls) ∧ site = block := by
  obtain ⟨effect, isEffect, turns⟩ := (step_eq_ok block instruction after).1 run
  exact (turns.mentions mentions).imp_right (effect_given isEffect)

theorem mentions_of_steps {instructions : List Instruction}
    (run : instructions.foldlM (context.step block) frame = .ok after)
    (mentions : after.Mentions site) :
    frame.Mentions site ∨ (∃ cls, .withClass .new cls ∈ instructions) ∧ site = block := by
  induction instructions generalizing frame with
  | nil =>
    obtain rfl := pure_eq_ok.1 run
    exact .inl mentions
  | cons instruction instructions ih =>
    obtain ⟨next, first, rest⟩ := foldlM_cons_eq_ok.1 run
    rcases ih rest with before | ⟨⟨cls, later⟩, here⟩
    · rcases mentions_of_step first before with before | ⟨⟨cls, rfl⟩, here⟩
      · exact .inl before
      · exact .inr ⟨⟨cls, List.mem_cons_self⟩, here⟩
    · exact .inr ⟨⟨cls, List.mem_cons_of_mem _ later⟩, here⟩

theorem stepBranch_mentions {branch : Branch Nat Nat Nat}
    (run : stepBranch frame branch = .ok after) (mentions : after.Mentions site) :
    frame.Mentions site := by
  obtain ⟨same, fewer⟩ := suffix_of_stepBranch run
  rw [Frame.Mentions, same] at mentions
  exact mentions.imp_right fun inside => fewer.subset inside

/-! ## Causes of failure -/

section

open Fault (Plain SparesSites)

variable {blamed : UnderflowSite}

theorem drop_plain (frame : BlockFrame) (count : Nat) :
    FailsOnly Plain (frame.drop count blamed) := by
  rw [Frame.drop]
  split
  · exact .ok _
  · exact .error trivial

theorem pop_plain (frame : BlockFrame) : FailsOnly Plain (frame.pop blamed) := by
  rw [Frame.pop]
  split
  · exact .ok _
  · exact .error trivial

theorem local_plain (frame : BlockFrame) (slot : Nat) :
    FailsOnly Plain (frame.local_ slot) := by
  rw [Frame.local_]
  split
  · exact .ok _
  · exact .error trivial

theorem storeLocal_plain (frame : BlockFrame) (slot : Nat) (type : BlockType) :
    FailsOnly Plain (frame.storeLocal slot type) := by
  rw [Frame.storeLocal]
  split
  · exact .ok _
  · exact .error trivial

theorem constantType_plain (index : PoolIndex) :
    FailsOnly Plain (context.constantType index) := by
  refine (context.pool.entry_plain index).bind fun constant _ => ?_
  split
  case h_9 =>
    refine (context.pool.dynamicSignature_plain index).bind fun signature _ => ?_
    exact (FieldType.parse_plain _).bind fun _ _ => .ok _
  case h_10 => exact .error trivial
  all_goals exact .ok _

theorem fieldType_plain (field : PoolIndex) : FailsOnly Plain (context.fieldType field) :=
  (context.pool.member_plain field).bind fun _ _ => (FieldType.parse_plain _).bind fun _ _ => .ok _

/-- The class of a value is found if it was made by a `new`. -/
theorem siteClass_plain (starts : context.graph.StartsWithNew site) :
    FailsOnly Plain (context.siteClass site) := by
  obtain ⟨code, cls, there, first⟩ := starts
  rw [siteClass, there, Option.bind_some, first]
  exact context.pool.className_plain cls

section

variable {kind : Fault → Prop} (plain : ∀ fault, Plain fault → kind fault)
include plain

/-- Otherwise it may be that there is no such class. -/
theorem siteClass_fails (unknown : ∀ block, kind (.malformed (.notFromNew block))) (site : Nat) :
    FailsOnly kind (context.siteClass site) := by
  unfold siteClass
  dsimp only
  split
  · exact (context.pool.className_plain _).mono plain
  · exact .error (unknown site)

theorem callReceiver_fails {mode : InvokeMode} {name : String}
    (sites : ∀ site, frame.Mentions site → FailsOnly kind (context.siteClass site)) :
    FailsOnly kind (context.callReceiver mode name blamed frame) := by
  unfold callReceiver
  split
  · exact .ok _
  · refine ((pop_plain frame).mono plain).bind fun (receiver, rest) popped => ?_
    dsimp only
    split
    · refine FailsOnly.bind ?_ fun cls? _ => ?_
      · cases receiver with
        | uninitialized site =>
          refine (sites site (.inr ?_)).map some
          rw [Frame.pop_eq_ok.1 popped]
          exact List.mem_cons_self
        | _ => exact .ok _
      · cases cls? <;> exact .ok _
    · exact .ok _

/-- An instruction fails for plain reasons, or because it does not find the class of an
uninitialized value of its frame. -/
theorem step_fails (block : Nat)
    (sites : ∀ site, frame.Mentions site → FailsOnly kind (context.siteClass site))
    (instruction : Instruction) : FailsOnly kind (context.step block frame instruction) := by
  have makes : ∀ count type blamed, FailsOnly Plain
      (do return (← frame.drop count blamed).push type) :=
    fun count _ _ => (drop_plain frame count).bind fun _ _ => .ok _
  have className := context.pool.className_plain
  cases instruction with
  | invoke mode method =>
    refine ((context.pool.member_plain method).mono plain).bind fun member _ => ?_
    refine ((MethodDescriptor.parse_plain _).mono plain).bind fun descriptor _ => ?_
    refine ((drop_plain frame _).mono plain).bind fun rest dropped => ?_
    refine (callReceiver_fails plain fun site mentions => sites site ?_).bind fun _ _ => .ok _
    obtain ⟨-, rfl⟩ := Frame.drop_eq_ok.1 dropped
    exact mentions.imp_right List.mem_of_mem_drop
  | loadConstant index | loadWideConstant index =>
    exact ((constantType_plain index).bind fun _ _ => .ok _).mono plain
  | load kind slot =>
    cases kind with
    | reference => exact ((local_plain frame _).bind fun _ _ => .ok _).mono plain
    | _ => exact .ok _
  | store kind slot =>
    exact ((pop_plain frame).bind fun (type, rest) _ => storeLocal_plain rest _ type).mono plain
  | arrayLoad kind =>
    cases kind with
    | reference =>
      exact ((drop_plain frame 1).bind fun rest _ => (pop_plain rest).bind fun _ _ => .ok _).mono
        plain
    | _ => exact (makes 2 _ _).mono plain
  | arrayStore | monitorEnter | monitorExit => exact (drop_plain frame _).mono plain
  | shuffle op =>
    unfold step
    dsimp only
    split
    · exact .ok _
    · exact .error (plain _ trivial)
  | arithmetic | shift | bitwise | compareLongs | compareFloats | compareDoubles =>
    exact (makes 2 _ _).mono plain
  | negate | convert | newArray | arrayLength => exact (makes 1 _ _).mono plain
  | increment slot amount => exact ((local_plain frame _).bind fun _ _ => .ok _).mono plain
  | accessField access field =>
    cases access with
    | getStatic => exact ((fieldType_plain field).bind fun _ _ => .ok _).mono plain
    | putStatic | putField => exact (drop_plain frame _).mono plain
    | getField =>
      exact ((drop_plain frame 1).bind fun _ _ =>
        (fieldType_plain field).bind fun _ _ => .ok _).mono plain
  | invokeDynamic callSite =>
    refine FailsOnly.mono ?_ plain
    refine (context.pool.dynamicSignature_plain callSite).bind fun signature _ => ?_
    refine (MethodDescriptor.parse_plain _).bind fun descriptor _ => ?_
    exact (drop_plain frame _).bind fun _ _ => .ok _
  | withClass op cls =>
    cases op with
    | new => exact .ok _
    | newArray =>
      refine FailsOnly.mono ?_ plain
      refine (drop_plain frame 1).bind fun _ _ => (className cls).bind fun name _ => ?_
      exact (FieldType.ofInternalName_plain name).bind fun _ _ => .ok _
    | checkCast =>
      exact ((drop_plain frame 1).bind fun _ _ => (className cls).bind fun _ _ => .ok _).mono plain
    | instanceOf => exact (makes 1 _ _).mono plain
  | newMultiArray cls dimensions =>
    exact ((drop_plain frame _).bind fun _ _ => (className cls).bind fun _ _ => .ok _).mono plain
  | _ => exact .ok _

end

theorem stepBranch_plain (frame : BlockFrame) (branch : Branch Nat Nat Nat) :
    FailsOnly Plain (stepBranch frame branch) := by
  unfold stepBranch
  split
  all_goals first
    | exact drop_plain frame _
    | exact .ok _
    | exact .error trivial

theorem caught_plain (pool : Pool) (handler : Handler) (frame : BlockFrame) :
    FailsOnly Plain (Inference.caught pool handler frame) := by
  unfold Inference.caught
  dsimp only
  split
  · exact (pool.className_plain _).bind fun _ _ => .ok _
  · exact .ok _

end

end CodeContext

end

end ClassFile
