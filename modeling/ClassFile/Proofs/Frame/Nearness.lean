import ClassFile.Proofs.Frame.Heights
import ClassFile.Proofs.Frame.Related
import ClassFile.Proofs.Frame.Tracing

namespace ClassFile

/-!
# Frames near inferred ones

The frame inferred for a block has been joined with all that ever came there, so a
frame that only one path leads to need not be the same.  It is near: where the inferred
frame has a usable type, it has that type too or both have references.  Instructions
see no difference between near frames as long as no operand of the inferred one is
unusable.
-/

/-- A type is near another one that is unusable, the same, or a reference as it is. -/
inductive TypeNear : BlockType → BlockType → Prop
  | same (type : BlockType) : TypeNear type type
  | unusable (type : BlockType) : TypeNear type .top
  | references {type other : BlockType} (isReference : type.IsReference)
      (otherIsReference : other.IsReference) : TypeNear type other

theorem TypeNear.trans {first second third : BlockType} (near : TypeNear first second)
    (near' : TypeNear second third) : TypeNear first third := by
  cases near' with
  | same => exact near
  | unusable => exact .unusable first
  | references middle last =>
    cases near with
    | same => exact .references middle last
    | unusable => exact middle.elim
    | references isReference _ => exact .references isReference last

/-- Frames with as many locals and operands, each near the other one in its place. -/
structure FrameNear (frame other : BlockFrame) : Prop where
  locals : List.Forall₂ TypeNear frame.locals other.locals
  stack : List.Forall₂ TypeNear frame.stack other.stack

theorem FrameNear.refl (frame : BlockFrame) : FrameNear frame frame :=
  ⟨List.forall₂_same.2 fun type _ => .same type, List.forall₂_same.2 fun type _ => .same type⟩

theorem FrameNear.trans {first second third : BlockFrame} (near : FrameNear first second)
    (near' : FrameNear second third) : FrameNear first third :=
  have steps := fun (one two three : BlockType) (near : TypeNear one two)
    (near' : TypeNear two three) => near.trans near'
  ⟨Hierarchy.forall₂_trans steps near.locals near'.locals,
    Hierarchy.forall₂_trans steps near.stack near'.stack⟩

/-! ## Joins -/

namespace Hierarchy

/-- Whatever is known of classes, two types are near their join. -/
theorem joinTypes_near (first second : BlockType) :
    Query.Answers (fun _ => True) (joinTypes first second) fun joined =>
      TypeNear first joined ∧ TypeNear second joined := by
  unfold joinTypes
  split
  · next same => exact (Query.succeeds_pure ⟨.same _, same ▸ .same _⟩).answers
  · split
    · exact (Query.succeeds_pure ⟨.references trivial trivial, .same _⟩).answers
    · exact (Query.succeeds_pure ⟨.same _, .references trivial trivial⟩).answers
    · exact (Query.answers_any _).bind fun _ _ => (Query.succeeds_pure
        ⟨.references trivial trivial, .references trivial trivial⟩).answers
    · exact (Query.succeeds_pure ⟨.unusable _, .unusable _⟩).answers

theorem near_of_zip {firsts seconds joined : List BlockType}
    (same : firsts.length = seconds.length)
    (each : List.Forall₂ (fun pair (join : BlockType) =>
      TypeNear pair.1 join ∧ TypeNear pair.2 join) (firsts.zip seconds) joined) :
    List.Forall₂ TypeNear firsts joined ∧ List.Forall₂ TypeNear seconds joined :=
  ⟨forall₂_of_zip_fst same (each.imp fun _ _ => And.left),
    forall₂_of_zip_snd same (each.imp fun _ _ => And.right)⟩

theorem joinFrames_near (block : Nat) {known incoming : BlockFrame}
    (same : known.locals.length = incoming.locals.length) :
    Query.Answers (fun _ => True) (joinFrames block known incoming) fun joined =>
      FrameNear known joined ∧ FrameNear incoming joined := by
  refine (joinFrames_each block same (fun pair _ => joinTypes_near pair.1 pair.2)
    (fun pair _ => joinTypes_near pair.1 pair.2)).mono fun joined ⟨onLocals, sameStack, onStack⟩ => ?_
  obtain ⟨locals, locals'⟩ := near_of_zip same onLocals
  obtain ⟨stack, stack'⟩ := near_of_zip sameStack onStack
  exact ⟨⟨locals, stack⟩, locals', stack'⟩

end Hierarchy

/-! ## Instructions -/

theorem TypeNear.stepsKeep (context : CodeContext) : StepsKeep context TypeNear where
  cases type other near := by
    cases near with
    | same => exact .inl rfl
    | unusable => exact .inr (.inl rfl)
    | references isReference otherIsReference => exact .inr (.inr ⟨isReference, otherIsReference⟩)
  unusable type _ _ := .unusable type
  top := .same .top
  element type other _ := .references (CodeContext.isReference_elementType type)
    (CodeContext.isReference_elementType other)
  given _ _ _ type _ _ := .same type
  initialized _ cls _ := .same (.object cls)

theorem FrameNear.related {frame other : BlockFrame} (near : FrameNear frame other) :
    FramesRelated TypeNear frame other :=
  ⟨near.locals, near.stack⟩

theorem FramesRelated.near {frame other : BlockFrame} (related : FramesRelated TypeNear frame other) :
    FrameNear frame other :=
  ⟨related.locals, related.stack⟩

/-! ## Inferred frames -/

namespace Inference

/-- All frames have as many locals, and what comes to a block is near its frame. -/
theorem discipline_near (context : CodeContext) (locals : Nat) :
    Discipline context (fun _ => True) FrameNear fun _ frame => frame.locals.length = locals where
  refl := FrameNear.refl
  trans _ _ _ := FrameNear.trans
  join block known incoming length length' :=
    (Hierarchy.joinFrames_near block (length.trans length'.symm)).mono fun joined near =>
      ⟨near.1, near.2, near.1.locals.length_eq.symm.trans length⟩
  passed block frame target out length passed := by
    cases passed with
    | along there through left successor =>
      rw [(CodeContext.suffix_of_stepBranch left).1, CodeContext.length_steps through, length]
    | thrown there inside through covers isCaught =>
      obtain ⟨cls, rfl, -⟩ := caught_eq_ok isCaught
      exact (CodeContext.length_steps through).trans length

/-- Whatever is known of classes, what a block passes on is near the inferred frames. -/
theorem inferFrames_near {context : CodeContext} (closed : context.graph.Closed) {locals : Nat}
    {hierarchy after : Hierarchy} {frames : Array (Option BlockFrame)}
    (run : (context.inferFrames locals).run hierarchy = (.ok frames, after)) :
    Stable FrameNear context (fun _ frame => frame.locals.length = locals) ⟨frames, []⟩ ∧
      Reached FrameNear ⟨frames, []⟩ 0 (context.method.entryFrame.resize locals) := by
  obtain ⟨result, last, answered, -, holds⟩ :=
    inferFrames_answers (discipline_near context locals) closed (Frame.length_resize _ _) hierarchy trivial
  obtain ⟨rfl, rfl⟩ := Prod.mk.inj (answered.symm.trans run)
  exact holds frames rfl

end Inference

end ClassFile
