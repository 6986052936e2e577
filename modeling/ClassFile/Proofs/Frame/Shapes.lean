import ClassFile.Proofs.Frame.Heights
import ClassFile.Proofs.Frame.Tracing

namespace ClassFile

/-!
# How high joined stacks are

Frames are joined only if their stacks are equally high, operand by operand.  The joined
stack is as high as they are, with one exception: where a long meets a double, what is left
is unusable and takes one slot in place of two.  A stack that has lost a slot in this way no
longer joins with either of those that it came from, although neither of them has changed.
-/

/-- A long and a double, in either order. -/
def mixesWides (first second : BlockType) : Bool :=
  first ≠ second && first.width = 2 && second.width = 2

/-- The operands where a long meets a double. -/
def Frame.mixed (known incoming : BlockFrame) : Nat :=
  (known.stack.zip incoming.stack).countP fun pair => mixesWides pair.1 pair.2

/-- What joining two operands does to the slots that they take. -/
structure JoinsSlots (pair : BlockType × BlockType) (joined : BlockType) : Prop where
  same : pair.1.width = pair.2.width
  slots : joined.width + (mixesWides pair.1 pair.2).toNat = pair.1.width

theorem mixesWides_self (type : BlockType) : mixesWides type type = false := by
  rw [mixesWides, decide_eq_false (fun different => different rfl), Bool.false_and, Bool.false_and]

theorem VerificationType.width_eq (type : BlockType) : type.width = 1 ∨ type.width = 2 := by
  cases type with
  | double | long => exact .inr rfl
  | _ => exact .inl rfl

/-- What takes one slot is no long and no double. -/
theorem joinsSlots_narrow {first second joined : BlockType} (same : first.width = second.width)
    (one : first.width = 1) (narrow : joined.width = 1) : JoinsSlots (first, second) joined := by
  have plain : mixesWides first second = false := by
    rw [mixesWides, one, Bool.and_eq_false_iff, Bool.and_eq_false_iff]
    exact .inl (.inr rfl)
  exact ⟨same, by rw [plain, narrow, one]; rfl⟩

namespace Hierarchy

variable {known incoming joined : BlockFrame}

open Query

/-! ## Types -/

theorem joinTypes_slots {first second : BlockType} (same : first.width = second.width) :
    (joinTypes first second).Ends Fault.OfQuestion (JoinsSlots (first, second)) := by
  have apart : ∀ joined : BlockType, joined.width = 1 → first ≠ second →
      JoinsSlots (first, second) joined := by
    intro joined narrow different
    rcases first.width_eq with one | two
    · exact joinsSlots_narrow same one narrow
    · have mixes : mixesWides first second = true := by
        rw [mixesWides, decide_eq_true different, decide_eq_true two,
          decide_eq_true (same.symm.trans two)]
        rfl
      exact ⟨same, by rw [mixes, narrow, two]; rfl⟩
  unfold joinTypes
  split
  · next equal =>
    subst equal
    refine ends_pure ⟨rfl, ?_⟩
    rw [mixesWides_self]
    rfl
  · next different =>
    split
    · exact ends_pure (apart _ rfl different)
    · exact ends_pure (apart _ rfl different)
    · exact (joinNames_ends _ _).bind fun _ _ => ends_pure (apart _ rfl different)
    · exact ends_pure (apart _ rfl different)

/-! ## Stacks -/

/-- Two stacks that are joined operand by operand have the same shape. -/
theorem widths_of_forall₂ {firsts seconds joined : List BlockType}
    (same : firsts.length = seconds.length)
    (each : List.Forall₂ JoinsSlots (firsts.zip seconds) joined) :
    firsts.map VerificationType.width = seconds.map VerificationType.width := by
  induction firsts generalizing seconds joined with
  | nil =>
    obtain rfl := List.length_eq_zero_iff.1 same.symm
    rfl
  | cons first firsts ih =>
    cases seconds with
    | nil => cases same
    | cons second seconds =>
      obtain ⟨join, joins, here, rest, rfl⟩ := List.forall₂_cons_left_iff.1 each
      exact congrArg₂ List.cons here.same (ih (Nat.succ.inj same) rest)


/-- What the joined stack takes, and what it lacks. -/
theorem slots_of_forall₂ {pairs : List (BlockType × BlockType)} {joined : List BlockType}
    (each : List.Forall₂ JoinsSlots pairs joined) :
    (joined.map VerificationType.width).sum +
        pairs.countP (fun pair => mixesWides pair.1 pair.2) =
      (pairs.map fun pair => pair.1.width).sum := by
  induction each with
  | nil => rfl
  | @cons pair join pairs joins here rest ih =>
    have slots := here.slots
    rw [List.map_cons, List.sum_cons, List.countP_cons, List.map_cons, List.sum_cons, ← ih, ← slots]
    cases mixesWides pair.1 pair.2 with
    | true => simp only [if_true, Bool.toNat_true]; omega
    | false => simp only [Bool.false_eq_true, if_false, Bool.toNat_false]; omega

/-- Without a long that meets a double, the joined stack has the same shape too. -/
theorem shape_of_forall₂ {pairs : List (BlockType × BlockType)} {joined : List BlockType}
    (each : List.Forall₂ JoinsSlots pairs joined)
    (plain : pairs.countP (fun pair => mixesWides pair.1 pair.2) = 0) :
    joined.map VerificationType.width = pairs.map fun pair => pair.1.width := by
  induction each with
  | nil => rfl
  | @cons pair join pairs joins here rest ih =>
    have slots := here.slots
    rw [List.countP_cons] at plain
    have apart : mixesWides pair.1 pair.2 = false := by
      cases mixes : mixesWides pair.1 pair.2 with
      | true => rw [mixes, if_pos rfl] at plain; cases plain
      | false => rfl
    rw [apart] at slots plain
    exact congrArg₂ List.cons slots (ih plain)

/-- Joining frames fails for a reason of its own only where an operand of one stack takes
another number of slots than that of the other. -/
theorem joinFrames_slots (block : Nat) (known incoming : BlockFrame) :
    (joinFrames block known incoming).Ends
      (fun fault => fault.OfQuestion ∨ known.widths ≠ incoming.widths)
      fun joined => known.stack.length = incoming.stack.length ∧
        List.Forall₂ JoinsSlots (known.stack.zip incoming.stack) joined.stack := by
  rw [joinFrames]
  dsimp only
  split
  · next different =>
    refine ends_throw (.inr fun same => different ?_)
    have lengths := congrArg List.length same
    rwa [Frame.widths, Frame.widths, List.length_map, List.length_map] at lengths
  · next sameHeight =>
    have sameStack : known.stack.length = incoming.stack.length := Decidable.not_not.1 sameHeight
    have turned := zip_operands sameStack
    have onOperands : ∀ pair ∈ known.operands.zip incoming.operands,
        (if pair.1.width = pair.2.width then joinTypes pair.1 pair.2
          else throw (.incompatibleHeights block known.height incoming.height)).Ends
            (fun fault => fault.OfQuestion ∨ known.widths ≠ incoming.widths) (JoinsSlots pair) := by
      intro pair member
      split
      · next same => exact (joinTypes_slots same).widen fun _ => .inl
      · next different =>
        refine ends_throw (.inr fun same => different ?_)
        rw [turned, List.mem_reverse] at member
        obtain ⟨place, inside, rfl⟩ := List.mem_iff_getElem.1 member
        rw [List.getElem_zip]
        have inWidths : place < known.widths.length := by
          rw [Frame.widths, List.length_map]
          rw [List.length_zip] at inside
          exact inside.trans_le (Nat.min_le_left _ _)
        simpa only [Frame.widths, List.getElem_map] using List.getElem_of_eq same inWidths
    refine (ends_mapM onOperands).bind fun operands each => ?_
    refine ((joinLocals_ends _ _).widen fun _ => .inl).bind fun locals _ => ends_pure ⟨sameStack, ?_⟩
    rw [turned] at each
    have turnedBack := List.rel_reverse each
    rwa [List.reverse_reverse] at turnedBack

theorem widths_zip (same : known.stack.length = incoming.stack.length) :
    (known.stack.zip incoming.stack).map (fun pair => pair.1.width) = known.widths := by
  have firsts := congrArg (List.map VerificationType.width) (List.map_fst_zip same.le)
  rwa [List.map_map] at firsts

variable {block : Nat} {hierarchy : Hierarchy}

/-- Frames that join have stacks of the same height, and the joined stack is lower by one slot
for each operand where a long meets a double. -/
theorem joinFrames_height_add
    (run : ((joinFrames block known incoming).run hierarchy).1 = .ok joined) :
    known.height = incoming.height ∧ joined.height + known.mixed incoming = known.height := by
  obtain ⟨same, each⟩ := (joinFrames_slots block known incoming hierarchy).1 joined run
  have slots := slots_of_forall₂ each
  rw [widths_zip same] at slots
  rw [Frame.height_eq, Frame.height_eq, Frame.height_eq]
  exact ⟨congrArg List.sum (widths_of_forall₂ same each), slots⟩

/-- Stacks of the same shape are never said to have different heights. -/
theorem joinFrames_compatible (same : known.widths = incoming.widths) (place expected found : Nat) :
    ((joinFrames block known incoming).run hierarchy).1 ≠
      .error (.incompatibleHeights place expected found) := by
  intro run
  rcases (joinFrames_slots block known incoming hierarchy).2 _ run with asked | different
  · exact asked.compatible _ _ _ rfl
  · exact different same

/-- If no long meets a double, the joined stack has the shape of both others.  So it has their
height, and joins again with either. -/
theorem joinFrames_widths (run : ((joinFrames block known incoming).run hierarchy).1 = .ok joined)
    (plain : known.mixed incoming = 0) :
    joined.widths = known.widths ∧ joined.widths = incoming.widths := by
  obtain ⟨same, each⟩ := (joinFrames_slots block known incoming hierarchy).1 joined run
  have shape := shape_of_forall₂ each plain
  rw [widths_zip same] at shape
  exact ⟨shape, shape.trans (widths_of_forall₂ same each)⟩

/-- If a long meets a double, the joined stack joins with neither of the others any more. -/
theorem joinFrames_again (run : ((joinFrames block known incoming).run hierarchy).1 = .ok joined)
    (mixed : known.mixed incoming ≠ 0) {later : Hierarchy} {again : BlockFrame} :
    ((joinFrames block joined known).run later).1 ≠ .ok again ∧
      ((joinFrames block joined incoming).run later).1 ≠ .ok again := by
  obtain ⟨same, lower⟩ := joinFrames_height_add run
  refine ⟨fun rerun => ?_, fun rerun => ?_⟩
  · have equal := (joinFrames_height_add rerun).1
    omega
  · have equal := (joinFrames_height_add rerun).1
    omega

/-- A long and a double leave a stack of one slot, which then is said to differ in height from
either. -/
theorem joinFrames_long_double (block : Nat) (hierarchy : Hierarchy) :
    (joinFrames block ⟨[], [.long]⟩ ⟨[], [.double]⟩).run hierarchy =
        (.ok ⟨[], [.top]⟩, hierarchy) ∧
      (joinFrames block ⟨[], [.top]⟩ ⟨[], [.long]⟩).run hierarchy =
        (.error (.incompatibleHeights block 1 2), hierarchy) :=
  ⟨rfl, rfl⟩

end Hierarchy
end ClassFile
