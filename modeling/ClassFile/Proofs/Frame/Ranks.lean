import Mathlib.Algebra.Order.BigOperators.Group.List
import Mathlib.Algebra.Order.Ring.Nat
import ClassFile.Proofs.Frame.Effects
import ClassFile.Proofs.Frame.Joining
import ClassFile.Proofs.Hierarchy.Climbs

namespace ClassFile
namespace Hierarchy

/-!
# Joins move down in rank

Ranks of classes give ranks to all types.  An array ranks by its dimensions and the class
of its elements, a null above every object, and what is unusable below everything.  A type
that a join changes gets a lower rank, so no type changes more often than its rank says,
and no frame more often than the sum over its slots.
-/

/-- The rank of a reference type, by the ranks of classes. -/
def nameRank (rank : String → Nat) (text : String) : Nat :=
  let name := TypeName.ofString text
  if name.dimensions = 0 then rank text + 1
  else name.elementClass?.elim 1 rank + name.objectDimensions + 1

/-- The rank of a type, where no object has as much as null. -/
def typeRank (rank : String → Nat) (most : Nat) : BlockType → Nat
  | .top => 0
  | .null => most
  | .object name => nameRank rank name
  | _ => 1

/-- Arrays have a number of dimensions at most. -/
def Shallow (deepest : Nat) (type : BlockType) : Prop :=
  ∀ name, type = .object name → (TypeName.ofString name).dimensions ≤ deepest

/-- A join has changed nothing, or it has led to a lower rank. -/
def Falls {α : Type} (rank : α → Nat) (before after : α) : Prop :=
  after = before ∨ rank after < rank before

theorem Falls.le {α : Type} {rank : α → Nat} {before after : α} (falls : Falls rank before after) :
    rank after ≤ rank before := by
  rcases falls with rfl | lower
  · exact Nat.le_refl _
  · exact Nat.le_of_lt lower

/-! ## Reference types -/

section

variable {rank : String → Nat} {deepest classes : Nat} {text first second answer : String}

theorem nameRank_le (bounded : ∀ name, rank name ≤ classes + 1)
    (shallow : (TypeName.ofString text).dimensions ≤ deepest) :
    nameRank rank text ≤ classes + deepest + 2 := by
  have dimensions := (TypeName.ofString text).objectDimensions_le
  unfold nameRank
  dsimp only
  split
  · have := bounded text
    omega
  · cases (TypeName.ofString text).elementClass? with
    | none =>
      rw [Option.elim_none]
      omega
    | some cls =>
      have := bounded cls
      rw [Option.elim_some]
      omega

theorem nameRank_arrayOf {dimensions : Nat} (some_ : 0 < dimensions) (cls : String) :
    nameRank rank (TypeName.arrayOf dimensions cls) = rank cls + dimensions + 1 := by
  simp [nameRank, TypeName.objectDimensions, Nat.ne_of_gt some_]

variable {known : String → Option ClassInfo}

/-- A superclass of a class is no array. -/
theorem Common.plain (common : Common known first second answer)
    (firstPlain : (TypeName.ofString first).dimensions = 0) :
    (TypeName.ofString answer).dimensions = 0 := by
  rcases common.above_first with rfl | ⟨-, names, chain, member⟩
  · exact TypeName.dimensions_className ClassName.object
  · exact chain.dimensions firstPlain answer member

/-- Joining makes no array deeper. -/
theorem NameJoined.dimensions_le (joined : NameJoined known first second answer) :
    (TypeName.ofString answer).dimensions ≤ (TypeName.ofString first).dimensions := by
  cases joined with
  | classes firstPlain secondPlain common =>
    rw [common.plain firstPlain]
    exact Nat.zero_le _
  | arrays some_ isFirst isSecond common =>
    subst isFirst
    simp
  | objects =>
    rw [TypeName.objects_dimensions]
    exact Nat.le_trans (Nat.min_le_left _ _) (TypeName.objectDimensions_le _)

variable (ranks : Ranks known rank)
include ranks

theorem Ranks.nameRank_objects (dimensions : Nat) :
    nameRank rank (TypeName.objects dimensions) = dimensions + 1 := by
  have bottom : rank ClassName.object.text = 0 := (ranks.least _).2 rfl
  rw [TypeName.objects]
  split
  · next none => simp [nameRank, bottom, none]
  · next several =>
    rw [nameRank_arrayOf (Nat.pos_of_ne_zero several), bottom]
    omega

/-- An array of objects ranks below all that belongs to it. -/
theorem Ranks.objects_falls {dimensions : Nat}
    (fewer : dimensions ≤ (TypeName.ofString text).objectDimensions) :
    Falls (nameRank rank) text (TypeName.objects dimensions) := by
  unfold Falls
  rw [ranks.nameRank_objects]
  by_cases plain : (TypeName.ofString text).dimensions = 0
  · have none : dimensions = 0 := by
      have := (TypeName.ofString text).objectDimensions_le
      omega
    have own : nameRank rank text = rank text + 1 := if_pos plain
    rw [own, none]
    by_cases top : rank text = 0
    · exact .inl ((ranks.least text).1 top).symm
    · exact .inr (by omega)
  · have own : nameRank rank text = (TypeName.ofString text).elementClass?.elim 1 rank +
        (TypeName.ofString text).objectDimensions + 1 := if_neg plain
    rw [own]
    cases element : (TypeName.ofString text).elementClass? with
    | none =>
      right
      rw [Option.elim_none]
      omega
    | some cls =>
      rw [Option.elim_some]
      by_cases top : rank cls = 0 ∧ dimensions = (TypeName.ofString text).objectDimensions
      · left
        have whole : (TypeName.ofString text).objectDimensions =
            (TypeName.ofString text).dimensions := by
          rw [TypeName.objectDimensions, element]
          rfl
        rw [TypeName.eq_arrayOf element, top.2, whole, (ranks.least cls).1 top.1,
          TypeName.objects_of_pos (Nat.pos_of_ne_zero plain)]
        rfl
      · right
        omega

/-- Joining two reference types leads down from the first one. -/
theorem NameJoined.falls (joined : NameJoined known first second answer) :
    Falls (nameRank rank) first answer := by
  cases joined with
  | classes firstPlain secondPlain common =>
    have answerPlain := common.plain firstPlain
    cases ranks.common first second answer common with
    | inl same => exact .inl same
    | inr lower =>
      right
      rw [nameRank, nameRank, if_pos answerPlain, if_pos firstPlain]
      exact Nat.succ_lt_succ lower
  | @arrays dimensions cls other answer some_ isFirst isSecond common =>
    subst isFirst
    cases ranks.common cls other answer common with
    | inl same => exact .inl (congrArg _ same)
    | inr lower =>
      right
      rw [nameRank_arrayOf some_, nameRank_arrayOf some_]
      omega
  | objects => exact ranks.objects_falls (Nat.min_le_left _ _)

end

/-! ## Types -/

section

variable {known : String → Option ClassInfo} {rank : String → Nat} {deepest most : Nat}
  {first second answer : BlockType}

theorem TypeJoined.shallow (joined : TypeJoined known first second answer)
    (firstShallow : Shallow deepest first) (secondShallow : Shallow deepest second) :
    Shallow deepest answer := by
  cases joined with
  | same => exact firstShallow
  | nullFirst => exact secondShallow
  | nullSecond => exact firstShallow
  | objects different joined =>
    rintro name ⟨⟩
    exact Nat.le_trans joined.dimensions_le (firstShallow _ rfl)
  | apart => exact nofun

/-- Joining two types leads down from the first one. -/
theorem TypeJoined.falls (joined : TypeJoined known first second answer) (ranks : Ranks known rank)
    (above : ∀ name, second = .object name → nameRank rank name < most) (some_ : 0 < most) :
    Falls (typeRank rank most) first answer := by
  cases joined with
  | same => exact .inl rfl
  | nullFirst name => exact .inr (above name rfl)
  | nullSecond => exact .inl rfl
  | objects different joined => exact (joined.falls ranks).imp_left fun same => congrArg _ same
  | apart =>
    cases first with
    | top => exact .inl rfl
    | null => exact .inr some_
    | object name =>
      right
      unfold typeRank nameRank
      dsimp only
      split <;> omega
    | _ => exact .inr (Nat.succ_pos 0)

end

/-! ## Frames -/

/-- The rank of a frame is that of its types taken together. -/
def frameRank (rank : String → Nat) (most : Nat) (frame : BlockFrame) : Nat :=
  ((frame.locals ++ frame.stack).map (typeRank rank most)).sum

theorem typeRank_le {rank : String → Nat} {deepest classes : Nat}
    (bounded : ∀ name, rank name ≤ classes + 1) {type : BlockType} (shallow : Shallow deepest type) :
    typeRank rank (classes + deepest + 3) type ≤ classes + deepest + 3 := by
  cases type with
  | object name => exact Nat.le_succ_of_le (nameRank_le bounded (shallow name rfl))
  | top => exact Nat.zero_le _
  | null => exact Nat.le_refl _
  | _ => exact Nat.succ_pos _

/-- A frame ranks no higher than its size allows. -/
theorem frameRank_le {rank : String → Nat} {deepest classes size : Nat} {frame : BlockFrame}
    (bounded : ∀ name, rank name ≤ classes + 1) (shallow : frame.Each (Shallow deepest))
    (small : frame.locals.length + frame.stack.length ≤ size) :
    frameRank rank (classes + deepest + 3) frame ≤ size * (classes + deepest + 3) := by
  have each : ∀ slot ∈ (frame.locals ++ frame.stack).map (typeRank rank (classes + deepest + 3)),
      slot ≤ classes + deepest + 3 := by
    intro slot member
    obtain ⟨type, inside, rfl⟩ := List.mem_map.1 member
    exact typeRank_le bounded (shallow type (List.mem_append.1 inside))
  calc frameRank rank (classes + deepest + 3) frame
      ≤ (frame.locals ++ frame.stack).length * (classes + deepest + 3) := by
        simpa [frameRank] using List.sum_le_card_nsmul _ _ each
    _ ≤ size * (classes + deepest + 3) := by
        apply Nat.mul_le_mul_right
        simpa using small

theorem falls_of_forall₂ {α : Type} {rank : α → Nat} {values joined : List α}
    (each : List.Forall₂ (Falls rank) values joined) :
    Falls (fun values => (values.map rank).sum) values joined := by
  induction each with
  | nil => exact .inl rfl
  | cons here rest ih =>
    unfold Falls
    simp only [List.map_cons, List.sum_cons]
    cases here with
    | inl kept =>
      subst kept
      cases ih with
      | inl kept' => exact .inl (congrArg _ kept')
      | inr lower => exact .inr (Nat.add_lt_add_left lower _)
    | inr lower => exact .inr (Nat.add_lt_add_of_lt_of_le lower ih.le)

/-- What a join makes of a frame. -/
structure Lowers (rank : String → Nat) (deepest most : Nat) (before after : BlockFrame) : Prop where
  locals : after.locals.length = before.locals.length
  stack : after.stack.length = before.stack.length
  shallow : after.Each (Shallow deepest)
  falls : Falls (frameRank rank most) before after

section

variable {origin : Hierarchy} (ends : ChainsEnd origin.known) {rank : String → Nat}
  (ranks : Ranks origin.known rank) {deepest classes : Nat}
  (bounded : ∀ name, rank name ≤ classes + 1)
include ends ranks bounded

/-- Where every way up ends, joining types is not cut off and leads down in rank. -/
theorem joinTypes_falls {first second : BlockType} (firstShallow : Shallow deepest first)
    (secondShallow : Shallow deepest second) :
    Query.Resolves (Follows origin) Fault.Finite (joinTypes first second) fun joined =>
      Shallow deepest joined ∧ Falls (typeRank rank (classes + deepest + 3)) first joined := by
  have asked := @joinTypes_resolves _ _ _ first second fun name other _ _ =>
    joinNames_resolves fun cls cls' _ _ => commonSuperclass_resolves ends cls cls'
  apply asked.mono
  intro joined isJoin
  constructor
  · exact isJoin.shallow firstShallow secondShallow
  · apply isJoin.falls ranks
    · intro name same
      exact Nat.lt_succ_of_le (nameRank_le bounded (secondShallow name same))
    · exact Nat.succ_pos _

theorem joinFrames_lowers (block : Nat) {known incoming : BlockFrame}
    (sameLocals : known.locals.length = incoming.locals.length)
    (knownShallow : known.Each (Shallow deepest)) (incomingShallow : incoming.Each (Shallow deepest)) :
    Query.Resolves (Follows origin) Fault.Finite (joinFrames block known incoming)
      (Lowers rank deepest (classes + deepest + 3) known) := by
  have each : ∀ {types others : List BlockType}, (∀ type ∈ types, Shallow deepest type) →
      (∀ type ∈ others, Shallow deepest type) → ∀ pair ∈ types.zip others,
        Query.Resolves (Follows origin) Fault.Finite (joinTypes pair.1 pair.2) fun joined =>
          Shallow deepest joined ∧ Falls (typeRank rank (classes + deepest + 3)) pair.1 joined := by
    intro types others typesShallow othersShallow pair member
    obtain ⟨inTypes, inOthers⟩ := List.of_mem_zip member
    exact joinTypes_falls ends ranks bounded (typesShallow _ inTypes) (othersShallow _ inOthers)
  have asked := joinFrames_resolves block sameLocals (fun _ _ _ => nofun)
    (each (fun type inside => knownShallow type (.inl inside)) fun type inside =>
      incomingShallow type (.inl inside))
    (each (fun type inside => knownShallow type (.inr inside)) fun type inside =>
      incomingShallow type (.inr inside))
  apply asked.mono
  rintro ⟨locals, stack⟩ ⟨onLocals, sameStack, onStack⟩
  dsimp only at onLocals onStack
  have localsFall := falls_of_forall₂
    (forall₂_of_zip_fst sameLocals (onLocals.imp fun _ _ here => here.2))
  have stackFalls := falls_of_forall₂
    (forall₂_of_zip_fst sameStack (onStack.imp fun _ _ here => here.2))
  constructor
  case locals => simpa [sameLocals] using onLocals.length_eq.symm
  case stack => simpa [sameStack] using onStack.length_eq.symm
  case shallow =>
    intro type member
    rcases member with inside | inside
    · obtain ⟨pair, -, here⟩ := forall₂_mem onLocals inside
      exact here.1
    · obtain ⟨pair, -, here⟩ := forall₂_mem onStack inside
      exact here.1
  case falls =>
    unfold Falls frameRank
    simp only [List.map_append, List.sum_append]
    cases localsFall with
    | inl kept =>
      subst kept
      cases stackFalls with
      | inl kept' => exact .inl (congrArg _ kept')
      | inr lower => exact .inr (Nat.add_lt_add_left lower _)
    | inr lower => exact .inr (Nat.add_lt_add_of_lt_of_le lower stackFalls.le)

end

end Hierarchy
end ClassFile
