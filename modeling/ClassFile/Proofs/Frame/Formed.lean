import ClassFile.Proofs.Frame.Known
import ClassFile.Proofs.Frame.Monotone

namespace ClassFile

/-!
# Frames of formed types

Among frames whose types are formed, the join of two is the least one above both, and
handlers are given frames that go up with those they come from.
-/

namespace Hierarchy

variable {known : String → Option ClassInfo} {slots : Nat} {frame upper first second : BlockFrame}

/-- A frame with a number of slots and with formed types only. -/
structure FrameFormed (known : String → Option ClassInfo) (slots : Nat) (frame : BlockFrame) :
    Prop where
  locals : ∀ type ∈ frame.locals, TypeFormed known type
  stack : ∀ type ∈ frame.stack, TypeFormed known type
  slots_eq : frame.locals.length = slots

theorem FrameFormed.related (formed : FrameFormed known slots frame)
    (below : FrameBelow known frame upper) : FramesRelated (FormedBelow known) frame upper := by
  have each : ∀ {types others : List BlockType}, (∀ type ∈ types, TypeFormed known type) →
      List.Forall₂ (TypeBelow known) types others →
        List.Forall₂ (FormedBelow known) types others := by
    intro types others all below
    induction below with
    | nil => exact .nil
    | cons here rest ih =>
      rw [List.forall_mem_cons] at all
      exact .cons ⟨all.1, here⟩ (ih all.2)
  exact ⟨each formed.locals below.locals, each formed.stack below.stack⟩

theorem frameBelow_of_related (related : FramesRelated (FormedBelow known) frame upper) :
    FrameBelow known frame upper :=
  ⟨related.locals.imp fun _ _ both => both.2, related.stack.imp fun _ _ both => both.2⟩

theorem frameFormed_of_related (related : FramesRelated (FormedBelow known) frame upper)
    (slots_eq : frame.locals.length = slots) : FrameFormed known slots frame := by
  refine ⟨fun type member => ?_, fun type member => ?_, slots_eq⟩
  · obtain ⟨_, -, here⟩ := forall₂_mem related.locals.flip member
    exact here.1
  · obtain ⟨_, -, here⟩ := forall₂_mem related.stack.flip member
    exact here.1

theorem FrameBelow.antisymm (rooted : Rooted known) (below : FrameBelow known first second)
    (above : FrameBelow known second first) : first = second := by
  have each : ∀ {types others : List BlockType}, List.Forall₂ (TypeBelow known) types others →
      List.Forall₂ (TypeBelow known) others types → types = others := by
    intro types others below above
    induction below with
    | nil => rfl
    | cons here rest ih =>
      obtain ⟨there, more⟩ := List.forall₂_cons.1 above
      rw [here.antisymm rooted there, ih more]
  rw [Frame.mk.injEq]
  exact ⟨each below.locals above.locals, each below.stack above.stack⟩

/-! ## Joins of frames are least -/

/-- Where the join of each pair is below what both are below, so is the list of them. -/
theorem forall₂_zip_below {α : Type} {joins : α × α → α → Prop} {below : α → α → Prop}
    (least : ∀ pair join upper, joins pair join → below pair.1 upper → below pair.2 upper →
      below join upper) {firsts seconds joined uppers : List α}
    (each : List.Forall₂ joins (firsts.zip seconds) joined)
    (one : List.Forall₂ below firsts uppers) (two : List.Forall₂ below seconds uppers) :
    List.Forall₂ below joined uppers := by
  induction one generalizing seconds joined with
  | nil =>
    rw [List.zip_nil_left] at each
    obtain rfl := List.forall₂_nil_left_iff.1 each
    exact .nil
  | cons here rest ih =>
    cases two with
    | cons there more =>
      rw [List.zip_cons_cons] at each
      obtain ⟨join, joins, isJoin, others, rfl⟩ := List.forall₂_cons_left_iff.1 each
      exact .cons (least _ _ _ isJoin here there) (ih others more)

/-- A frame is the least one above two others. -/
structure LeastAbove (known : String → Option ClassInfo) (slots : Nat)
    (first second joined : BlockFrame) : Prop where
  formed : FrameFormed known slots joined
  covers : FrameBelow known first joined
  coversOther : FrameBelow known second joined
  least : ∀ upper, FrameBelow known first upper → FrameBelow known second upper →
    FrameBelow known joined upper

theorem joinFrames_least {origin : Hierarchy} (rooted : Rooted origin.known)
    (rootKnown : ∃ info, origin.known root = some info) (block : Nat)
    (firstFormed : FrameFormed origin.known slots first)
    (secondFormed : FrameFormed origin.known slots second) :
    Query.Answers (Follows origin) (joinFrames block first second)
      (LeastAbove origin.known slots first second) := by
  have sameLocals := firstFormed.slots_eq.trans secondFormed.slots_eq.symm
  let joins : BlockType × BlockType → BlockType → Prop := fun pair join =>
    (TypeFormed origin.known pair.1 ∧ TypeFormed origin.known pair.2) ∧
      TypeJoined origin.known pair.1 pair.2 join
  have each : ∀ {types others : List BlockType}, (∀ type ∈ types, TypeFormed origin.known type) →
      (∀ type ∈ others, TypeFormed origin.known type) → ∀ pair ∈ types.zip others,
        Query.Answers (Follows origin) (joinTypes pair.1 pair.2) (joins pair) := by
    intro types others formed formed' pair member
    obtain ⟨inTypes, inOthers⟩ := List.of_mem_zip member
    have both := And.intro (formed _ inTypes) (formed' _ inOthers)
    exact (joinTypes_joined rooted both.1.typeKnown both.2.typeKnown).answers.mono
      fun join joined => ⟨both, joined⟩
  have isJoin : ∀ (pair : BlockType × BlockType) join, joins pair join →
      IsJoin (TypeBelow origin.known) (TypeKnown origin.known) pair.1 pair.2 join :=
    fun pair join ⟨both, joined⟩ =>
      joined.isJoin rooted rootKnown both.1.typeKnown both.2.typeKnown
  have formed : ∀ {pairs : List (BlockType × BlockType)} {joined : List BlockType},
      List.Forall₂ joins pairs joined → ∀ type ∈ joined, TypeFormed origin.known type := by
    intro pairs joined all type member
    obtain ⟨pair, -, both, isJoined⟩ := forall₂_mem all member
    exact isJoined.formed rooted rootKnown both.1 both.2
  have least : ∀ (pair : BlockType × BlockType) join upper, joins pair join →
      TypeBelow origin.known pair.1 upper → TypeBelow origin.known pair.2 upper →
        TypeBelow origin.known join upper :=
    fun pair join upper ⟨_, joined⟩ => joined.least rooted rootKnown
  refine (joinFrames_each block sameLocals (each firstFormed.locals secondFormed.locals)
    (each firstFormed.stack secondFormed.stack)).mono fun joined ⟨onLocals, sameStack, onStack⟩ => ?_
  have locals := IsJoin.lists sameLocals (onLocals.imp isJoin)
  have stack := IsJoin.lists sameStack (onStack.imp isJoin)
  constructor
  case formed =>
    exact ⟨formed onLocals, formed onStack,
      locals.covers.length_eq.symm.trans firstFormed.slots_eq⟩
  case covers => exact ⟨locals.covers, stack.covers⟩
  case coversOther => exact ⟨locals.coversOther, stack.coversOther⟩
  case least =>
    exact fun upper one two => ⟨forall₂_zip_below least onLocals one.locals two.locals,
      forall₂_zip_below least onStack one.stack two.stack⟩

namespace NamesFormed

/-- The frame at the start of a method has formed types only. -/
theorem entry {context : CodeContext} (names : NamesFormed known context) (slots : Nat) :
    FrameFormed known slots (context.method.entryFrame.resize slots) := by
  have entryKnown := names.toNamesKnown.entry slots
  have each : context.method.entryFrame.Each (TypeFormed known) := by
    apply MethodContext.each_entryFrame typeFormed_top nofun
    · rintro _ ⟨⟩
      exact nameFormed_iff.2 ⟨names.spelledThis, names.thisClass⟩
    · exact fun field isField => typeFormed_ofFieldType (names.parameters field isField)
  have resized := each.resize typeFormed_top slots
  exact ⟨fun type inside => resized type (.inl inside),
    fun _ member => absurd member List.not_mem_nil, entryKnown.slots_eq⟩

/-- What a handler is given by related frames is related. -/
theorem caught {context : CodeContext} (names : NamesFormed known context) {handler : Handler}
    {frame other out otherOut : BlockFrame}
    (related : FramesRelated (FormedBelow known) frame other)
    (run : Inference.caught context.pool handler frame = .ok out)
    (run' : Inference.caught context.pool handler other = .ok otherOut) :
    FramesRelated (FormedBelow known) out otherOut := by
  have given : ∀ {cls : String}, TypeFormed known (.object cls) →
      FramesRelated (FormedBelow known) ⟨frame.locals, [.object cls]⟩ ⟨other.locals, [.object cls]⟩ :=
    fun formed => ⟨related.locals, .cons ⟨formed, .same _⟩ .nil⟩
  unfold Inference.caught at run run'
  dsimp only at run run'
  split at run
  · next index isCls =>
    rw [isCls] at run'
    obtain ⟨cls, found, same⟩ := bind_eq_ok.1 run
    obtain ⟨cls', found', same'⟩ := bind_eq_ok.1 run'
    obtain rfl := Except.ok.inj (found.symm.trans found')
    obtain rfl := pure_eq_ok.1 same
    obtain rfl := pure_eq_ok.1 same'
    exact given (names.cls found)
  · next isAll =>
    rw [isAll] at run'
    obtain rfl := pure_eq_ok.1 run
    obtain rfl := pure_eq_ok.1 run'
    exact given names.throwable_formed

end NamesFormed

end Hierarchy
end ClassFile
