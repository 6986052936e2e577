import ClassFile.Proofs.Code.HalvedCode
import ClassFile.Proofs.Code.RecordedFrames
import ClassFile.Proofs.Code.Unreachable

namespace ClassFile

/-!
# Labels that nothing refers to

A label cuts the block that it stands in.  Where frames are not computed and nothing refers
to it, the code is assembled all the same: its labels are linked if they were before, and
then the blocks are those of before, or one of them is cut in two.
-/

/-! ## Linking -/

namespace Item

variable {front back : List Item} {label : Nat} {frame : Frame String Nat}

/-- A label is a mark without a frame. -/
theorem unframed_labelled : (∀ mark ∈ (front ++ .label label :: back).takeWhile isMark,
    mark.frame? = none) ↔ ∀ mark ∈ (front ++ back).takeWhile isMark, mark.frame? = none := by
  induction front with
  | nil =>
    rw [List.nil_append, List.takeWhile_cons_of_pos rfl, List.forall_mem_cons]
    exact and_iff_right rfl
  | cons item front ih =>
    rw [List.cons_append, List.cons_append, List.takeWhile_cons, List.takeWhile_cons]
    split
    · rw [List.forall_mem_cons, List.forall_mem_cons, ih]
    · rfl

theorem keeps_labelled : Keeps (front ++ .label label :: back) frame ↔ Keeps (front ++ back) frame := by
  induction front with
  | nil =>
    rw [List.nil_append, keeps_cons]
    exact or_iff_right fun both => by cases both.1
  | cons item front ih =>
    rw [List.cons_append, List.cons_append, keeps_cons, keeps_cons, ih, unframed_labelled]

theorem mem_labelled {item : Item} : item ∈ front ++ .label label :: back ↔
    item = .label label ∨ item ∈ front ++ back := by
  simp only [List.mem_append, List.mem_cons]
  tauto

end Item

/-- Something refers to a label, be it placed or not. -/
inductive Refers (items : List Item) (handlers : List Handler) (label : Nat) : Prop
  | branch {branch : Branch Nat Nat Unit} (member : .branch branch ∈ items)
      (target : label ∈ branch.targets)
  | frame {frame : Frame String Nat} (member : .frame frame ∈ items) (mentions : frame.Mentions label)
  | start {handler : Handler} (member : handler ∈ handlers) (same : handler.start = label)
  | stop {handler : Handler} (member : handler ∈ handlers) (same : handler.stop = label)
  | entry {handler : Handler} (member : handler ∈ handlers) (same : handler.entry = label)

namespace FlowGraph

variable {front back : List Item} {handlers : List Handler} {subroutines : Bool} {label : Nat}
  {graph other : FlowGraph}

/-- One more label leaves labels linked. -/
theorem linked_labelled (fresh : .label label ∉ front ++ back)
    (unused : ¬Refers (front ++ back) handlers label) :
    Linked (front ++ .label label :: back) handlers subroutines ↔
      Linked (front ++ back) handlers subroutines := by
  have once : ((front ++ .label label :: back).filterMap Item.label?).Nodup ↔
      ((front ++ back).filterMap Item.label?).Nodup := by
    have named : (Item.label label).label? = some label := rfl
    rw [List.filterMap_append, List.filterMap_cons_some named, List.nodup_middle, List.nodup_cons,
      ← List.filterMap_append]
    refine and_iff_right fun member => fresh ?_
    obtain ⟨item, inside, isLabel⟩ := List.mem_filterMap.1 member
    cases item with
    | label => exact Option.some.inj isLabel ▸ inside
    | _ => cases isLabel
  have placed : ∀ {name}, Refers (front ++ back) handlers name →
      (.label name ∈ front ++ .label label :: back ↔ .label name ∈ front ++ back) := by
    intro name refers
    rw [Item.mem_labelled]
    refine or_iff_right fun same => unused ?_
    exact Item.label.inj same ▸ refers
  have branches : ∀ {branch}, .branch branch ∈ front ++ .label label :: back ↔
      .branch branch ∈ front ++ back := by
    intro branch
    rw [Item.mem_labelled]
    exact or_iff_right fun same => by cases same
  have kept : ∀ {frame}, Item.Keeps (front ++ back) frame → .frame frame ∈ front ++ back := by
    rintro frame ⟨before, after, whole, -⟩
    rw [whole]
    exact List.mem_append_right _ List.mem_cons_self
  constructor
  · intro linked
    refine ⟨once.1 linked.once, fun plain branch member => linked.plain plain branch (branches.2 member),
      fun branch member name target => ?_, fun frame keeps name mentions => ?_, fun handler member => ?_⟩
    · exact (placed (.branch member target)).1 (linked.branches branch (branches.2 member) name target)
    · exact (placed (.frame (kept keeps) mentions)).1
        (linked.frames frame (Item.keeps_labelled.2 keeps) name mentions)
    · obtain ⟨start, stop, entry⟩ := linked.handlers handler member
      exact ⟨(placed (.start member rfl)).1 start, (placed (.stop member rfl)).1 stop,
        (placed (.entry member rfl)).1 entry⟩
  · intro linked
    refine ⟨once.2 linked.once, fun plain branch member => linked.plain plain branch (branches.1 member),
      fun branch member name target => ?_, fun frame keeps name mentions => ?_, fun handler member => ?_⟩
    · exact Item.mem_labelled.2 (.inr (linked.branches branch (branches.1 member) name target))
    · exact Item.mem_labelled.2 (.inr (linked.frames frame (Item.keeps_labelled.1 keeps) name mentions))
    · obtain ⟨start, stop, entry⟩ := linked.handlers handler member
      exact ⟨Item.mem_labelled.2 (.inr start), Item.mem_labelled.2 (.inr stop),
        Item.mem_labelled.2 (.inr entry)⟩

/-- Blocks are there if they were before, and they are the same or one of them is cut. -/
theorem ofItems_alike (fresh : .label label ∉ front ++ back)
    (unused : ¬Refers (front ++ back) handlers label) :
    EndsAlike Labelled (ofItems (front ++ back) handlers subroutines)
      (ofItems (front ++ .label label :: back) handlers subroutines) := by
  have linked := @linked_labelled _ _ _ subroutines _ fresh unused
  rw [← exists_ofItems_iff, ← exists_ofItems_iff] at linked
  cases built : ofItems (front ++ back) handlers subroutines with
  | ok graph =>
    obtain ⟨other, built'⟩ := linked.2 ⟨graph, built⟩
    rw [built']
    exact .ok (ofItems_labelled built built')
  | error fault =>
    cases built' : ofItems (front ++ .label label :: back) handlers subroutines with
    | ok other =>
      obtain ⟨graph, succeeded⟩ := linked.1 ⟨other, built'⟩
      cases built.symm.trans succeeded
    | error fault' => exact .error fault fault'

end FlowGraph

/-! ## The same blocks -/

/-- Replaying does not look at labels. -/
theorem CodeContext.replay_of_blocks {graph other : FlowGraph} (same : other.blocks = graph.blocks)
    (method : MethodContext) (pool : Pool) :
    replay ⟨other, method, pool⟩ = replay ⟨graph, method, pool⟩ := by
  have code : Assembly.SameCode graph.blocks other.blocks := same ▸ .refl _
  have steps : step ⟨other, method, pool⟩ = step ⟨graph, method, pool⟩ := by
    funext block frame instruction
    exact (FlowGraph.alike_of_sameCode code method pool).step_eq block frame instruction
  unfold replay stepBlock lastRecorded
  simp only [same, steps]

theorem MethodBody.recordedBlocks_of_blocks {graph other : FlowGraph}
    (same : other.blocks = graph.blocks) (method : MethodContext) (pool : Pool) :
    recordedBlocks ⟨other, method, pool⟩ = recordedBlocks ⟨graph, method, pool⟩ := by
  unfold recordedBlocks Assembly.addWidenedFrames
  simp only [same, CodeContext.replay_of_blocks same]

/-! ## Assembling -/

namespace MethodBody

open Assembly

/-- Write code that was laid out with recorded frames. -/
def writeRecorded (method : MethodContext) (laidOut : LaidMethod) : Assembler CodeImage :=
  writeOut method laidOut.limits laidOut.laid laidOut.graph.handlers laidOut.laid.recordedFrames

/-- What comes before the code is laid out leaves the state alone. -/
theorem run_assemble_of_recorded {body : MethodBody} {method : MethodContext} {mode : ComputeMode}
    {wantsFrames : Bool} (recorded : mode.computesFrames = false) (before : Assembler.State) :
    (body.assemble method mode wantsFrames).run before =
      match body.recordedMethod method mode before.pool with
      | .ok laidOut => (writeRecorded method laidOut).run before
      | .error fault => (.error fault, before) := by
  have laid := @run_layOut_recorded body method before mode recorded
  cases run : body.recordedMethod method mode before.pool with
  | error fault =>
    rw [run] at laid
    rw [assemble_eq]
    exact run_bind_of_error laid
  | ok laidOut =>
    rw [run] at laid
    rw [run_assemble laid, LaidMethod.frames, recorded, if_neg Bool.false_ne_true]
    rfl

/-- Bodies that are laid out in the same cases, to be written in the same way, are assembled
alike. -/
theorem run_assemble_alike {body other : MethodBody} {method : MethodContext} {mode : ComputeMode}
    {before : Assembler.State}
    (alike : EndsAlike (fun laidOut laidOut' => writeRecorded method laidOut' = writeRecorded method laidOut)
      (body.recordedMethod method mode before.pool) (other.recordedMethod method mode before.pool))
    (recorded : mode.computesFrames = false) (wantsFrames : Bool) :
    let run := (body.assemble method mode wantsFrames).run before
    let run' := (other.assemble method mode wantsFrames).run before
    run'.2 = run.2 ∧ run'.1.toOption = run.1.toOption := by
  rw [run_assemble_of_recorded recorded, run_assemble_of_recorded recorded]
  revert alike
  generalize body.recordedMethod method mode before.pool = laidOut
  generalize other.recordedMethod method mode before.pool = laidOut'
  intro alike
  cases alike with
  | ok same =>
    dsimp only
    rw [same]
    exact ⟨rfl, rfl⟩
  | error => exact ⟨rfl, rfl⟩

section

variable {front back : List Item} {handlers : List Handler} {label : Nat} {limits? : Option Limits}

theorem limitsOf_alike {body body' : MethodBody} (kept : body'.limits = body.limits)
    {graph other : FlowGraph} (labelled : FlowGraph.Labelled graph other) (method : MethodContext)
    (mode : ComputeMode) (pool : Pool) :
    EndsAlike (fun limits limits' => limits' = limits) (body.limitsOf method mode graph pool)
      (body'.limitsOf method mode other pool) := by
  unfold limitsOf
  split
  · refine .of_iff fun limits => ?_
    cases labelled with
    | same blocks handlers => rw [Limits.compute_eq (blocks ▸ .refl _) handlers]
    | cut isCut => exact Limits.compute_halved isCut
  · rw [kept]
    exact .ok rfl

/-- With one more label code is laid out in the same cases, and it is written in the same way. -/
theorem recordedMethod_alike (fresh : .label label ∉ front ++ back)
    (unused : ¬Refers (front ++ back) handlers label) (method : MethodContext) (mode : ComputeMode)
    (pool : Pool) :
    EndsAlike (fun laidOut laidOut' => writeRecorded method laidOut' = writeRecorded method laidOut)
      (recordedMethod ⟨front ++ back, handlers, limits?⟩ method mode pool)
      (recordedMethod ⟨front ++ .label label :: back, handlers, limits?⟩ method mode pool) := by
  have graphs := (@FlowGraph.ofItems_alike _ _ _ true _ fresh unused).mono
    fun graph other built built' labelled => And.intro built (And.intro built' labelled)
  refine graphs.bind fun graph other ⟨built, built', labelled⟩ => ?_
  refine (limitsOf_alike rfl labelled method mode pool).bind fun limits _ same => ?_
  rw [same]
  cases labelled with
  | same blocks handlers =>
    rw [recordedBlocks_of_blocks blocks method pool]
    refine (EndsAlike.of_iff fun _ => Iff.rfl).bind fun others _ same => .ok ?_
    rw [same, writeRecorded, writeRecorded, blocks, handlers]
  | cut isCut =>
    exact (writeOut_halved isCut built built' method pool limits).bind fun _ _ same => .ok same

end

/-! ## Labels anywhere -/

/-- A label that is not placed in a body and that nothing in it refers to. -/
structure Fresh (body : MethodBody) (label : Nat) : Prop where
  unplaced : .label label ∉ body.items
  unused : ¬Refers body.items body.handlers label

/-- A body with one more label. -/
def insertLabel (body : MethodBody) (position label : Nat) : MethodBody :=
  { body with items := body.items.insertIdx position (.label label) }

/-- A body with more labels, each of which is put where its position says. -/
def labelled (body : MethodBody) (places : List (Nat × Nat)) : MethodBody :=
  places.foldl (fun body place => body.insertLabel place.1 place.2) body

variable {body : MethodBody} {position label : Nat}

/-- A label is put somewhere, or its position is behind the end. -/
theorem insertLabel_cases (body : MethodBody) (position label : Nat) :
    body.insertLabel position label = body ∨
      ∃ front back, body.items = front ++ back ∧
        body.insertLabel position label = { body with items := front ++ .label label :: back } := by
  rcases Nat.lt_or_ge body.items.length position with behind | inside
  · refine .inl ?_
    rw [insertLabel, List.insertIdx_of_length_lt behind]
  · obtain ⟨front, back, items, -, inserted⟩ :=
      List.exists_of_modifyTailIdx (List.cons (Item.label label)) inside
    refine .inr ⟨front, back, items, ?_⟩
    rw [insertLabel, List.insertIdx, inserted]

/-- Other labels stay fresh. -/
theorem Fresh.insertLabel {other : Nat} (fresh : body.Fresh other) (apart : other ≠ label) :
    (body.insertLabel position label).Fresh other := by
  have old : ∀ item ∈ (body.insertLabel position label).items, item ≠ .label label → item ∈ body.items :=
    fun item member new => (List.eq_or_mem_of_mem_insertIdx member).resolve_left new
  refine ⟨fun placed => fresh.unplaced (old _ placed fun same => apart (Item.label.inj same)),
    fun refers => fresh.unused ?_⟩
  cases refers with
  | branch member target => exact .branch (old _ member nofun) target
  | frame member mentions => exact .frame (old _ member nofun) mentions
  | start member same => exact .start member same
  | stop member same => exact .stop member same
  | entry member same => exact .entry member same

/-- Where frames are not computed, labels that nothing refers to can be put anywhere: a body
is assembled in the same cases, into the same code, and leaves the same constants. -/
theorem assemble_labelled {places : List (Nat × Nat)} (distinct : (places.map Prod.snd).Nodup)
    (fresh : ∀ label ∈ places.map Prod.snd, body.Fresh label) (method : MethodContext)
    {mode : ComputeMode} (recorded : mode.computesFrames = false) (wantsFrames : Bool)
    (before : Assembler.State) :
    let run := (body.assemble method mode wantsFrames).run before
    let run' := ((body.labelled places).assemble method mode wantsFrames).run before
    run'.2 = run.2 ∧ run'.1.toOption = run.1.toOption := by
  induction places generalizing body with
  | nil => exact ⟨rfl, rfl⟩
  | cons place places ih =>
    obtain ⟨position, label⟩ := place
    rw [List.map_cons, List.nodup_cons] at distinct
    rw [List.map_cons, List.forall_mem_cons] at fresh
    obtain ⟨new, apart⟩ := distinct
    obtain ⟨first, others⟩ := fresh
    have rest := @ih (body.insertLabel position label) apart fun other member =>
      (others other member).insertLabel fun same => new (same ▸ member)
    rcases insertLabel_cases body position label with behind | ⟨front, back, items, inserted⟩
    · rw [behind] at rest
      rwa [labelled, List.foldl_cons, behind]
    · have one := run_assemble_alike (@recordedMethod_alike front back body.handlers label body.limits
        (items ▸ first.unplaced) (items ▸ first.unused) method mode before.pool) recorded wantsFrames
      rw [← items] at one
      rw [inserted] at rest
      rw [labelled, List.foldl_cons, inserted]
      exact ⟨rest.1.trans one.1, rest.2.trans one.2⟩

theorem severed_fresh (large : 2 < label) : severed.Fresh label := by
  have branches : ∀ branch, .branch branch ∈ severed.items → branch = .returns none := by
    intro branch placed
    simpa [severed] using placed
  have frameless : ∀ frame, .frame frame ∉ severed.items := by
    intro frame
    simp [severed]
  refine ⟨fun placed => ?_, fun refers => ?_⟩
  · have small : label = 0 ∨ label = 1 ∨ label = 2 := by simpa [severed] using placed
    omega
  · cases refers with
    | branch placed target =>
      rw [branches _ placed] at target
      cases target
    | frame placed => exact frameless _ placed
    | start placed same | stop placed same | entry placed same =>
      obtain rfl := List.mem_singleton.1 placed
      subst same
      exact absurd large (by decide)

/-- Labels at the start of `severed`, within its dead block and at its end. -/
theorem assemble_labelled_severed :
    let run' := ((severed.labelled [(3, 7), (0, 8), (10, 9)]).assemble severedMethod .limits false).run
      ⟨.empty, .ofGraph .empty []⟩
    run'.2 = ⟨.empty, .ofGraph .empty []⟩ ∧ run'.1.toOption = some severedRecorded := by
  have fresh : ∀ label ∈ [7, 8, 9], severed.Fresh label := by
    intro label member
    refine severed_fresh ?_
    revert label
    decide
  have same := @assemble_labelled severed [(3, 7), (0, 8), (10, 9)] (by decide) fresh severedMethod
    .limits rfl false ⟨.empty, .ofGraph .empty []⟩
  rwa [severed_run_limits] at same

end MethodBody
end ClassFile
