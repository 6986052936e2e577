import ClassFile.Proofs.Code.Replaying

namespace ClassFile

/-!
# Computed frames and recorded ones

Frames that are computed take the place of those that were recorded.  So a body is
assembled by its code alone: what its frames say has no part in it, and frames that stand
where a block starts anyway may be left out.  A frame in the middle of a block still cuts
the block in two.
-/

/-! ## Frames that cut no block -/

/-- A frame that was recorded. -/
def Item.isFrame : Item → Bool
  | .frame _ => true
  | _ => false

namespace FlowGraph

/-- What a draft says apart from its frame. -/
def Draft.contents (draft : Draft) : Array Instruction × Option (Branch Nat Nat Unit) :=
  (draft.instructions, draft.branch)

namespace Drafts

variable {drafts plain after : Drafts}

theorem split_split (drafts : Drafts) : drafts.split.split = drafts.split :=
  split_of_empty drafts.isEmpty_split

/-- Drafts that were cut wherever other ones were, and are the same as those where they were
cut no more often. -/
structure Covers (drafts plain : Drafts) : Prop where
  inner : plain.open_.instructions = #[] → drafts.open_.instructions = #[]
  falls : drafts.open_.branch = none
  plain_falls : plain.open_.branch = none
  most : plain.split.closed.size ≤ drafts.split.closed.size
  same : drafts.split.closed.size = plain.split.closed.size →
    drafts.split.closed.toList.map Draft.contents = plain.split.closed.toList.map Draft.contents ∧
      drafts.labels = plain.labels

theorem covers_empty : Covers .empty .empty :=
  ⟨fun _ => rfl, rfl, rfl, Nat.le_refl _, fun _ => ⟨rfl, rfl⟩⟩

theorem Covers.split (covers : Covers drafts plain) : Covers drafts.split plain.split := by
  refine ⟨fun _ => drafts.isEmpty_split, branch_split covers.falls, branch_split covers.plain_falls,
    ?_, ?_⟩
  · rw [split_split, split_split]
    exact covers.most
  · rw [split_split, split_split, labels_split, labels_split]
    exact covers.same

/-- A frame cuts the open block or changes nothing but its frame. -/
theorem Covers.addFrame (covers : Covers drafts plain) (frame : Frame String Nat) :
    Covers (drafts.split.addFrame frame) plain := by
  have kept : (drafts.split.addFrame frame).split = drafts.split.addFrame frame :=
    split_of_empty drafts.isEmpty_split
  refine ⟨fun _ => drafts.isEmpty_split, branch_split covers.falls, covers.plain_falls, ?_, ?_⟩
  · rw [kept]
    exact covers.most
  · rw [kept]
    exact fun sameSize => (covers.same sameSize).imp_right (labels_split drafts).trans

theorem Covers.addLabel (covers : Covers drafts plain) {label : Nat} {after plainAfter : Drafts}
    (run : drafts.split.addLabel label = .ok after)
    (plainRun : plain.split.addLabel label = .ok plainAfter) : Covers after plainAfter := by
  obtain ⟨-, rfl⟩ := addLabel_eq_ok.1 run
  obtain ⟨-, rfl⟩ := addLabel_eq_ok.1 plainRun
  have covers := covers.split
  have kept : ∀ (drafts : Drafts) (labels : Std.HashMap Nat Nat),
      Drafts.split { drafts.split with labels } = { drafts.split with labels } :=
    fun drafts labels => split_of_empty drafts.isEmpty_split
  refine ⟨covers.inner, covers.falls, covers.plain_falls, ?_, ?_⟩
  · rw [kept, kept]
    have most := covers.most
    rwa [split_split, split_split] at most
  · rw [kept, kept]
    intro sameSize
    have same := covers.same
    rw [split_split, split_split] at same
    obtain ⟨sameClosed, sameLabels⟩ := same sameSize
    refine ⟨sameClosed, ?_⟩
    dsimp only at sameSize ⊢
    rw [sameLabels, sameSize]

/-- No block that is closed is missing. -/
theorem Covers.closed (covers : Covers drafts plain) :
    plain.closed.size ≤ drafts.closed.size ∧ (drafts.closed.size = plain.closed.size →
      drafts.closed.toList.map Draft.contents = plain.closed.toList.map Draft.contents ∧
        drafts.open_.instructions = plain.open_.instructions ∧ drafts.labels = plain.labels) := by
  have most := covers.most
  have same := covers.same
  by_cases empty : drafts.open_.instructions = #[] <;>
    by_cases plainEmpty : plain.open_.instructions = #[]
  · rw [split_of_empty empty, split_of_empty plainEmpty] at most same
    refine ⟨most, fun sameSize => ?_⟩
    exact ⟨(same sameSize).1, empty.trans plainEmpty.symm, (same sameSize).2⟩
  · rw [split_of_empty empty, split_of_some plainEmpty, cut, Array.size_push] at most
    exact ⟨by omega, fun sameSize => by omega⟩
  · exact absurd (covers.inner plainEmpty) empty
  · rw [split_of_some empty, split_of_some plainEmpty, cut, cut] at most same
    rw [Array.size_push, Array.size_push] at most same
    refine ⟨Nat.le_of_succ_le_succ most, fun sameSize => ?_⟩
    obtain ⟨sameClosed, sameLabels⟩ := same (congrArg (· + 1) sameSize)
    rw [Array.toList_push, Array.toList_push, List.map_append, List.map_append] at sameClosed
    obtain ⟨sameClosed, sameOpen⟩ := List.append_inj' sameClosed rfl
    exact ⟨sameClosed, (Prod.mk.inj (List.cons.inj sameOpen).1).1, sameLabels⟩

/-- Closing the open blocks with the same change keeps both alike. -/
theorem Covers.push (covers : Covers drafts plain) (draft plainDraft : Draft)
    (sameOpen : drafts.open_.instructions = plain.open_.instructions →
      draft.contents = plainDraft.contents) :
    plain.closed.size + 1 ≤ drafts.closed.size + 1 ∧
      (drafts.closed.size + 1 = plain.closed.size + 1 →
        (drafts.closed.push draft).toList.map Draft.contents =
          (plain.closed.push plainDraft).toList.map Draft.contents ∧
            drafts.labels = plain.labels) := by
  obtain ⟨most, same⟩ := covers.closed
  refine ⟨Nat.succ_le_succ most, fun sameSize => ?_⟩
  obtain ⟨sameClosed, opens, sameLabels⟩ := same (Nat.succ.inj sameSize)
  refine ⟨?_, sameLabels⟩
  rw [Array.toList_push, Array.toList_push, List.map_append, List.map_append, sameClosed,
    List.map_singleton, List.map_singleton, sameOpen opens]

theorem Covers.addInstruction (covers : Covers drafts plain) (instruction : Instruction) :
    Covers (drafts.addInstruction instruction) (plain.addInstruction instruction) := by
  have cuts : ∀ drafts : Drafts, (drafts.addInstruction instruction).split =
      (drafts.addInstruction instruction).cut :=
    fun drafts => split_of_some Array.push_ne_empty
  have pushed := covers.push ⟨drafts.open_.frame, drafts.open_.instructions.push instruction,
    drafts.open_.branch⟩ ⟨plain.open_.frame, plain.open_.instructions.push instruction,
      plain.open_.branch⟩ fun opens => by
        rw [Draft.contents, Draft.contents, opens, covers.falls, covers.plain_falls]
  refine ⟨fun empty => absurd empty Array.push_ne_empty, covers.falls, covers.plain_falls, ?_, ?_⟩
  · rw [cuts, cuts, cut, cut, Array.size_push, Array.size_push]
    exact pushed.1
  · rw [cuts, cuts, cut, cut, Array.size_push, Array.size_push]
    exact pushed.2

theorem Covers.addBranch (covers : Covers drafts plain) (branch : Branch Nat Nat Unit) :
    Covers (drafts.addBranch branch) (plain.addBranch branch) := by
  have kept : ∀ drafts : Drafts, (drafts.addBranch branch).split = drafts.addBranch branch :=
    fun drafts => split_of_empty rfl
  have pushed := covers.push ⟨drafts.open_.frame, drafts.open_.instructions, some branch⟩
    ⟨plain.open_.frame, plain.open_.instructions, some branch⟩ fun opens => by
      rw [Draft.contents, Draft.contents, opens]
  refine ⟨fun _ => rfl, rfl, rfl, ?_, ?_⟩
  · rw [kept, kept, Drafts.addBranch, Drafts.addBranch, cut, cut, Array.size_push, Array.size_push]
    exact pushed.1
  · rw [kept, kept, Drafts.addBranch, Drafts.addBranch, cut, cut, Array.size_push, Array.size_push]
    exact pushed.2

theorem Covers.add {subroutines : Bool} {item : Item} {plainAfter : Drafts}
    (covers : Covers drafts plain) (run : drafts.add subroutines item = .ok after)
    (plainRun : plain.add subroutines item = .ok plainAfter) (code : item.isFrame = false) :
    Covers after plainAfter := by
  cases item with
  | label label => exact covers.addLabel run plainRun
  | frame frame => cases code
  | instruction instruction =>
    obtain rfl := Except.ok.inj run
    obtain rfl := Except.ok.inj plainRun
    split
    · exact covers.split.addInstruction instruction
    · exact covers.addInstruction instruction
  | branch branch =>
    rw [Drafts.add] at run plainRun
    split at run
    · cases run
    · next allowed =>
      rw [if_neg allowed] at plainRun
      obtain rfl := Except.ok.inj run
      obtain rfl := Except.ok.inj plainRun
      exact covers.addBranch branch

theorem Covers.foldlM_add {subroutines : Bool} {items : List Item} {plainAfter : Drafts}
    (covers : Covers drafts plain) (run : items.foldlM (Drafts.add subroutines) drafts = .ok after)
    (plainRun : (items.filter fun item => !item.isFrame).foldlM (Drafts.add subroutines) plain =
      .ok plainAfter) : Covers after plainAfter := by
  induction items generalizing drafts plain with
  | nil =>
    obtain rfl := pure_eq_ok.1 run
    obtain rfl := pure_eq_ok.1 plainRun
    exact covers
  | cons item items ih =>
    obtain ⟨next, step, onward⟩ := foldlM_cons_eq_ok.1 run
    cases isFrame : item.isFrame with
    | true =>
      rw [List.filter_cons, isFrame] at plainRun
      cases item with
      | frame frame =>
        obtain rfl := Except.ok.inj step
        exact ih (covers.addFrame frame) onward plainRun
      | _ => cases isFrame
    | false =>
      rw [List.filter_cons, isFrame] at plainRun
      obtain ⟨plainNext, plainStep, plainOnward⟩ := foldlM_cons_eq_ok.1 plainRun
      exact ih (covers.add step plainStep isFrame) onward plainOnward

end Drafts

variable {items : List Item} {handlers : List Handler} {subroutines : Bool}
  {graph plain : FlowGraph}

theorem Draft.resolve_contents {labels : Std.HashMap Nat Nat} {draft other : Draft} {next : Nat}
    {isLast : Bool} {code otherCode : CodeBlock} (same : draft.contents = other.contents)
    (run : draft.resolve labels next isLast = .ok code)
    (otherRun : other.resolve labels next isLast = .ok otherCode) :
    Assembly.contents code = Assembly.contents otherCode := by
  rcases Prod.mk.inj same with ⟨sameInstructions, sameBranch⟩
  rcases Draft.resolve_eq_ok.1 run with ⟨ends, -, instructions⟩
  rcases Draft.resolve_eq_ok.1 otherRun with ⟨otherEnds, -, otherInstructions⟩
  rw [Draft.ending, sameBranch] at ends
  rw [Assembly.contents, Assembly.contents, ← instructions, ← otherInstructions, sameInstructions,
    Except.ok.inj (ends.symm.trans otherEnds)]

theorem contents_of_resolved {labels : Std.HashMap Nat Nat} {count : Nat}
    {drafts others : List Draft} {codes otherCodes : List CodeBlock}
    (same : drafts.map Draft.contents = others.map Draft.contents) (start : Nat)
    (run : (drafts.zipIdx start).mapM (fun (draft, position) =>
      draft.resolve labels (position + 1) (position + 1 = count)) = .ok codes)
    (otherRun : (others.zipIdx start).mapM (fun (draft, position) =>
      draft.resolve labels (position + 1) (position + 1 = count)) = .ok otherCodes) :
    codes.map Assembly.contents = otherCodes.map Assembly.contents := by
  induction drafts generalizing others start codes otherCodes with
  | nil =>
    obtain rfl := List.map_eq_nil_iff.1 same.symm
    obtain rfl := pure_eq_ok.1 run
    obtain rfl := pure_eq_ok.1 otherRun
    rfl
  | cons draft drafts ih =>
    cases others with
    | nil => cases same
    | cons other others =>
      obtain ⟨here, rest⟩ := List.cons_eq_cons.1 same
      rw [List.zipIdx_cons, mapM_eq_ok] at run otherRun
      cases run with
      | cons first onward =>
        cases otherRun with
        | cons otherFirst otherOnward =>
          exact List.cons_eq_cons.2 ⟨Draft.resolve_contents here first otherFirst,
            ih rest (start + 1) (mapM_eq_ok.2 onward) (mapM_eq_ok.2 otherOnward)⟩

/-- Frames that cut no block leave the code as it is without them. -/
theorem sameCode_of_uncut (built : ofItems items handlers subroutines = .ok graph)
    (plainBuilt : ofItems (items.filter fun item => !item.isFrame) handlers subroutines = .ok plain)
    (uncut : graph.blocks.size = plain.blocks.size) :
    Assembly.SameCode graph.blocks plain.blocks ∧ plain.handlers = graph.handlers := by
  obtain ⟨drafts, cut, rest⟩ := bind_eq_ok.1 built
  obtain ⟨last, added, isCut⟩ := bind_eq_ok.1 cut
  obtain rfl := pure_eq_ok.1 isCut
  obtain ⟨plainDrafts, plainCut, plainRest⟩ := bind_eq_ok.1 plainBuilt
  obtain ⟨plainLast, plainAdded, isPlainCut⟩ := bind_eq_ok.1 plainCut
  obtain rfl := pure_eq_ok.1 isPlainCut
  obtain ⟨codes, resolved, rest⟩ := bind_eq_ok.1 rest
  obtain ⟨plainCodes, plainResolved, plainRest⟩ := bind_eq_ok.1 plainRest
  obtain ⟨_, entries, isGraph⟩ := bind_eq_ok.1 rest
  obtain ⟨_, plainEntries, isPlain⟩ := bind_eq_ok.1 plainRest
  obtain rfl := pure_eq_ok.1 isGraph
  obtain rfl := pure_eq_ok.1 isPlain
  have covers := Drafts.covers_empty.foldlM_add added plainAdded
  have each := mapM_eq_ok.1 resolved
  have plainEach := mapM_eq_ok.1 plainResolved
  have sameSize : last.closed.size + 1 = plainLast.closed.size + 1 := by
    have size := each.length_eq
    have plainSize := plainEach.length_eq
    rw [List.length_zipIdx, Array.length_toList, Drafts.cut, Array.size_push] at size plainSize
    rw [size, plainSize]
    exact uncut
  obtain ⟨sameClosed, sameLabels⟩ := (covers.push last.open_ plainLast.open_ fun opens => by
    rw [Draft.contents, Draft.contents, opens, covers.falls, covers.plain_falls]).2 sameSize
  rw [Drafts.cut] at resolved entries
  rw [Drafts.cut, ← sameLabels] at plainResolved plainEntries
  rw [Array.size_push] at resolved plainResolved
  rw [← sameSize] at plainResolved
  refine ⟨Assembly.sameCode_iff.2 (contents_of_resolved sameClosed 0 resolved plainResolved), ?_⟩
  exact Except.ok.inj (plainEntries.symm.trans entries)

end FlowGraph

/-! ## Inference -/

namespace CodeContext

variable {context context' : CodeContext}

theorem Alike.step_eq (alike : context.Alike context') (block : Nat) (frame : BlockFrame)
    (instruction : Instruction) :
    context'.step block frame instruction = context.step block frame instruction := by
  have calls : context'.callReceiver = context.callReceiver := by
    funext mode name site frame
    unfold callReceiver
    simp only [alike.initializedClass]
  obtain ⟨graph, method, pool⟩ := context
  obtain ⟨graph', method', pool'⟩ := context'
  obtain rfl : pool' = pool := alike.pool
  unfold CodeContext.step
  dsimp only
  rw [calls]
  rfl

end CodeContext

namespace Inference

variable {graph supplied : FlowGraph} {method : MethodContext} {pool : Pool}
  (same : Assembly.SameCode graph.blocks supplied.blocks)
  (handlers : supplied.handlers = graph.handlers)

include same handlers

theorem visit_eq (block : Nat) (code : CodeBlock) (frame? : Option BlockFrame)
    (frame : BlockFrame) (progress : Progress) :
    visit ⟨supplied, method, pool⟩ block ⟨frame?, code.instructions, code.branch⟩ frame progress =
      visit ⟨graph, method, pool⟩ block code frame progress := by
  have alike := FlowGraph.alike_of_sameCode same method pool
  have covering : supplied.handlersOf block = graph.handlersOf block := by
    rw [FlowGraph.handlersOf, FlowGraph.handlersOf, handlers]
  unfold visit
  dsimp only
  rw [covering]
  simp only [alike.step_eq]
  rfl

theorem run_eq (visits : Nat) (progress : Progress) :
    run ⟨supplied, method, pool⟩ visits progress = run ⟨graph, method, pool⟩ visits progress := by
  induction visits generalizing progress with
  | zero =>
    obtain ⟨frames, waiting⟩ := progress
    cases waiting <;> rfl
  | succ visits ih =>
    obtain ⟨frames, waiting⟩ := progress
    cases waiting with
    | nil => rfl
    | cons block waiting =>
      rw [run, run]
      dsimp only
      rcases same.both block with ⟨there, there'⟩ | ⟨code, frame?, there, there'⟩
      · rw [there, there']
        exact ih _
      · rw [there, there']
        rcases frames[block]? with _ | _ | frame
        · exact ih _
        · exact ih _
        · dsimp only
          rw [visit_eq same handlers]
          exact bind_congr fun next => ih next

/-- Frames that were recorded have no part in those that are inferred. -/
theorem inferFrames_eq (locals : Nat) :
    CodeContext.inferFrames ⟨supplied, method, pool⟩ locals =
      CodeContext.inferFrames ⟨graph, method, pool⟩ locals := by
  have bound : visitBound ⟨supplied, method, pool⟩ locals =
      visitBound ⟨graph, method, pool⟩ locals := by
    have onContents : ∀ codes : List CodeBlock,
        codes.foldl (fun total code => total + code.instructions.size) 0 =
          (codes.map Assembly.contents).foldl (fun total contents => total + contents.1.size) 0 :=
      fun codes => by
        rw [List.foldl_map]
        rfl
    funext classes
    unfold visitBound
    dsimp only
    rw [← Array.foldl_toList, ← Array.foldl_toList, onContents, onContents,
      Assembly.sameCode_iff.1 same, same.size_eq]
    rfl
  unfold CodeContext.inferFrames
  dsimp only
  rw [same.size_eq, bound]
  simp only [run_eq same handlers]

end Inference

/-! ## Assembling -/

theorem Assembly.SameCode.zipWith_frames {blocks others : Array CodeBlock}
    (same : Assembly.SameCode blocks others) (frames : Array (Option BlockFrame)) :
    Array.zipWith (fun (code : CodeBlock) frame => { code with frame }) blocks frames =
      Array.zipWith (fun (code : CodeBlock) frame => { code with frame }) others frames := by
  refine Array.ext_getElem? fun block => ?_
  rw [Array.getElem?_zipWith, Array.getElem?_zipWith]
  rcases same.both block with ⟨there, there'⟩ | ⟨code, frame, there, there'⟩
  · rw [there, there']
  · rw [there, there']
    cases frames[block]? <;> rfl

namespace MethodBody

variable {body other : MethodBody} {graph supplied : FlowGraph}

/-- Where frames are computed a body is assembled by its code alone, whatever frames were
recorded for it. -/
theorem assemble_eq_of_sameCode
    (built : FlowGraph.ofItems body.items body.handlers false = .ok graph)
    (built' : FlowGraph.ofItems other.items other.handlers false = .ok supplied)
    (same : Assembly.SameCode graph.blocks supplied.blocks)
    (handlers : supplied.handlers = graph.handlers) (method : MethodContext) (wantsFrames : Bool)
    (before : Assembler.State) :
    (other.assemble method .frames wantsFrames).run before =
      (body.assemble method .frames wantsFrames).run before := by
  have computes : ComputeMode.frames.computesFrames = true := rfl
  have counts : ComputeMode.frames.computesLimits = true := rfl
  unfold assemble
  refine (run_bind_of_ok (run_lift_eq_ok.2 ⟨built', rfl⟩)).trans
    (Eq.trans ?_ (run_bind_of_ok (run_lift_eq_ok.2 ⟨built, rfl⟩)).symm)
  dsimp only
  simp only [computes, counts, ← Limits.compute_eq same handlers, Bool.not_true, Bool.false_and,
    Bool.false_eq_true, if_true, if_false, handlers, ← same.zipWith_frames,
    Inference.inferFrames_eq same handlers]

/-- A body without the frames that were recorded for it. -/
def unframed (body : MethodBody) : MethodBody :=
  { body with items := body.items.filter fun item => !item.isFrame }

/-- Where frames are computed, frames that were recorded where a block starts anyway may be
left out, and it does not matter what they say. -/
theorem assemble_unframed {plain : FlowGraph}
    (built : FlowGraph.ofItems body.items body.handlers false = .ok graph)
    (plainBuilt : FlowGraph.ofItems body.unframed.items body.handlers false = .ok plain)
    (uncut : graph.blocks.size = plain.blocks.size) (method : MethodContext) (wantsFrames : Bool)
    (before : Assembler.State) :
    (body.unframed.assemble method .frames wantsFrames).run before =
      (body.assemble method .frames wantsFrames).run before := by
  obtain ⟨same, handlers⟩ := FlowGraph.sameCode_of_uncut built plainBuilt uncut
  exact assemble_eq_of_sameCode built plainBuilt same handlers method wantsFrames before

end MethodBody
end ClassFile
