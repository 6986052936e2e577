import ClassFile.Proofs.Widening.Outcome

namespace ClassFile
namespace Branch

/-- A way for control to leave a block at its end. -/
inductive Outcome
  /-- To one of the targets, in the order of `targets`. -/
  | taken (index : Nat)
  /-- To what the branch falls into or returns to. -/
  | onward
deriving DecidableEq, Repr

/-- Where control goes with an outcome, if the branch has it. -/
def exit? (branch : Branch Nat Nat Nat) : Outcome → Option Nat
  | .taken index => branch.targets[index]?
  | .onward => branch.next?

/-- Zero bytes before the operands of a switch. -/
def padding? {σ ω ν : Type} : Branch σ ω ν → Option Nat
  | tableSwitch padding _ _ _ | lookupSwitch padding _ _ => some padding
  | _ => none

end Branch

namespace Widening

/-!
# Widened code does what it did

Widening is to change how far a branch can reach and nothing else.  Control
leaves every block for the same blocks as before, if need be through one new
block that only jumps on, and the blocks themselves move by whole words, so that
the operands of a switch stay where its padding puts them.  None of this depends
on which branches are out of range, so it holds for every range, and blocks may be
laid out more than once.  Only where a conditional branch is out of range from the
start must its block have one place.  It is taken once for each place, and every time
two new blocks are promised that are made only once.  `Faithful.splitOnce` shows that
nothing less will do.
-/

variable {φ ι : Type}

/-- Where a block ends in a conditional branch, that falls into what comes next. -/
def FallsInto (blocks : Array (Block φ ι)) (block : Nat) (rest : List Nat) : Prop :=
  ∀ code condition target next, blocks[block]? = some code →
    code.branch = .conditional condition target next → rest.head? = some next

/-- A layout in which all targets are laid out, and a conditional branch falls into
the block after it. -/
structure Complete (blocks : Array (Block φ ι)) (order : List Nat) : Prop where
  inside : ∀ block ∈ order, block < blocks.size
  placed : ∀ block ∈ order, ∀ code, blocks[block]? = some code →
    ∀ target ∈ code.branch.targets, target ∈ order
  follows : ∀ block rest, block :: rest <:+ order → FallsInto blocks block rest

/-- What widening may do to a block of the layout.  It puts two paddings before
a jump that it makes wide, and moves the two exits of a conditional branch. -/
inductive Carried (pad : ι) : Block φ ι → Block φ ι → Prop
  | same (code : Block φ ι) : Carried pad code code
  | goto (frame : φ) (instructions : Array ι) (target : Nat) :
      Carried pad ⟨frame, instructions, .goto target⟩
        ⟨frame, (instructions.push pad).push pad, .gotoWide target⟩
  | jsr (frame : φ) (instructions : Array ι) (target next : Nat) :
      Carried pad ⟨frame, instructions, .jsr target next⟩
        ⟨frame, (instructions.push pad).push pad, .jsrWide target next⟩
  | conditional (frame : φ) (instructions : Array ι) (condition : Condition)
      (target next target' next' : Nat) :
      Carried pad ⟨frame, instructions, .conditional condition target next⟩
        ⟨frame, instructions, .conditional condition target' next'⟩

/-- Control that goes to a block of the new layout gets to an old one, which is
that block, or what a new block without instructions jumps to. -/
inductive Result.Passes (result : Result φ ι) (old : Nat) : Nat → Nat → Prop
  | here (block : Nat) : result.Passes old block block
  | through {block new : Nat} {frame : φ} {jump : Branch Nat Nat Nat} (fresh : old ≤ new)
      (placed : new ∈ result.order) (empty : result.blocks[new]? = some ⟨frame, #[], jump⟩)
      (onward : jump = .goto block ∨ jump = .gotoWide block) : result.Passes old new block

variable [Wide ι]

/-- The operands of a switch that starts with its block are at a multiple of
four. -/
def Aligned (code : Block φ ι) (start : Nat) : Prop :=
  ∀ padding, code.branch.padding? = some padding → 4 ∣ start + code.bodyWidth + 1 + padding

/-- A block that is laid out moves by whole words, and a switch at its end is
the same switch and as well aligned as before. -/
structure Moved (blocks blocks' : Array (Block φ ι)) (old new : Nat × Nat) : Prop where
  block : new.1 = old.1
  words : ∃ words, new.2 = old.2 + 4 * words
  aligned : ∀ code padding, blocks[old.1]? = some code → code.branch.padding? = some padding →
    blocks'[old.1]? = some code ∧ (Aligned code old.2 → Aligned code new.2)

/-- What widening keeps of a layout. -/
structure Faithful (pad : ι) (blocks : Array (Block φ ι)) (order : List Nat)
    (result : Result φ ι) : Prop where
  complete : Complete result.blocks result.order
  inOrder : result.order.filter (· < blocks.size) = order
  carried : ∀ block ∈ order, ∀ code, blocks[block]? = some code →
    ∃ now, result.blocks[block]? = some now ∧ Carried pad code now ∧
      ∀ outcome, Option.Rel (result.Passes blocks.size) (now.branch.exit? outcome)
        (code.branch.exit? outcome)
  moved : List.Forall₂ (Moved blocks result.blocks) (Layout.starts blocks order)
    ((Layout.starts result.blocks result.order).filter fun start => start.1 < blocks.size)

section

variable {range : Range} {pad : ι} {blank : φ} {blocks : Array (Block φ ι)} {order : List Nat}
  {result : Result φ ι} {far : Finset Nat} {parts : Nat → List Nat} {block : Nat}

/-! ## Where control goes -/

omit [Wide ι] in
theorem Result.passes_same (result : Result φ ι) (old : Nat) (exit : Option Nat) :
    Option.Rel (result.Passes old) exit exit := by
  cases exit with
  | none => exact .none
  | some block => exact .some (.here block)

omit [Wide ι] in
/-- The branch of a rewritten block leads where it did. -/
theorem Rewritten.carried {part : List Nat}
    (rewritten : Rewritten pad blank blocks result.blocks far block part)
    (contained : part ⊆ result.order) {code : Block φ ι} (there : blocks[block]? = some code) :
    ∃ now, result.blocks[block]? = some now ∧ Carried pad code now ∧
      ∀ outcome, Option.Rel (result.Passes blocks.size) (now.branch.exit? outcome)
        (code.branch.exit? outcome) := by
  cases rewritten with
  | kept before after near =>
    obtain rfl := Option.some.inj (there.symm.trans before)
    exact ⟨code, after, .same code, fun outcome => result.passes_same _ _⟩
  | goto before branch after widened =>
    obtain rfl := Option.some.inj (there.symm.trans before)
    obtain ⟨frame, instructions, _⟩ := code
    subst branch
    refine ⟨_, after, .goto frame instructions _, fun outcome => ?_⟩
    cases outcome <;> exact result.passes_same _ _
  | jsr before branch after widened =>
    obtain rfl := Option.some.inj (there.symm.trans before)
    obtain ⟨frame, instructions, _⟩ := code
    subst branch
    refine ⟨_, after, .jsr frame instructions _ _, fun outcome => ?_⟩
    cases outcome <;> exact result.passes_same _ _
  | @split _ condition target next first before branch fresh split widened =>
    obtain rfl := Option.some.inj (there.symm.trans before)
    obtain ⟨frame, instructions, _⟩ := code
    subst branch
    refine ⟨_, split.after, .conditional frame instructions _ _ _ _ _, fun outcome => ?_⟩
    have onward : result.Passes blocks.size (first + 1) target :=
      .through (by omega) (contained (by simp)) split.onward (.inr rfl)
    have around : result.Passes blocks.size first next :=
      .through fresh (contained (by simp)) split.around (.inl rfl)
    match outcome with
    | .taken 0 => exact .some onward
    | .taken (_ + 1) => exact .none
    | .onward => exact .some around

/-! ## Layouts stay complete -/

omit [Wide ι] in
theorem fallsInto_of_ne {code : Block φ ι} {rest : List Nat} (there : blocks[block]? = some code)
    (other : ∀ condition target next, code.branch ≠ .conditional condition target next) :
    FallsInto blocks block rest := by
  intro code' condition target next there' branch
  obtain rfl := Option.some.inj (there.symm.trans there')
  exact absurd branch (other condition target next)

omit [Wide ι] in
/-- What follows the branch of a rewritten block comes next, and new blocks have
no conditional branches. -/
theorem Rewritten.follows {part rest after : List Nat}
    (rewritten : Rewritten pad blank blocks result.blocks far block part)
    (follows : FallsInto blocks block rest) (same : after.head? = rest.head?)
    {other : Nat} {others : List Nat} (suffix : other :: others <:+ part ++ after) :
    FallsInto result.blocks other others ∨ other :: others <:+ after := by
  cases rewritten with
  | kept before now near =>
    refine (List.suffix_cons_iff.1 suffix).imp_left fun here => ?_
    obtain ⟨rfl, rfl⟩ := List.cons.inj here
    intro code' condition target next there branch
    obtain rfl := Option.some.inj (now.symm.trans there)
    exact same.trans (follows _ condition target next before branch)
  | goto before branch now widened =>
    refine (List.suffix_cons_iff.1 suffix).imp_left fun here => ?_
    obtain ⟨rfl, rfl⟩ := List.cons.inj here
    exact fallsInto_of_ne now (by simp)
  | jsr before branch now widened =>
    refine (List.suffix_cons_iff.1 suffix).imp_left fun here => ?_
    obtain ⟨rfl, rfl⟩ := List.cons.inj here
    exact fallsInto_of_ne now (by simp)
  | @split _ condition target next first before branch fresh split widened =>
    rcases List.suffix_cons_iff.1 suffix with here | suffix
    · obtain ⟨rfl, rfl⟩ := List.cons.inj here
      left
      intro code' condition' target' next' there branch'
      obtain rfl := Option.some.inj (split.after.symm.trans there)
      obtain ⟨-, -, rfl⟩ := Branch.conditional.inj branch'
      rfl
    rcases List.suffix_cons_iff.1 suffix with here | suffix
    · obtain ⟨rfl, rfl⟩ := List.cons.inj here
      exact .inl (fallsInto_of_ne split.around (by simp))
    refine (List.suffix_cons_iff.1 suffix).imp_left fun here => ?_
    obtain ⟨rfl, rfl⟩ := List.cons.inj here
    exact fallsInto_of_ne split.onward (by simp)

omit [Wide ι] in
theorem head?_flatMap
    (rewritten : ∀ block ∈ order, Rewritten pad blank blocks result.blocks far block (parts block)) :
    (order.flatMap parts).head? = order.head? := by
  cases order with
  | nil => rfl
  | cons first rest =>
    obtain ⟨⟨others, here⟩, -⟩ := (rewritten first List.mem_cons_self).head
    rw [List.flatMap_cons, here]
    rfl

omit [Wide ι] in
theorem follows_flatMap
    (rewritten : ∀ block ∈ order, Rewritten pad blank blocks result.blocks far block (parts block))
    (follows : ∀ block rest, block :: rest <:+ order → FallsInto blocks block rest) :
    ∀ block rest, block :: rest <:+ order.flatMap parts → FallsInto result.blocks block rest := by
  induction order with
  | nil => exact fun block rest suffix => absurd (List.suffix_nil.1 suffix) (List.cons_ne_nil _ _)
  | cons first order ih =>
    intro block rest suffix
    have later := fun block placed => rewritten block (List.mem_cons_of_mem first placed)
    rw [List.flatMap_cons] at suffix
    rcases (rewritten first List.mem_cons_self).follows (follows first order (List.suffix_refl _))
      (head?_flatMap later) suffix with falls | suffix
    · exact falls
    · exact ih later (fun block rest inside => follows block rest
        (inside.trans (List.suffix_cons first order))) block rest suffix

omit [Wide ι] in
theorem Complete.next_mem (complete : Complete blocks order) (placed : block ∈ order)
    {code : Block φ ι} {condition : Condition} {target next : Nat}
    (there : blocks[block]? = some code)
    (branch : code.branch = .conditional condition target next) : next ∈ order := by
  obtain ⟨front, rest, split⟩ := List.append_of_mem placed
  have suffix : block :: rest <:+ order := ⟨front, split.symm⟩
  have head := complete.follows block rest suffix code condition target next there branch
  exact suffix.subset (List.mem_cons_of_mem _ (List.mem_of_mem_head? head))

omit [Wide ι] in
/-- What the parts of a rewritten block jump to is laid out if its targets, the
block that it falls into and its parts are. -/
theorem Rewritten.placed {part laid : List Nat}
    (rewritten : Rewritten pad blank blocks result.blocks far block part)
    (targets : ∀ code, blocks[block]? = some code → ∀ target ∈ code.branch.targets, target ∈ laid)
    (falls : ∀ code condition target next, blocks[block]? = some code →
      code.branch = .conditional condition target next → next ∈ laid)
    (contained : part ⊆ laid) {other target : Nat} {now : Block φ ι} (member : other ∈ part)
    (found : result.blocks[other]? = some now) (isTarget : target ∈ now.branch.targets) :
    target ∈ laid := by
  cases rewritten.partOf member found with
  | kept before => exact targets _ before target isTarget
  | goto before branch | jsr before branch => exact targets _ before target (branch ▸ isTarget)
  | conditional before branch =>
    obtain rfl := List.mem_singleton.1 isTarget
    exact contained (by simp)
  | around before branch =>
    obtain rfl := List.mem_singleton.1 isTarget
    exact falls _ _ _ _ before branch
  | onward before branch =>
    obtain rfl := List.mem_singleton.1 isTarget
    exact targets _ before _ (branch ▸ List.mem_singleton_self _)

omit [Wide ι] in
theorem Rewritten.filter_old {part : List Nat}
    (rewritten : Rewritten pad blank blocks result.blocks far block part)
    (inside : block < blocks.size) : part.filter (· < blocks.size) = [block] := by
  cases rewritten with
  | kept | goto | jsr => simp [inside]
  | split before branch fresh split widened =>
    have above : ¬ _ < blocks.size := Nat.not_lt.2 fresh
    simp [inside]
    omega

omit [Wide ι] in
/-- The old blocks are laid out as before. -/
theorem filter_old_flatMap (inside : ∀ block ∈ order, block < blocks.size)
    (rewritten : ∀ block ∈ order, Rewritten pad blank blocks result.blocks far block (parts block)) :
    (order.flatMap parts).filter (· < blocks.size) = order := by
  rw [List.filter_flatMap]
  refine (List.flatMap_congr fun block placed => ?_).trans (List.flatMap_singleton' order)
  exact (rewritten block placed).filter_old (inside block placed)

omit [Wide ι] in
theorem Complete.rewritten (complete : Complete blocks order)
    (order_eq : result.order = order.flatMap parts)
    (rewritten : ∀ block ∈ order, Rewritten pad blank blocks result.blocks far block (parts block)) :
    Complete result.blocks result.order := by
  have contained : ∀ block ∈ order, parts block ⊆ result.order := by
    intro block placed other member
    rw [order_eq]
    exact List.mem_flatMap_of_mem placed member
  have kept : order ⊆ result.order := by
    intro block placed
    obtain ⟨⟨rest, here⟩, -⟩ := (rewritten block placed).head
    exact contained block placed (here ▸ List.mem_cons_self)
  constructor
  case inside =>
    intro other placed
    rw [order_eq] at placed
    obtain ⟨block, inOrder, member⟩ := List.mem_flatMap.1 placed
    exact (rewritten block inOrder).inside member
  case placed =>
    intro other placed now found target isTarget
    rw [order_eq] at placed
    obtain ⟨block, inOrder, member⟩ := List.mem_flatMap.1 placed
    exact (rewritten block inOrder).placed
      (fun code there target isTarget => kept (complete.placed block inOrder code there target isTarget))
      (fun code condition target next there branch => kept (complete.next_mem inOrder there branch))
      (contained block inOrder) member found isTarget
  case follows =>
    rw [order_eq]
    exact follows_flatMap rewritten complete.follows

/-! ## Where blocks start -/

/-- A rewritten block starts where its parts do, and the others are new. -/
theorem Rewritten.filter_startsFrom {part : List Nat}
    (rewritten : Rewritten pad blank blocks result.blocks far block part)
    (inside : block < blocks.size) (offset : Nat) :
    (Layout.startsFrom result.blocks offset part).filter (fun start => start.1 < blocks.size) =
      [(block, offset)] := by
  cases rewritten with
  | kept before after near => simp [Layout.startsFrom, inside]
  | goto before branch after widened => simp [Layout.startsFrom, inside]
  | jsr before branch after widened => simp [Layout.startsFrom, inside]
  | split before branch fresh split widened =>
    have above : ¬ _ < blocks.size := Nat.not_lt.2 fresh
    simp [Layout.startsFrom, inside]
    omega

omit [Wide ι] in
/-- Blocks without a short branch stay as they are. -/
theorem Rewritten.kept_of_long {blocks' : Array (Block φ ι)} {part : List Nat}
    (rewritten : Rewritten pad blank blocks blocks' far block part) {code : Block φ ι}
    (there : blocks[block]? = some code) (long : shortTarget? code.branch = none) :
    part = [block] ∧ blocks'[block]? = some code := by
  cases rewritten with
  | kept before after near => exact ⟨rfl, after.trans (before.symm.trans there)⟩
  | goto before branch after widened =>
    obtain rfl := Option.some.inj (before.symm.trans there)
    rw [branch] at long
    cases long
  | jsr before branch after widened =>
    obtain rfl := Option.some.inj (before.symm.trans there)
    rw [branch] at long
    cases long
  | split before branch fresh split widened =>
    obtain rfl := Option.some.inj (before.symm.trans there)
    rw [branch] at long
    cases long

theorem shortTarget?_of_padding {branch : Branch Nat Nat Nat} {padding : Nat}
    (switches : branch.padding? = some padding) : shortTarget? branch = none := by
  cases branch <;> first | rfl | cases switches

theorem Aligned.add_words {code : Block φ ι} {start : Nat} (aligned : Aligned code start)
    (words : Nat) : Aligned code (start + 4 * words) := by
  intro padding switches
  have before := aligned padding switches
  omega

/-- Blocks move by what the ones before them have grown by, from the first one
on. -/
theorem moved_startsFrom (onePad : Wide.width pad = 1)
    (inside : ∀ block ∈ order, block < blocks.size)
    (rewritten : ∀ block ∈ order, Rewritten pad blank blocks result.blocks far block (parts block))
    (offset words : Nat) :
    List.Forall₂ (Moved blocks result.blocks) (Layout.startsFrom blocks offset order)
      ((Layout.startsFrom result.blocks (offset + 4 * words) (order.flatMap parts)).filter
        fun start => start.1 < blocks.size) := by
  induction order generalizing offset words with
  | nil => exact .nil
  | cons block order ih =>
    have here := rewritten block List.mem_cons_self
    obtain ⟨more, growth⟩ : ∃ more, grownWidth blocks far block =
        Layout.blockWidth blocks block + 4 * more := by
      rw [grownWidth]
      split_ifs
      · obtain ⟨more, growth⟩ := four_dvd_growthOf blocks block
        exact ⟨more, by rw [growth]⟩
      · exact ⟨0, rfl⟩
    have next : offset + 4 * words + ((parts block).map (Layout.blockWidth result.blocks)).sum =
        offset + Layout.blockWidth blocks block + 4 * (words + more) := by
      rw [here.width onePad, growth]
      omega
    rw [Layout.startsFrom, List.flatMap_cons, Layout.startsFrom_append, List.filter_append,
      here.filter_startsFrom (inside block List.mem_cons_self), next]
    refine .cons ⟨rfl, ⟨words, rfl⟩, fun code padding there switches => ?_⟩
      (ih (fun other placed => inside other (List.mem_cons_of_mem _ placed))
        (fun other placed => rewritten other (List.mem_cons_of_mem _ placed)) _ _)
    exact ⟨(here.kept_of_long there (shortTarget?_of_padding switches)).2,
      fun aligned => aligned.add_words words⟩

/-! ## The whole layout -/

omit [Wide ι] in
/-- A layout without repeated blocks is complete if it has all targets. -/
theorem Plain.complete (plain : Plain blocks order) : Complete blocks order where
  inside := plain.inside
  placed := plain.placed
  follows := by
    rintro block rest ⟨front, split⟩ code condition target next there branch
    have placed : block ∈ order := by
      rw [← split]
      exact List.mem_append_right _ List.mem_cons_self
    obtain ⟨front', back, split'⟩ :=
      plain.follows block placed code there condition target next branch
    have length := Layout.idxOf_append_cons (split ▸ plain.distinct)
    rw [split, split', Layout.idxOf_append_cons (split' ▸ plain.distinct)] at length
    obtain ⟨-, same⟩ := List.append_inj (split.trans split') length.symm
    rw [(List.cons.inj same).2]
    rfl

/-- A layout that keeps what it did cannot have had a conditional branch out of range
from the start in two places, because its blocks would be missing. -/
theorem Faithful.splitOnce
    (faithful : Faithful pad blocks order (widen range pad blank blocks order)) :
    SplitOnce range blocks order :=
  splitOnce_of_inside faithful.complete.inside

/-- In every complete layout and for every range, widened code goes where it went, and
every block that was there stays and moves by whole words.  No block has to be placed
only once, but for those whose conditional branch is out of range from the start. -/
theorem widen_faithful (complete : Complete blocks order) (once : SplitOnce range blocks order)
    (onePad : Wide.width pad = 1) (blank : φ) :
    Faithful pad blocks order (widen range pad blank blocks order) := by
  obtain ⟨parts, order_eq, rewritten⟩ : ∃ parts,
      (widen range pad blank blocks order).order = order.flatMap parts ∧
      ∀ block ∈ order, Rewritten pad blank blocks (widen range pad blank blocks order).blocks
        ((chosenJumps range blocks order).map Jump.block).toFinset block (parts block) := by
    rw [widen_eq_chosen once]
    refine ⟨_, rfl, fun block placed => ?_⟩
    refine (chosen_chosenJumps range blocks order).rewritten complete.inside ?_ placed
    intro block placed code there target unconditional short
    exact complete.inside target
      (complete.placed block placed code there target (mem_targets_of_short short))
  have moved := moved_startsFrom onePad complete.inside rewritten 0 0
  rw [← order_eq] at moved
  constructor
  case complete => exact complete.rewritten order_eq rewritten
  case inOrder =>
    rw [order_eq]
    exact filter_old_flatMap complete.inside rewritten
  case moved => exact moved
  case carried =>
    intro block placed code there
    refine (rewritten block placed).carried ?_ there
    rw [order_eq]
    exact fun _ member => List.mem_flatMap_of_mem placed member

theorem widen_faithful_loop :
    Faithful 1 loop [0, 1, 2] (widen ⟨-8, 8⟩ 1 () loop [0, 1, 2]) := by
  refine widen_faithful ⟨by decide, ?_, ?_⟩ (splitOnce_of_nodup ⟨-8, 8⟩ loop (by decide)) rfl ()
  · intro block placed code there target
    fin_cases placed <;> obtain rfl := Option.some.inj there <;> decide +revert
  · intro block rest suffix code condition target next there branch
    rcases List.suffix_cons_iff.1 suffix with here | suffix
    · obtain ⟨rfl, rfl⟩ := List.cons.inj here
      obtain rfl := Option.some.inj there
      obtain ⟨-, -, rfl⟩ := Branch.conditional.inj branch
      rfl
    rcases List.suffix_cons_iff.1 suffix with here | suffix
    · obtain ⟨rfl, -⟩ := List.cons.inj here
      obtain rfl := Option.some.inj there
      cases branch
    rcases List.suffix_cons_iff.1 suffix with here | suffix
    · obtain ⟨rfl, -⟩ := List.cons.inj here
      obtain rfl := Option.some.inj there
      cases branch
    · exact absurd (List.suffix_nil.1 suffix) (List.cons_ne_nil _ _)

end

end Widening
end ClassFile
