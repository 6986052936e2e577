import ClassFile.Proofs.Graph.Linking

namespace ClassFile

/-!
# What cutting code fails for

If no label is placed twice, cutting items into blocks can only fail for two reasons.  Code
calls a subroutine where it must not, which is found while the items are cut, or a label
that is used is never placed, which is found when labels are resolved.
-/

open FailsOnly

/-! ## Renaming fails for what names fail for -/

section

variable {kind : Fault → Prop} {site : Nat → Except Fault Nat}

theorem Branch.failsOnly_mapM {σ σ' ω ω' ν ν' : Type} {short : σ → Except Fault σ'}
    {wide : ω → Except Fault ω'} {next : ν → Except Fault ν'}
    (shorts : ∀ target, FailsOnly kind (short target)) (wides : ∀ target, FailsOnly kind (wide target))
    (nexts : ∀ after, FailsOnly kind (next after)) (branch : Branch σ ω ν) :
    FailsOnly kind (branch.mapM short wide next) := by
  cases branch with
  | conditional condition target after | jsr target after =>
    exact (shorts target).bind fun _ _ => (nexts after).bind fun _ _ => ok _
  | jsrWide target after => exact (wides target).bind fun _ _ => (nexts after).bind fun _ _ => ok _
  | goto target => exact (shorts target).bind fun _ _ => ok _
  | gotoWide target => exact (wides target).bind fun _ _ => ok _
  | tableSwitch padding otherwise low targets =>
    exact (wides otherwise).bind fun _ _ => (FailsOnly.mapM wides targets).bind fun _ _ => ok _
  | lookupSwitch padding otherwise pairs =>
    refine (wides otherwise).bind fun _ _ => FailsOnly.bind ?_ fun _ _ => ok _
    exact FailsOnly.mapM (fun pair => (wides pair.2).bind fun _ _ => ok _) pairs
  | fallThrough after => exact (nexts after).bind fun _ _ => ok _
  | ret | returns | throws | stop => exact ok _

theorem VerificationType.failsOnly_mapM (sites : ∀ label, FailsOnly kind (site label))
    (type : BlockType) : FailsOnly kind (type.mapM pure site) := by
  cases type with
  | uninitialized label => exact (sites label).bind fun _ _ => ok _
  | _ => exact ok _

theorem Frame.failsOnly_mapM (sites : ∀ label, FailsOnly kind (site label)) (frame : BlockFrame) :
    FailsOnly kind (frame.mapM pure site) := by
  have types := VerificationType.failsOnly_mapM sites
  exact (FailsOnly.mapM types _).bind fun _ _ => (FailsOnly.mapM types _).bind fun _ _ => ok _

end

namespace FlowGraph

variable {items : List Item} {handlers : List Handler} {subroutines : Bool} {drafts : Drafts}
  {labels : Std.HashMap Nat Nat}

/-- Code calls subroutines and must not. -/
def Forbidden (items : List Item) (subroutines : Bool) : Prop :=
  subroutines = false ∧ ∃ branch, .branch branch ∈ items ∧ branch.isSubroutine = true

/-- What cutting may fail for where no label is placed twice: subroutines where there are any that
must not be called, and else a label that is never placed. -/
def Unlinkable (items : List Item) (subroutines : Bool) (fault : Fault) : Prop :=
  (Forbidden items subroutines ∧ fault = .subroutineWithFrames) ∨
    (¬Forbidden items subroutines ∧ ∃ label, fault = .undefinedLabel label ∧ .label label ∉ items)

/-! ## While items are cut -/

theorem Drafts.failsOnly_add {item : Item}
    (fresh : ∀ label, item.label? = some label → label ∉ drafts.labels) :
    FailsOnly (· = .subroutineWithFrames) (drafts.add subroutines item) := by
  cases item with
  | label label =>
    have unplaced := fresh label rfl
    rw [← labels_split] at unplaced
    rw [add, addLabel, if_neg unplaced]
    exact ok _
  | frame | instruction => exact ok _
  | branch branch =>
    rw [add]
    split
    · exact error rfl
    · exact ok _

theorem Drafts.failsOnly_addAll (once : (items.filterMap Item.label?).Nodup)
    (fresh : ∀ label ∈ items.filterMap Item.label?, label ∉ drafts.labels) :
    FailsOnly (· = .subroutineWithFrames) (items.foldlM (add subroutines) drafts) := by
  induction items generalizing drafts with
  | nil => exact ok _
  | cons item items ih =>
    have here : ∀ label, item.label? = some label → label ∉ drafts.labels := by
      intro label named
      apply fresh
      rw [List.filterMap_cons_some named]
      exact List.mem_cons_self
    rw [List.foldlM_cons]
    refine (failsOnly_add here).bind fun middle run => ?_
    cases named : item.label? with
    | none =>
      rw [List.filterMap_cons_none named] at once fresh
      refine ih once fun label member placed => fresh label member ?_
      exact ((mem_add_iff run).1 placed).resolve_right (by simp [named])
    | some label =>
      rw [List.filterMap_cons_some named, List.nodup_cons] at once
      rw [List.filterMap_cons_some named] at fresh
      refine ih once.2 fun other member placed => ?_
      rcases (mem_add_iff run).1 placed with before | same
      · exact fresh other (List.mem_cons_of_mem _ member) before
      · rw [named] at same
        cases same
        exact once.1 member

/-! ## While labels are resolved -/

/-- A label was used and not placed. -/
def Undefined (labels : Std.HashMap Nat Nat) (fault : Fault) : Prop :=
  ∃ label, fault = .undefinedLabel label ∧ label ∉ labels

theorem failsOnly_resolve (label : Nat) : FailsOnly (Undefined labels) (resolve labels label) := by
  rw [resolve]
  split
  · exact ok _
  · next unknown =>
    refine error ⟨label, rfl, fun placed => ?_⟩
    rw [Std.HashMap.mem_iff_isSome_getElem?, unknown] at placed
    cases placed

theorem failsOnly_resolveDraft (draft : Draft) (next : Nat) (isLast : Bool) :
    FailsOnly (Undefined labels) (draft.resolve labels next isLast) := by
  have framed : FailsOnly (Undefined labels)
      (draft.frame.mapM fun frame => frame.mapM pure (resolve labels)) :=
    FailsOnly.mapMOption (Frame.failsOnly_mapM failsOnly_resolve) draft.frame
  rw [Draft.resolve]
  split
  · exact (Branch.failsOnly_mapM failsOnly_resolve failsOnly_resolve (fun _ => ok next) _).bind fun _ _ =>
      framed.bind fun _ _ => ok _
  · exact (ok _).bind fun _ _ => framed.bind fun _ _ => ok _

theorem failsOnly_resolveHandler (handler : Handler) :
    FailsOnly (Undefined labels) (resolveHandler labels handler) :=
  (failsOnly_resolve _).bind fun _ _ => (failsOnly_resolve _).bind fun _ _ =>
    (failsOnly_resolve _).bind fun _ _ => ok _

theorem failsOnly_ofItems (once : (items.filterMap Item.label?).Nodup) :
    FailsOnly (Unlinkable items subroutines) (ofItems items handlers subroutines) := by
  have plain_iff : (subroutines = false → ∀ branch, .branch branch ∈ items →
      branch.isSubroutine = false) ↔ ¬Forbidden items subroutines := by
    simp only [Forbidden, not_and, not_exists, Bool.not_eq_true]
  by_cases forbidden : Forbidden items subroutines
  · refine FailsOnly.bind (FailsOnly.bind ?_ fun _ _ => ok _) fun drafts cut => ?_
    · exact (Drafts.failsOnly_addAll once fun _ _ => Std.HashMap.not_mem_empty).mono
        fun fault same => .inl ⟨forbidden, same⟩
    · exact absurd forbidden (plain_iff.1 (Drafts.exists_ofItems_iff.1 ⟨drafts, cut⟩).2)
  · rcases Drafts.exists_ofItems_iff.2 ⟨once, plain_iff.2 forbidden⟩ with ⟨drafts, cut⟩
    refine FailsOnly.bind (cut ▸ ok drafts) fun other run => ?_
    cases cut.symm.trans run
    refine FailsOnly.mono (?_ : FailsOnly (Undefined drafts.labels) _) ?_
    · refine FailsOnly.bind ?_ fun _ _ => FailsOnly.bind ?_ fun _ _ => ok _
      · exact FailsOnly.mapM (fun _ => failsOnly_resolveDraft _ _ _) _
      · exact FailsOnly.mapM failsOnly_resolveHandler _
    · rintro fault ⟨label, same, unplaced⟩
      rw [mem_labels_iff cut] at unplaced
      exact .inr ⟨forbidden, label, same, unplaced⟩

end FlowGraph
end ClassFile
