import ClassFile.Code.BranchEncoding
import ClassFile.Proofs.Success

namespace ClassFile
namespace Branch

/-!
# Branches with renamed targets

Renaming the targets of a branch leaves everything else of it as it is.  Here the
two branches are related target by target, so that what is said of single targets
carries over to all that a branch has.
-/

variable {σ ω ν σ' ω' ν' : Type}

/-- The targets that are encoded in 16 bits. -/
def shorts : Branch σ ω ν → List σ
  | conditional _ target _ | goto target | jsr target _ => [target]
  | _ => []

/-- The targets that are encoded in 32 bits. -/
def wides : Branch σ ω ν → List ω
  | gotoWide target | jsrWide target _ => [target]
  | tableSwitch _ otherwise _ targets => otherwise :: targets
  | lookupSwitch _ otherwise targets => otherwise :: targets.map Prod.snd
  | _ => []

theorem targets_eq (branch : Branch σ σ ν) : branch.targets = branch.shorts ++ branch.wides := by
  cases branch <;> rfl

/-- Two branches are the same but for their targets, which are related. -/
inductive Renamed (short : σ → σ' → Prop) (wide : ω → ω' → Prop) (next : ν → ν' → Prop) :
    Branch σ ω ν → Branch σ' ω' ν' → Prop
  | conditional (condition : Condition) {target : σ} {target' : σ'} {after : ν} {after' : ν'}
      (taken : short target target') (otherwise : next after after') :
      Renamed short wide next (.conditional condition target after)
        (.conditional condition target' after')
  | goto {target : σ} {target' : σ'} (taken : short target target') :
      Renamed short wide next (.goto target) (.goto target')
  | gotoWide {target : ω} {target' : ω'} (taken : wide target target') :
      Renamed short wide next (.gotoWide target) (.gotoWide target')
  | jsr {target : σ} {target' : σ'} {after : ν} {after' : ν'} (taken : short target target')
      (back : next after after') : Renamed short wide next (.jsr target after) (.jsr target' after')
  | jsrWide {target : ω} {target' : ω'} {after : ν} {after' : ν'} (taken : wide target target')
      (back : next after after') :
      Renamed short wide next (.jsrWide target after) (.jsrWide target' after')
  | ret (slot : UInt16) : Renamed short wide next (.ret slot) (.ret slot)
  | tableSwitch (padding : Nat) {otherwise : ω} {otherwise' : ω'} (low : Int32) {targets : List ω}
      {targets' : List ω'} (default_ : wide otherwise otherwise')
      (taken : List.Forall₂ wide targets targets') :
      Renamed short wide next (.tableSwitch padding otherwise low targets)
        (.tableSwitch padding otherwise' low targets')
  | lookupSwitch (padding : Nat) {otherwise : ω} {otherwise' : ω'} {targets : List (Int32 × ω)}
      {targets' : List (Int32 × ω')} (default_ : wide otherwise otherwise')
      (taken : List.Forall₂ (fun pair pair' => pair.1 = pair'.1 ∧ wide pair.2 pair'.2) targets
        targets') :
      Renamed short wide next (.lookupSwitch padding otherwise targets)
        (.lookupSwitch padding otherwise' targets')
  | returns (kind : Option ValueKind) : Renamed short wide next (.returns kind) (.returns kind)
  | throws : Renamed short wide next .throws .throws
  | fallThrough {after : ν} {after' : ν'} (into : next after after') :
      Renamed short wide next (.fallThrough after) (.fallThrough after')
  | stop : Renamed short wide next .stop .stop

/-- A renaming that succeeds relates each target to what it was renamed to. -/
theorem renamed_of_mapM {ε : Type} {short : σ → Except ε σ'} {wide : ω → Except ε ω'}
    {next : ν → Except ε ν'} {branch : Branch σ ω ν} {renamed : Branch σ' ω' ν'}
    (run : branch.mapM short wide next = .ok renamed) :
    Renamed (fun target target' => short target = .ok target')
      (fun target target' => wide target = .ok target')
      (fun after after' => next after = .ok after') branch renamed := by
  cases branch with
  | conditional condition target after =>
    obtain ⟨target', taken, run⟩ := bind_eq_ok.1 run
    obtain ⟨after', otherwise, same⟩ := bind_eq_ok.1 run
    obtain rfl := pure_eq_ok.1 same
    exact .conditional condition taken otherwise
  | goto target =>
    obtain ⟨target', taken, same⟩ := bind_eq_ok.1 run
    obtain rfl := pure_eq_ok.1 same
    exact .goto taken
  | gotoWide target =>
    obtain ⟨target', taken, same⟩ := bind_eq_ok.1 run
    obtain rfl := pure_eq_ok.1 same
    exact .gotoWide taken
  | jsr target after =>
    obtain ⟨target', taken, run⟩ := bind_eq_ok.1 run
    obtain ⟨after', back, same⟩ := bind_eq_ok.1 run
    obtain rfl := pure_eq_ok.1 same
    exact .jsr taken back
  | jsrWide target after =>
    obtain ⟨target', taken, run⟩ := bind_eq_ok.1 run
    obtain ⟨after', back, same⟩ := bind_eq_ok.1 run
    obtain rfl := pure_eq_ok.1 same
    exact .jsrWide taken back
  | ret slot =>
    obtain rfl := pure_eq_ok.1 run
    exact .ret slot
  | tableSwitch padding otherwise low targets =>
    obtain ⟨otherwise', default_, run⟩ := bind_eq_ok.1 run
    obtain ⟨targets', taken, same⟩ := bind_eq_ok.1 run
    obtain rfl := pure_eq_ok.1 same
    exact .tableSwitch padding low default_ (mapM_eq_ok.1 taken)
  | lookupSwitch padding otherwise targets =>
    obtain ⟨otherwise', default_, run⟩ := bind_eq_ok.1 run
    obtain ⟨targets', taken, same⟩ := bind_eq_ok.1 run
    obtain rfl := pure_eq_ok.1 same
    refine .lookupSwitch padding default_ ((mapM_eq_ok.1 taken).imp fun pair pair' here => ?_)
    obtain ⟨target', there, same⟩ := bind_eq_ok.1 here
    obtain rfl := pure_eq_ok.1 same
    exact ⟨rfl, there⟩
  | returns kind =>
    obtain rfl := pure_eq_ok.1 run
    exact .returns kind
  | throws =>
    obtain rfl := pure_eq_ok.1 run
    exact .throws
  | fallThrough after =>
    obtain ⟨after', into, same⟩ := bind_eq_ok.1 run
    obtain rfl := pure_eq_ok.1 same
    exact .fallThrough into
  | stop =>
    obtain rfl := pure_eq_ok.1 run
    exact .stop

namespace Renamed

theorem mono {short short' : σ → σ' → Prop} {wide wide' : ω → ω' → Prop} {next next' : ν → ν' → Prop}
    {branch : Branch σ ω ν} {renamed : Branch σ' ω' ν'}
    (same : Renamed short wide next branch renamed)
    (onShort : ∀ target target', short target target' → short' target target')
    (onWide : ∀ target target', wide target target' → wide' target target')
    (onNext : ∀ after after', next after after' → next' after after') :
    Renamed short' wide' next' branch renamed := by
  cases same with
  | conditional condition taken otherwise =>
    exact .conditional condition (onShort _ _ taken) (onNext _ _ otherwise)
  | goto taken => exact .goto (onShort _ _ taken)
  | gotoWide taken => exact .gotoWide (onWide _ _ taken)
  | jsr taken back => exact .jsr (onShort _ _ taken) (onNext _ _ back)
  | jsrWide taken back => exact .jsrWide (onWide _ _ taken) (onNext _ _ back)
  | ret slot => exact .ret slot
  | tableSwitch padding low default_ taken =>
    exact .tableSwitch padding low (onWide _ _ default_) (taken.imp onWide)
  | lookupSwitch padding default_ taken =>
    exact .lookupSwitch padding (onWide _ _ default_)
      (taken.imp fun _ _ pair => ⟨pair.1, onWide _ _ pair.2⟩)
  | returns kind => exact .returns kind
  | throws => exact .throws
  | fallThrough into => exact .fallThrough (onNext _ _ into)
  | stop => exact .stop

theorem shorts {short : σ → σ' → Prop} {wide : ω → ω' → Prop} {next : ν → ν' → Prop}
    {branch : Branch σ ω ν} {renamed : Branch σ' ω' ν'}
    (same : Renamed short wide next branch renamed) :
    List.Forall₂ short branch.shorts renamed.shorts := by
  cases same with
  | conditional _ taken _ | goto taken | jsr taken _ => exact .cons taken .nil
  | _ => exact .nil

theorem wides {short : σ → σ' → Prop} {wide : ω → ω' → Prop} {next : ν → ν' → Prop}
    {branch : Branch σ ω ν} {renamed : Branch σ' ω' ν'}
    (same : Renamed short wide next branch renamed) :
    List.Forall₂ wide branch.wides renamed.wides := by
  cases same with
  | gotoWide taken | jsrWide taken _ => exact .cons taken .nil
  | tableSwitch padding low default_ taken => exact .cons default_ taken
  | lookupSwitch padding default_ taken =>
    refine .cons default_ ?_
    rw [List.forall₂_map_left_iff, List.forall₂_map_right_iff]
    exact taken.imp fun _ _ pair => pair.2
  | _ => exact .nil

theorem targets {short : σ → σ' → Prop} {next : ν → ν' → Prop} {branch : Branch σ σ ν}
    {renamed : Branch σ' σ' ν'} (same : Renamed short short next branch renamed) :
    List.Forall₂ short branch.targets renamed.targets := by
  rw [targets_eq, targets_eq]
  exact List.rel_append same.shorts same.wides

theorem next? {short : σ → σ' → Prop} {wide : ω → ω' → Prop} {next : ν → ν' → Prop}
    {branch : Branch σ ω ν} {renamed : Branch σ' ω' ν'}
    (same : Renamed short wide next branch renamed) :
    Option.Rel next branch.next? renamed.next? := by
  cases same with
  | conditional _ _ after | jsr _ after | jsrWide _ after | fallThrough after => exact .some after
  | goto | gotoWide | ret | tableSwitch | lookupSwitch | returns | throws | stop => exact .none

theorem flip {short : σ → σ' → Prop} {wide : ω → ω' → Prop} {next : ν → ν' → Prop}
    {branch : Branch σ ω ν} {renamed : Branch σ' ω' ν'}
    (same : Renamed short wide next branch renamed) :
    Renamed (fun target' target => short target target') (fun target' target => wide target target')
      (fun after' after => next after after') renamed branch := by
  cases same with
  | conditional condition taken otherwise => exact .conditional condition taken otherwise
  | goto taken => exact .goto taken
  | gotoWide taken => exact .gotoWide taken
  | jsr taken back => exact .jsr taken back
  | jsrWide taken back => exact .jsrWide taken back
  | ret slot => exact .ret slot
  | tableSwitch padding low default_ taken => exact .tableSwitch padding low default_ taken.flip
  | lookupSwitch padding default_ taken =>
    refine .lookupSwitch padding default_ (taken.flip.imp fun _ _ pair => ?_)
    exact ⟨pair.1.symm, pair.2⟩
  | returns kind => exact .returns kind
  | throws => exact .throws
  | fallThrough into => exact .fallThrough into
  | stop => exact .stop

/-- Branches that are both related to a third one. -/
theorem comp {σ'' ω'' ν'' : Type} {short : σ → σ' → Prop} {wide : ω → ω' → Prop}
    {next : ν → ν' → Prop} {short' : σ' → σ'' → Prop} {wide' : ω' → ω'' → Prop}
    {next' : ν' → ν'' → Prop} {branch : Branch σ ω ν} {between : Branch σ' ω' ν'}
    {renamed : Branch σ'' ω'' ν''} (first : Renamed short wide next branch between)
    (second : Renamed short' wide' next' between renamed) :
    Renamed (Relation.Comp short short') (Relation.Comp wide wide') (Relation.Comp next next')
      branch renamed := by
  cases first with
  | conditional condition taken otherwise =>
    cases second with
    | conditional _ taken' otherwise' =>
      exact .conditional condition ⟨_, taken, taken'⟩ ⟨_, otherwise, otherwise'⟩
  | goto taken => cases second with | goto taken' => exact .goto ⟨_, taken, taken'⟩
  | gotoWide taken => cases second with | gotoWide taken' => exact .gotoWide ⟨_, taken, taken'⟩
  | jsr taken back =>
    cases second with | jsr taken' back' => exact .jsr ⟨_, taken, taken'⟩ ⟨_, back, back'⟩
  | jsrWide taken back =>
    cases second with | jsrWide taken' back' => exact .jsrWide ⟨_, taken, taken'⟩ ⟨_, back, back'⟩
  | ret slot => cases second with | ret => exact .ret slot
  | tableSwitch padding low default_ taken =>
    cases second with
    | tableSwitch _ _ default' taken' =>
      exact .tableSwitch padding low ⟨_, default_, default'⟩ (forall₂_comp taken taken')
  | lookupSwitch padding default_ taken =>
    cases second with
    | lookupSwitch _ default' taken' =>
      refine .lookupSwitch padding ⟨_, default_, default'⟩ ((forall₂_comp taken taken').imp ?_)
      rintro pair pair'' ⟨pair', ⟨same, here⟩, same', there⟩
      exact ⟨same.trans same', pair'.2, here, there⟩
  | returns kind => cases second with | returns => exact .returns kind
  | throws => cases second with | throws => exact .throws
  | fallThrough into => cases second with | fallThrough into' => exact .fallThrough ⟨_, into, into'⟩
  | stop => cases second with | stop => exact .stop

theorem withPadding {short : σ → σ' → Prop} {wide : ω → ω' → Prop} {next : ν → ν' → Prop}
    {branch : Branch σ ω ν} {renamed : Branch σ' ω' ν'}
    (same : Renamed short wide next branch renamed) (padding : Nat) :
    Renamed short wide next (branch.withPadding padding) (renamed.withPadding padding) := by
  cases same with
  | tableSwitch _ low default_ taken => exact .tableSwitch padding low default_ taken
  | lookupSwitch _ default_ taken => exact .lookupSwitch padding default_ taken
  | conditional condition taken otherwise => exact .conditional condition taken otherwise
  | goto taken => exact .goto taken
  | gotoWide taken => exact .gotoWide taken
  | jsr taken back => exact .jsr taken back
  | jsrWide taken back => exact .jsrWide taken back
  | ret slot => exact .ret slot
  | returns kind => exact .returns kind
  | throws => exact .throws
  | fallThrough into => exact .fallThrough into
  | stop => exact .stop

theorem width {short : σ → σ' → Prop} {wide : ω → ω' → Prop} {next : ν → ν' → Prop}
    {branch : Branch σ ω ν} {renamed : Branch σ' ω' ν'}
    (same : Renamed short wide next branch renamed) : branch.width = renamed.width := by
  cases same with
  | tableSwitch padding low default_ taken => rw [Branch.width, Branch.width, taken.length_eq]
  | lookupSwitch padding default_ taken => rw [Branch.width, Branch.width, taken.length_eq]
  | _ => rfl

theorem opcode? {short : σ → σ' → Prop} {wide : ω → ω' → Prop} {next : ν → ν' → Prop}
    {branch : Branch σ ω ν} {renamed : Branch σ' ω' ν'}
    (same : Renamed short wide next branch renamed) : branch.opcode? = renamed.opcode? := by
  cases same with
  | returns kind => cases kind <;> rfl
  | _ => rfl

end Renamed

section

variable {ε : Type} {short : σ → Except ε σ'} {wide : ω → Except ε ω'} {next : ν → Except ε ν'}

theorem exists_mapM_of_forall {branch : Branch σ ω ν}
    (shorts : ∀ label ∈ branch.shorts, ∃ block, short label = .ok block)
    (wides : ∀ label ∈ branch.wides, ∃ block, wide label = .ok block)
    (goesOn : ∀ after, ∃ after', next after = .ok after') :
    ∃ renamed, branch.mapM short wide next = .ok renamed := by
  cases branch with
  | conditional condition label after | jsr label after =>
    rcases shorts label List.mem_cons_self with ⟨block, found⟩
    rcases goesOn after with ⟨after', further⟩
    exact ⟨_, bind_eq_ok.2 ⟨block, found, bind_eq_ok.2 ⟨after', further, rfl⟩⟩⟩
  | jsrWide label after =>
    rcases wides label List.mem_cons_self with ⟨block, found⟩
    rcases goesOn after with ⟨after', further⟩
    exact ⟨_, bind_eq_ok.2 ⟨block, found, bind_eq_ok.2 ⟨after', further, rfl⟩⟩⟩
  | goto label =>
    rcases shorts label List.mem_cons_self with ⟨block, found⟩
    exact ⟨_, bind_eq_ok.2 ⟨block, found, rfl⟩⟩
  | gotoWide label =>
    rcases wides label List.mem_cons_self with ⟨block, found⟩
    exact ⟨_, bind_eq_ok.2 ⟨block, found, rfl⟩⟩
  | tableSwitch padding otherwise low labels =>
    rw [Branch.wides, List.forall_mem_cons] at wides
    rcases wides.1 with ⟨block, found⟩
    rcases exists_mapM_eq_ok wides.2 with ⟨blocks, all⟩
    exact ⟨_, bind_eq_ok.2 ⟨block, found, bind_eq_ok.2 ⟨blocks, all, rfl⟩⟩⟩
  | lookupSwitch padding otherwise pairs =>
    rw [Branch.wides, List.forall_mem_cons, List.forall_mem_map] at wides
    rcases wides.1 with ⟨block, found⟩
    have each : ∀ pair ∈ pairs, ∃ pair', (do return (pair.1, ← wide pair.2)) = .ok pair' := by
      intro pair member
      rcases wides.2 pair member with ⟨block', found'⟩
      exact ⟨_, bind_eq_ok.2 ⟨block', found', rfl⟩⟩
    rcases exists_mapM_eq_ok each with ⟨blocks, all⟩
    exact ⟨_, bind_eq_ok.2 ⟨block, found, bind_eq_ok.2 ⟨blocks, all, rfl⟩⟩⟩
  | fallThrough after =>
    rcases goesOn after with ⟨after', further⟩
    exact ⟨_, bind_eq_ok.2 ⟨after', further, rfl⟩⟩
  | ret | returns | throws | stop => exact ⟨_, rfl⟩

end

/-- Renaming a branch succeeds where renaming each of its targets does. -/
theorem exists_mapM_iff {ε : Type} {target : σ → Except ε σ'} {next : ν → Except ε ν'}
    {branch : Branch σ σ ν} (goesOn : ∀ after, ∃ after', next after = .ok after') :
    (∃ renamed, branch.mapM target target next = .ok renamed) ↔
      ∀ label ∈ branch.targets, ∃ block, target label = .ok block := by
  constructor
  · rintro ⟨renamed, run⟩ label member
    rcases forall₂_mem (renamed_of_mapM run).targets.flip member with ⟨block, -, found⟩
    exact ⟨block, found⟩
  · intro known
    rw [targets_eq, List.forall_mem_append] at known
    exact exists_mapM_of_forall known.1 known.2 goesOn

/-! ## Renaming without failure -/

def map (short : σ → σ') (wide : ω → ω') (next : ν → ν') : Branch σ ω ν → Branch σ' ω' ν'
  | conditional condition target after => conditional condition (short target) (next after)
  | goto target => goto (short target)
  | gotoWide target => gotoWide (wide target)
  | jsr target after => jsr (short target) (next after)
  | jsrWide target after => jsrWide (wide target) (next after)
  | ret slot => ret slot
  | tableSwitch padding otherwise low targets =>
    tableSwitch padding (wide otherwise) low (targets.map wide)
  | lookupSwitch padding otherwise targets =>
    lookupSwitch padding (wide otherwise) (targets.map fun pair => (pair.1, wide pair.2))
  | returns kind => returns kind
  | throws => throws
  | fallThrough after => fallThrough (next after)
  | stop => stop

theorem renamed_map (short : σ → σ') (wide : ω → ω') (next : ν → ν') (branch : Branch σ ω ν) :
    Renamed (fun target target' => short target = target')
      (fun target target' => wide target = target') (fun after after' => next after = after')
      branch (branch.map short wide next) := by
  cases branch with
  | conditional condition target after => exact .conditional condition rfl rfl
  | goto target => exact .goto rfl
  | gotoWide target => exact .gotoWide rfl
  | jsr target after => exact .jsr rfl rfl
  | jsrWide target after => exact .jsrWide rfl rfl
  | ret slot => exact .ret slot
  | tableSwitch padding otherwise low targets =>
    refine .tableSwitch padding low rfl ?_
    rw [List.forall₂_map_right_iff]
    exact List.forall₂_same.2 fun _ _ => rfl
  | lookupSwitch padding otherwise targets =>
    refine .lookupSwitch padding rfl ?_
    rw [List.forall₂_map_right_iff]
    exact List.forall₂_same.2 fun _ _ => ⟨rfl, rfl⟩
  | returns kind => exact .returns kind
  | throws => exact .throws
  | fallThrough after => exact .fallThrough rfl
  | stop => exact .stop

end Branch
end ClassFile
