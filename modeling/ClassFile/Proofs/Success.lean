import Mathlib.Data.List.Forall2
import Mathlib.Logic.Relation

namespace ClassFile

/-!
# What success says about the steps

A computation that can fail has succeeded only if each of its steps has.  These
lemmas take a result apart into those of the steps, for single steps, for lists
and for folds.
-/

section

variable {ε α β : Type}

theorem bind_eq_ok {first : Except ε α} {next : α → Except ε β} {result : β} :
    (first >>= next) = .ok result ↔ ∃ value, first = .ok value ∧ next value = .ok result := by
  cases first with
  | ok value =>
    constructor
    · intro run
      exact ⟨value, rfl, run⟩
    · rintro ⟨_, same, run⟩
      cases same
      exact run
  | error fault =>
    constructor
    · intro run
      cases run
    · rintro ⟨_, same, -⟩
      cases same

theorem map_eq_ok {first : Except ε α} {change : α → β} {result : β} :
    change <$> first = .ok result ↔ ∃ value, first = .ok value ∧ change value = result := by
  cases first with
  | ok value =>
    constructor
    · intro run
      cases run
      exact ⟨value, rfl, rfl⟩
    · rintro ⟨_, same, rfl⟩
      cases same
      rfl
  | error fault =>
    constructor
    · intro run
      cases run
    · rintro ⟨_, same, -⟩
      cases same

theorem pure_eq_ok {value result : α} : (pure value : Except ε α) = .ok result ↔ value = result :=
  ⟨fun same => by cases same; rfl, fun same => by rw [same]; rfl⟩

/-- Every element of a list has been taken through. -/
theorem mapM_eq_ok {step : α → Except ε β} {values : List α} {results : List β} :
    values.mapM step = .ok results ↔
      List.Forall₂ (fun value result => step value = .ok result) values results := by
  induction values generalizing results with
  | nil =>
    rw [List.mapM_nil, pure_eq_ok, List.forall₂_nil_left_iff]
    exact eq_comm
  | cons value values ih =>
    rw [List.mapM_cons, bind_eq_ok, List.forall₂_cons_left_iff]
    constructor
    · rintro ⟨first, run, rest⟩
      obtain ⟨others, runs, same⟩ := bind_eq_ok.1 rest
      exact ⟨first, others, run, ih.1 runs, (pure_eq_ok.1 same).symm⟩
    · rintro ⟨first, others, run, runs, rfl⟩
      exact ⟨first, run, bind_eq_ok.2 ⟨others, ih.2 runs, rfl⟩⟩

/-- Where every element can be taken through, a list can. -/
theorem exists_mapM_eq_ok {step : α → Except ε β} {values : List α}
    (each : ∀ value ∈ values, ∃ result, step value = .ok result) :
    ∃ results, values.mapM step = .ok results := by
  induction values with
  | nil => exact ⟨[], rfl⟩
  | cons value values ih =>
    rw [List.forall_mem_cons] at each
    rcases each.1 with ⟨result, here⟩
    rcases ih each.2 with ⟨results, there⟩
    rw [List.mapM_cons]
    exact ⟨_, bind_eq_ok.mpr ⟨result, here, bind_eq_ok.mpr ⟨results, there, rfl⟩⟩⟩

/-- A list can be taken through just where every element can. -/
theorem exists_mapM_iff {step : α → Except ε β} {values : List α} :
    (∃ results, values.mapM step = .ok results) ↔
      ∀ value ∈ values, ∃ result, step value = .ok result := by
  constructor
  · rintro ⟨results, run⟩
    have each := mapM_eq_ok.1 run
    clear run
    induction each with
    | nil => exact List.forall_mem_nil _
    | cons here _ ih => exact List.forall_mem_cons.2 ⟨⟨_, here⟩, ih⟩
  · exact exists_mapM_eq_ok

/-- A result comes from the element at its place. -/
theorem forall₂_getElem? {holds : α → β → Prop} {values : List α} {results : List β}
    (each : List.Forall₂ holds values results) {place : Nat} {result : β}
    (found : results[place]? = some result) :
    ∃ value, values[place]? = some value ∧ holds value result := by
  induction each generalizing place with
  | nil => cases found
  | cons here rest ih =>
    cases place with
    | zero =>
      obtain rfl := Option.some.inj found
      exact ⟨_, rfl, here⟩
    | succ place =>
      obtain ⟨value, isValue, there⟩ := ih found
      exact ⟨value, isValue, there⟩

theorem forall₂_mem {holds : α → β → Prop} {values : List α} {results : List β}
    (each : List.Forall₂ holds values results) {result : β} (member : result ∈ results) :
    ∃ value ∈ values, holds value result := by
  obtain ⟨place, found⟩ := List.mem_iff_getElem?.1 member
  obtain ⟨value, isValue, here⟩ := forall₂_getElem? each found
  exact ⟨value, List.mem_of_getElem? isValue, here⟩

/-- Two relations along lists, one after the other. -/
theorem forall₂_comp {γ : Type} {first : α → β → Prop} {second : β → γ → Prop} {values : List α}
    {between : List β} {results : List γ} (each : List.Forall₂ first values between)
    (onward : List.Forall₂ second between results) :
    List.Forall₂ (Relation.Comp first second) values results := by
  induction each generalizing results with
  | nil =>
    cases onward
    exact .nil
  | cons here _ ih =>
    cases onward with
    | cons there rest => exact .cons ⟨_, here, there⟩ (ih rest)

theorem forall₂_of_zip_fst {γ : Type} {holds : α → γ → Prop} {firsts : List α} {seconds : List β}
    {results : List γ} (same : firsts.length = seconds.length)
    (each : List.Forall₂ (fun pair result => holds pair.1 result) (firsts.zip seconds) results) :
    List.Forall₂ holds firsts results :=
  List.map_fst_zip (Nat.le_of_eq same) ▸ List.forall₂_map_left_iff.2 each

theorem forall₂_of_zip_snd {γ : Type} {holds : β → γ → Prop} {firsts : List α} {seconds : List β}
    {results : List γ} (same : firsts.length = seconds.length)
    (each : List.Forall₂ (fun pair result => holds pair.2 result) (firsts.zip seconds) results) :
    List.Forall₂ holds seconds results :=
  List.map_snd_zip (Nat.le_of_eq same.symm) ▸ List.forall₂_map_left_iff.2 each

/-- Results for the elements of several lists fall into those for each list. -/
theorem forall₂_flatMap {γ : Type} {holds : β → γ → Prop} {parts : α → List β} {values : List α}
    {results : List γ} (each : List.Forall₂ holds (values.flatMap parts) results) :
    ∃ groups : List (List γ),
      List.Forall₂ (fun value group => List.Forall₂ holds (parts value) group) values groups ∧
        groups.flatten = results := by
  induction values generalizing results with
  | nil =>
    cases each
    exact ⟨[], .nil, rfl⟩
  | cons value values ih =>
    rw [List.flatMap_cons] at each
    rcases ih (List.forall₂_drop_append _ _ _ each.flip).flip with ⟨groups, rest, whole⟩
    refine ⟨_, .cons (List.forall₂_take_append _ _ _ each.flip).flip rest, ?_⟩
    rw [List.flatten_cons, whole, List.take_append_drop]

theorem optionRel_imp {holds weaker : α → β → Prop}
    (weaken : ∀ value result, holds value result → weaker value result) {value? : Option α}
    {result? : Option β} (rel : Option.Rel holds value? result?) :
    Option.Rel weaker value? result? := by
  cases rel with
  | none => exact .none
  | some known => exact .some (weaken _ _ known)

theorem option_mapM_eq_ok {step : α → Except ε β} {value? : Option α} {result? : Option β} :
    value?.mapM step = .ok result? ↔
      Option.Rel (fun value result => step value = .ok result) value? result? := by
  cases value? with
  | none =>
    rw [Option.mapM_none, pure_eq_ok]
    exact ⟨fun same => same ▸ .none, fun rel => by cases rel; rfl⟩
  | some value =>
    rw [Option.mapM_some, map_eq_ok]
    constructor
    · rintro ⟨result, run, rfl⟩
      exact .some run
    · intro rel
      cases rel with
      | some run => exact ⟨_, run, rfl⟩

/-- A fold over two lists goes through the state between them. -/
theorem foldlM_append_eq_ok {step : β → α → Except ε β} {front back : List α} {start stop : β} :
    (front ++ back).foldlM step start = .ok stop ↔
      ∃ middle, front.foldlM step start = .ok middle ∧ back.foldlM step middle = .ok stop := by
  rw [List.foldlM_append, bind_eq_ok]

theorem foldlM_cons_eq_ok {step : β → α → Except ε β} {value : α} {values : List α}
    {start stop : β} :
    (value :: values).foldlM step start = .ok stop ↔
      ∃ next, step start value = .ok next ∧ values.foldlM step next = .ok stop := by
  rw [List.foldlM_cons, bind_eq_ok]

/-- A step that changes nothing may be made any number of times. -/
theorem foldlM_replicate {m : Type → Type} [Monad m] [LawfulMonad m] {step : β → α → m β}
    {state : β} {value : α} (same : step state value = pure state) (count : Nat) :
    (List.replicate count value).foldlM step state = pure state := by
  induction count with
  | zero => rfl
  | succ count ih => rw [List.replicate_succ, List.foldlM_cons, same, pure_bind, ih]

theorem foldlM_range_succ (step : β → Nat → Except ε β) (start : β) (count : Nat) :
    (List.range (count + 1)).foldlM step start =
      (List.range count).foldlM step start >>= fun value => step value count := by
  rw [List.range_succ, List.foldlM_append]
  refine bind_congr fun value => ?_
  rw [List.foldlM_cons]
  exact bind_pure _

/-- What every step preserves, a fold preserves. -/
theorem foldlM_preserves {holds : β → Prop} {step : β → α → Except ε β} {values : List α}
    (preserves : ∀ value ∈ values, ∀ before after, holds before → step before value = .ok after →
      holds after) {start stop : β} (before : holds start)
    (run : values.foldlM step start = .ok stop) : holds stop := by
  induction values generalizing start with
  | nil =>
    rw [List.foldlM_nil, pure_eq_ok] at run
    exact run ▸ before
  | cons value values ih =>
    obtain ⟨next, first, rest⟩ := foldlM_cons_eq_ok.1 run
    exact ih (fun other member => preserves other (List.mem_cons_of_mem _ member))
      (preserves value List.mem_cons_self start next before first) rest

end

/-! ## Computations that end alike -/

/-- Two computations fail, or their values are related. -/
inductive EndsAlike {ε α β : Type} (related : α → β → Prop) : Except ε α → Except ε β → Prop
  | ok {value : α} {value' : β} (both : related value value') :
    EndsAlike related (.ok value) (.ok value')
  | error (fault fault' : ε) : EndsAlike related (.error fault) (.error fault')

namespace EndsAlike

variable {ε α β γ δ : Type} {related : α → β → Prop} {run : Except ε α} {run' : Except ε β}

theorem bind {onwards : γ → δ → Prop} {next : α → Except ε γ} {next' : β → Except ε δ}
    (alike : EndsAlike related run run')
    (onward : ∀ value value', related value value' → EndsAlike onwards (next value) (next' value')) :
    EndsAlike onwards (run >>= next) (run' >>= next') := by
  cases alike with
  | ok both => exact onward _ _ both
  | error fault fault' => exact .error fault fault'

theorem mono {weaker : α → β → Prop} (alike : EndsAlike related run run')
    (onward : ∀ value value', run = .ok value → run' = .ok value' → related value value' →
      weaker value value') : EndsAlike weaker run run' := by
  cases alike with
  | ok both => exact .ok (onward _ _ rfl rfl both)
  | error fault fault' => exact .error fault fault'

/-- One computation gives the values of another one in another form. -/
theorem iff_ok_iff {change : α → β} :
    EndsAlike (fun value value' => value' = change value) run run' ↔
      ∀ value', run' = .ok value' ↔ ∃ value, run = .ok value ∧ value' = change value := by
  constructor
  · intro alike
    cases alike with
    | ok both => simp [both, eq_comm]
    | error fault fault' => simp
  · intro runs
    cases run with
    | ok value =>
      rw [(runs _).2 ⟨value, rfl, rfl⟩]
      exact .ok rfl
    | error fault =>
      cases run' with
      | ok value' =>
        obtain ⟨_, same, -⟩ := (runs value').1 rfl
        cases same
      | error fault' => exact .error fault fault'

theorem of_iff {run run' : Except ε α} (runs : ∀ value, run' = .ok value ↔ run = .ok value) :
    EndsAlike (fun value value' => value' = value) run run' :=
  iff_ok_iff.2 fun value => by simp only [runs, exists_eq_right']

end EndsAlike

/-! ## Computations that change a state -/

section

variable {ε σ α β : Type} {before after : σ}

theorem run_bind_eq_ok {first : ExceptT ε (StateM σ) α} {next : α → ExceptT ε (StateM σ) β}
    {result : β} :
    (first >>= next).run before = (.ok result, after) ↔
      ∃ value between, first.run before = (.ok value, between) ∧
        (next value).run between = (.ok result, after) := by
  have unfolded : (first >>= next).run before =
      (ExceptT.bindCont next (first.run before).1) (first.run before).2 := rfl
  rw [unfolded]
  rcases first.run before with ⟨value | value, between⟩
  · constructor
    · intro run
      cases run
    · rintro ⟨_, _, same, -⟩
      cases same
  · constructor
    · intro run
      exact ⟨value, between, rfl, run⟩
    · rintro ⟨_, _, same, run⟩
      cases same
      exact run

/-- A computation goes on after a step that succeeds. -/
theorem run_bind_of_ok {first : ExceptT ε (StateM σ) α} {next : α → ExceptT ε (StateM σ) β}
    {value : α} (run : first.run before = (.ok value, after)) :
    (first >>= next).run before = (next value).run after := by
  have unfolded : (first >>= next).run before =
      (ExceptT.bindCont next (first.run before).1) (first.run before).2 := rfl
  rw [unfolded, run]
  rfl

/-- It ends with the first step that fails. -/
theorem run_bind_of_error {first : ExceptT ε (StateM σ) α} {next : α → ExceptT ε (StateM σ) β}
    {fault : ε} (run : first.run before = (.error fault, after)) :
    (first >>= next).run before = (.error fault, after) := by
  have unfolded : (first >>= next).run before =
      (ExceptT.bindCont next (first.run before).1) (first.run before).2 := rfl
  rw [unfolded, run]
  rfl

theorem run_pure_eq_ok {value result : α} :
    (pure value : ExceptT ε (StateM σ) α).run before = (.ok result, after) ↔
      value = result ∧ before = after := by
  constructor
  · intro run
    cases run
    exact ⟨rfl, rfl⟩
  · rintro ⟨rfl, rfl⟩
    rfl

theorem run_lift_eq_ok {value : Except ε α} {result : α} :
    (liftM value : ExceptT ε (StateM σ) α).run before = (.ok result, after) ↔
      value = .ok result ∧ before = after := by
  cases value with
  | ok value =>
    constructor
    · intro run
      cases run
      exact ⟨rfl, rfl⟩
    · rintro ⟨same, rfl⟩
      cases same
      rfl
  | error fault =>
    constructor
    · intro run
      cases run
    · rintro ⟨same, -⟩
      cases same

theorem run_lift (value : Except ε α) :
    (liftM value : ExceptT ε (StateM σ) α).run before = (value, before) := by
  cases value <;> rfl

theorem lift_bind (first : Except ε α) (next : α → Except ε β) :
    (liftM (first >>= next) : ExceptT ε (StateM σ) β) = liftM first >>= fun value => liftM (next value) := by
  cases first <;> rfl

/-- A computation that starts by looking at the state. -/
theorem run_get_bind {next : σ → ExceptT ε (StateM σ) α} :
    ((get : ExceptT ε (StateM σ) σ) >>= next).run before = (next before).run before :=
  rfl

theorem run_get_eq_ok {result : σ} :
    (get : ExceptT ε (StateM σ) σ).run before = (.ok result, after) ↔
      before = result ∧ before = after := by
  constructor
  · intro run
    cases run
    exact ⟨rfl, rfl⟩
  · rintro ⟨rfl, rfl⟩
    rfl

/-- What every step leaves, and what later steps keep, holds of all results in the
end. -/
theorem run_mapM_eq_ok {grows : σ → σ → Prop} {holds : σ → α → β → Prop}
    (refl : ∀ state, grows state state)
    (trans : ∀ {first second third}, grows first second → grows second third → grows first third)
    (keeps : ∀ now later value result, grows now later → holds now value result →
      holds later value result)
    {step : α → ExceptT ε (StateM σ) β}
    (steps : ∀ value now result later, (step value).run now = (.ok result, later) →
      grows now later ∧ holds later value result)
    {values : List α} {results : List β} (run : (values.mapM step).run before = (.ok results, after)) :
    grows before after ∧ List.Forall₂ (holds after) values results := by
  induction values generalizing before results with
  | nil =>
    rw [List.mapM_nil, run_pure_eq_ok] at run
    rcases run with ⟨rfl, rfl⟩
    exact ⟨refl before, .nil⟩
  | cons value values ih =>
    rw [List.mapM_cons, run_bind_eq_ok] at run
    rcases run with ⟨result, between, first, onward⟩
    rcases run_bind_eq_ok.mp onward with ⟨others, _, rest, last⟩
    rcases run_pure_eq_ok.mp last with ⟨rfl, rfl⟩
    rcases steps _ _ _ _ first with ⟨grown, here⟩
    rcases ih rest with ⟨grown', there⟩
    exact ⟨trans grown grown', .cons (keeps _ _ _ _ grown' here) there⟩

/-- Steps that leave the state alone. -/
theorem run_mapM_same {state : σ} {step : α → ExceptT ε (StateM σ) β} {values : List α} {results : List β}
    (each : List.Forall₂ (fun value result => (step value).run state = (.ok result, state))
      values results) : (values.mapM step).run state = (.ok results, state) := by
  induction each with
  | nil => rfl
  | cons here _ ih =>
    rw [List.mapM_cons]
    exact run_bind_eq_ok.mpr ⟨_, state, here, run_bind_eq_ok.mpr ⟨_, state, ih, rfl⟩⟩

theorem run_mapM_option_same {state : σ} {step : α → ExceptT ε (StateM σ) β} {value? : Option α}
    {result? : Option β}
    (each : Option.Rel (fun value result => (step value).run state = (.ok result, state))
      value? result?) : (value?.mapM step).run state = (.ok result?, state) := by
  cases each with
  | none => rfl
  | some here =>
    rw [Option.mapM_some, ← bind_pure_comp]
    exact run_bind_eq_ok.mpr ⟨_, state, here, rfl⟩

/-- A loop that is never left early. -/
theorem forIn_eq_forM {m : Type → Type} [Monad m] [LawfulMonad m] (step : α → m PUnit)
    (values : List α) :
    (forIn values PUnit.unit fun value _ => do step value; pure (.yield ⟨⟩)) = forM values step := by
  induction values with
  | nil => rfl
  | cons value values ih =>
    rw [List.forIn_cons, bind_assoc]
    refine bind_congr fun _ => ?_
    rw [pure_bind]
    exact ih

end

end ClassFile
