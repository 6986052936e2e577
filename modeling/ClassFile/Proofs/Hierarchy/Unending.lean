import ClassFile.Proofs.Cycles
import ClassFile.Proofs.Hierarchy.Climbs
import ClassFile.Proofs.Hierarchy.Sessions

namespace ClassFile
namespace Hierarchy

/-!
# Superclasses without end

Nothing checks a superclass when a class is added or loaded, so a class may come to be
above itself.  A search for a common superclass goes up from both classes and has no end
if it gets to such a class.  `Unending` says when it does.  In all other cases the search
ends after no more steps than there are classes, whatever the superclasses are.
-/

open Fault (Finite Plain)

section

variable {known : String → Option ClassInfo} {name lower upper first second : String}
  {names : List String}

/-- A known class has another one as its superclass. -/
def Above (known : String → Option ClassInfo) (lower upper : String) : Prop :=
  ∃ info above, known lower = some info ∧ info.superclass = some above ∧ above.text = upper

theorem Above.unique (above : Above known name lower) (other : Above known name upper) :
    lower = upper := by
  rcases above with ⟨info, above, found, up, rfl⟩
  rcases other with ⟨info', above', found', up', rfl⟩
  cases found.symm.trans found'
  cases up.symm.trans up'
  rfl

/-- From where the way up ends it leads into no cycle. -/
theorem Climb.not_leadsToCycle (climb : Climb known name names) :
    ¬ LeadsToCycle (Above known) name := by
  intro leads
  induction climb with
  | lost absent =>
    rcases leads.exists_next with ⟨upper, ⟨info, above, found, -, -⟩, -⟩
    cases absent.symm.trans found
  | last found top =>
    rcases leads.exists_next with ⟨upper, ⟨info, above, found', up, -⟩, -⟩
    cases found.symm.trans found'
    cases top.symm.trans up
  | next found up climb ih =>
    rcases leads.exists_next with ⟨upper, isAbove, leads⟩
    cases isAbove.unique ⟨_, _, found, up, rfl⟩
    exact ih leads

/-- The way up from a class ends, or goes on for as long as one likes. -/
theorem exists_climb_or_goesOn (known : String → Option ClassInfo) (count : Nat) (name : String) :
    (∃ names, Climb known name names) ∨ GoesOn (Above known) count name := by
  induction count generalizing name with
  | zero => exact .inr .here
  | succ count ih =>
    cases found : known name with
    | none => exact .inl ⟨[], .lost found⟩
    | some info =>
      cases up : info.superclass with
      | none => exact .inl ⟨[name], .last found up⟩
      | some above =>
        cases ih above.text with
        | inl ends =>
          rcases ends with ⟨names, climb⟩
          exact .inl ⟨name :: names, .next found up climb⟩
        | inr onward => exact .inr (.step ⟨info, above, found, up, rfl⟩ onward)

/-- The way up from a class ends unless it leads into a cycle. -/
theorem exists_climb {hierarchy : Hierarchy}
    (acyclic : ¬ LeadsToCycle (Above hierarchy.known) name) :
    ∃ names, Climb hierarchy.known name names := by
  apply (exists_climb_or_goesOn hierarchy.known (hierarchy.classCount + 1) name).resolve_right
  intro onward
  refine acyclic (onward.leadsToCycle id ?_ ?_ (Nat.lt_succ_self _))
  · rintro one _ upper beyond rfl isAbove -
    exact isAbove
  · intro names distinct referring
    refine length_le_classCount distinct fun name member => ?_
    rcases referring name member with ⟨_, upper, rfl, info, above, found, -⟩
    exact ⟨info, found⟩

/-- A search for a common superclass gets to a class that is above itself.  It goes up from
the second class only after it came to an end with the first one. -/
def Unending (known : String → Option ClassInfo) (first second : String) : Prop :=
  ∃ firstInfo secondInfo, known first = some firstInfo ∧ known second = some secondInfo ∧
    ¬ Trivial first second firstInfo secondInfo ∧
      (LeadsToCycle (Above known) first ∨
        (∃ names, IsChain known first names) ∧ LeadsToCycle (Above known) second)

/-- A number of steps that no way up takes. -/
def Enough (known : String → Option ClassInfo) (steps : Nat) : Prop :=
  ∀ name names, Climb known name names → names.length < steps

theorem enough_of_classCount_lt {hierarchy : Hierarchy} {steps : Nat}
    (more : hierarchy.classCount < steps) : Enough hierarchy.known steps :=
  fun _ _ climb => Nat.lt_of_le_of_lt climb.length_le more

end

/-! ## Searches with a limit -/

/-- A search for the closest common superclass that may take a number of steps up from
either class. -/
def searchWithin (steps : Nat) (first second : String) : Query String := do
  let firstIsInterface ← isInterface first
  let secondIsInterface ← isInterface second
  if first = root ∨ second = root ∨ firstIsInterface ∨ secondIsInterface then return root
  let ancestors ← chain steps first
  return (← firstAmong ancestors steps second).getD root

/-- A search takes as many steps as there can be classes. -/
theorem searchCommon_run_eq (hierarchy : Hierarchy) (first second : String) :
    ∃ steps, Enough hierarchy.known steps ∧
      (searchCommon first second).run hierarchy = (searchWithin steps first second).run hierarchy := by
  rcases isInterface_run hierarchy first with ⟨after₁, run₁, extends₁, -⟩
  rcases isInterface_run after₁ second with ⟨after₂, run₂, extends₂, -⟩
  have enough : Enough hierarchy.known (after₂.classCount + 1) := by
    rw [← (extends₁.trans extends₂).known]
    exact enough_of_classCount_lt (Nat.lt_succ_self _)
  refine ⟨after₂.classCount + 1, enough, ?_⟩
  rw [searchCommon, searchWithin]
  cases found₁ : hierarchy.lookup first with
  | error fault =>
    rw [found₁] at run₁
    rw [Query.run_bind_error run₁, Query.run_bind_error run₁]
  | ok firstInfo =>
    rw [found₁] at run₁
    rw [Query.run_bind_ok run₁, Query.run_bind_ok run₁]
    cases found₂ : after₁.lookup second with
    | error fault =>
      rw [found₂] at run₂
      rw [Query.run_bind_error run₂, Query.run_bind_error run₂]
    | ok secondInfo =>
      rw [found₂] at run₂
      rw [Query.run_bind_ok run₂, Query.run_bind_ok run₂]
      dsimp only
      split
      · rfl
      · rw [Query.run_bind_ok (Query.run_get after₂)]

namespace Query

variable {α β : Type} {short long : Query α}

/-- A question that has the result of another one unless that was cut off. -/
def Outlasts (long short : Query α) : Prop :=
  ∀ hierarchy, CutOff (short.run hierarchy).1 ∨ long.run hierarchy = short.run hierarchy

theorem Outlasts.refl (query : Query α) : Outlasts query query :=
  fun _ => .inr rfl

theorem Outlasts.bind {next further : α → Query β} (outlasts : Outlasts long short)
    (onward : ∀ answer, Outlasts (further answer) (next answer)) :
    Outlasts (long >>= further) (short >>= next) := by
  intro hierarchy
  rcases run : short.run hierarchy with ⟨result, after⟩
  cases result with
  | error fault =>
    rw [run_bind_error run]
    cases outlasts hierarchy with
    | inl cut =>
      rw [run] at cut
      exact .inl (cutOff_error.2 (cutOff_error.1 cut))
    | inr same =>
      rw [run] at same
      exact .inr (run_bind_error same)
  | ok answer =>
    rw [run_bind_ok run]
    cases outlasts hierarchy with
    | inl cut =>
      rw [run] at cut
      exact absurd cut not_cutOff_ok
    | inr same =>
      rw [run] at same
      rw [run_bind_ok same]
      exact onward answer after

end Query

open Query

theorem chain_outlasts {steps more : Nat} (fewer : steps ≤ more) (name : String) :
    Outlasts (chain more name) (chain steps name) := by
  induction steps generalizing more name with
  | zero => exact fun _ => .inl ⟨_, rfl⟩
  | succ steps ih =>
    cases more with
    | zero => cases fewer
    | succ more =>
      refine (Outlasts.refl _).bind fun above? => ?_
      cases above? with
      | none => exact .refl _
      | some above => exact (ih (Nat.le_of_succ_le_succ fewer) above).bind fun _ => .refl _

theorem firstAmong_outlasts (classes : List String) {steps more : Nat} (fewer : steps ≤ more)
    (name : String) : Outlasts (firstAmong classes more name) (firstAmong classes steps name) := by
  induction steps generalizing more name with
  | zero => exact fun _ => .inl ⟨_, rfl⟩
  | succ steps ih =>
    cases more with
    | zero => cases fewer
    | succ more =>
      rw [firstAmong, firstAmong]
      split
      · exact .refl _
      · refine (Outlasts.refl _).bind fun above? => ?_
        cases above? with
        | none => exact .refl _
        | some above => exact ih (Nat.le_of_succ_le_succ fewer) above

theorem searchWithin_outlasts {steps more : Nat} (fewer : steps ≤ more) (first second : String) :
    Outlasts (searchWithin more first second) (searchWithin steps first second) := by
  refine (Outlasts.refl _).bind fun _ => (Outlasts.refl _).bind fun _ => ?_
  split
  · exact .refl _
  · refine (chain_outlasts fewer first).bind fun ancestors => ?_
    exact (firstAmong_outlasts ancestors fewer second).bind fun _ => .refl _

/-! ## Searches that are cut off -/

section

variable {origin : Hierarchy} {name first second : String} {names : List String}

/-- Having been cut off after too many steps. -/
def WasCutOff (fault : Fault) : Prop :=
  ∃ what, fault = .endless what

/-- A question that is cut off, whatever has been loaded before. -/
def IsCutOff {α : Type} (origin : Hierarchy) (query : Query α) : Prop :=
  Resolves (Agrees origin) WasCutOff query fun _ => False

theorem find_resolves_of_known {kind : Fault → Prop} {info : ClassInfo}
    (found : origin.known name = some info) :
    Resolves (Agrees origin) kind (find name) fun other => other = info := by
  intro hierarchy agrees
  rcases find_run hierarchy name with ⟨after, run, extends_, -⟩
  have there : hierarchy.lookup name = .ok info := by
    rw [show hierarchy.lookup = origin.lookup from agrees]
    exact known_eq_some.1 found
  rw [there] at run
  refine ⟨_, after, run, extends_.lookup.trans agrees, ?_, ?_⟩
  · intro fault same
    cases same
  · intro other same
    exact (Except.ok.inj same).symm

theorem superclass_resolves_of_known {kind : Fault → Prop} {info : ClassInfo}
    (found : origin.known name = some info) :
    Resolves (Agrees origin) kind (superclass name) fun above? =>
      above? = info.superclass.map ClassName.text := by
  refine (find_resolves_of_known found).bind fun other same => resolves_pure ?_
  rw [same]

theorem isInterface_resolves_of_known {kind : Fault → Prop} {info : ClassInfo}
    (found : origin.known name = some info) :
    Resolves (Agrees origin) kind (isInterface name) fun answer =>
      answer = info.access.isInterface := by
  refine (find_resolves_of_known found).bind fun other same => resolves_pure ?_
  rw [same]

theorem Above.superclass {kind : Fault → Prop} {upper : String}
    (isAbove : Above origin.known name upper) :
    Resolves (Agrees origin) kind (superclass name) fun above? => above? = some upper := by
  rcases isAbove with ⟨info, above, found, up, rfl⟩
  have resolves := @superclass_resolves_of_known origin name kind info found
  rw [up] at resolves
  exact resolves

theorem chain_isCutOff (leads : LeadsToCycle (Above origin.known) name) (steps : Nat) :
    IsCutOff origin (chain steps name) := by
  induction steps generalizing name with
  | zero => exact resolves_throw ⟨_, rfl⟩
  | succ steps ih =>
    rcases leads.exists_next with ⟨upper, isAbove, leads⟩
    refine isAbove.superclass.bind fun above? same => ?_
    subst same
    exact (ih leads).bind fun _ none => none.elim

/-- What leads into a cycle meets no class from where the way up ends. -/
theorem firstAmong_isCutOff {classes : List String}
    (ending : ∀ other ∈ classes, ∃ names, Climb origin.known other names)
    (leads : LeadsToCycle (Above origin.known) name) (steps : Nat) :
    IsCutOff origin (firstAmong classes steps name) := by
  induction steps generalizing name with
  | zero => exact resolves_throw ⟨_, rfl⟩
  | succ steps ih =>
    have outside : name ∉ classes := by
      intro inside
      rcases ending name inside with ⟨names, climb⟩
      exact climb.not_leadsToCycle leads
    rw [firstAmong, if_neg fun contains => outside (List.contains_iff_mem.1 contains)]
    rcases leads.exists_next with ⟨upper, isAbove, leads⟩
    refine isAbove.superclass.bind fun above? same => ?_
    subst same
    exact ih leads

/-- A chain is what is found of it unless there are too few steps. -/
theorem IsChain.resolves (isChain : IsChain origin.known name names) (steps : Nat) :
    Resolves (Agrees origin) WasCutOff (chain steps name) fun found => found = names := by
  induction steps generalizing name names with
  | zero => exact resolves_throw ⟨_, rfl⟩
  | succ steps ih =>
    cases isChain with
    | last found top =>
      refine (superclass_resolves_of_known found).bind fun above? same => ?_
      rw [top] at same
      subst same
      exact resolves_pure rfl
    | next found up isChain =>
      refine (superclass_resolves_of_known found).bind fun above? same => ?_
      rw [up] at same
      subst same
      exact (ih isChain).bind fun rest same => resolves_pure (congrArg _ same)

theorem Unending.searchWithin_isCutOff (unending : Unending origin.known first second)
    (steps : Nat) : IsCutOff origin (searchWithin steps first second) := by
  rcases unending with ⟨firstInfo, secondInfo, foundFirst, foundSecond, special, leads⟩
  refine (isInterface_resolves_of_known foundFirst).bind fun firstAnswer same => ?_
  refine (isInterface_resolves_of_known foundSecond).bind fun secondAnswer same' => ?_
  subst same
  subst same'
  rw [Trivial] at special
  rw [if_neg special]
  cases leads with
  | inl leads => exact (chain_isCutOff leads steps).bind fun _ none => none.elim
  | inr both =>
    rcases both with ⟨⟨names, isChain⟩, leads⟩
    refine (isChain.resolves steps).bind fun ancestors same => ?_
    subst same
    refine Resolves.bind (firstAmong_isCutOff ?_ leads steps) fun _ none => none.elim
    intro other member
    rcases List.append_of_mem member with ⟨front, back, rfl⟩
    exact ⟨_, isChain.suffix.climb⟩

/-- A chain that is found is one of known classes. -/
theorem chain_resolves_isChain {steps : Nat} (climb : Climb origin.known name names)
    (enough : names.length < steps) :
    Resolves (Agrees origin) Finite (chain steps name) fun found => IsChain origin.known name found := by
  have answers : Answers (Agrees origin) (chain steps name)
      fun found => IsChain origin.known name found := by
    intro hierarchy agrees
    rcases chain_finds steps name hierarchy with ⟨result, after, run, extends_, found, -⟩
    refine ⟨result, after, run, extends_.lookup.trans agrees, fun names same => ?_⟩
    rw [← agrees.known, ← extends_.known]
    exact (found names same).mono fun _ _ there => known_of_find? there
  exact answers.resolves (chain_resolves climb enough) fun _ => id

theorem searchWithin_resolves {steps : Nat} (enough : Enough origin.known steps)
    (ending : ¬ Unending origin.known first second) :
    Resolves (Agrees origin) Finite (searchWithin steps first second) fun _ => True := by
  have found : ∀ name, Resolves (Agrees origin) Finite (isInterface name) fun answer =>
      ∃ info, origin.known name = some info ∧ answer = info.access.isInterface := by
    intro name
    have found := (find_resolves origin name).widen fun _ => Plain.finite
    exact found.bind fun info there => resolves_pure ⟨info, there, rfl⟩
  refine (found first).bind fun firstAnswer here => (found second).bind fun secondAnswer there => ?_
  rcases here with ⟨firstInfo, foundFirst, rfl⟩
  rcases there with ⟨secondInfo, foundSecond, rfl⟩
  split
  · exact resolves_pure trivial
  · next special =>
    have leading : ¬ LeadsToCycle (Above origin.known) first := fun leads =>
      ending ⟨firstInfo, secondInfo, foundFirst, foundSecond, special, .inl leads⟩
    rcases exists_climb leading with ⟨names, climb⟩
    refine (chain_resolves_isChain climb (enough first names climb)).bind fun ancestors isChain => ?_
    have leading' : ¬ LeadsToCycle (Above origin.known) second := fun leads =>
      ending ⟨firstInfo, secondInfo, foundFirst, foundSecond, special, .inr ⟨⟨_, isChain⟩, leads⟩⟩
    rcases exists_climb leading' with ⟨others, climb'⟩
    exact (firstAmong_resolves ancestors climb' (enough second others climb')).bind fun _ _ =>
      resolves_pure trivial

theorem IsCutOff.cutOff {α : Type} {query : Query α} (isCutOff : IsCutOff origin query) :
    CutOff (query.run origin).1 := by
  rcases isCutOff origin rfl with ⟨result, after, run, -, fails, none⟩
  rw [run]
  cases result with
  | ok answer => exact (none answer rfl).elim
  | error fault =>
    rcases fails fault rfl with ⟨what, rfl⟩
    exact ⟨what, rfl⟩

theorem searchWithin_not_cutOff {steps : Nat} (enough : Enough origin.known steps)
    (ending : ¬ Unending origin.known first second) :
    ¬ CutOff ((searchWithin steps first second).run origin).1 := by
  rcases searchWithin_resolves enough ending origin rfl with ⟨result, after, run, -, finite, -⟩
  rw [run]
  rintro ⟨what, same⟩
  exact finite _ same what rfl

/-- All searches with enough steps have one result. -/
theorem searchWithin_eq {steps other : Nat} (enough : Enough origin.known steps)
    (enough' : Enough origin.known other) (ending : ¬ Unending origin.known first second) :
    (searchWithin steps first second).run origin = (searchWithin other first second).run origin := by
  cases Nat.le_total steps other with
  | inl fewer =>
    have same := searchWithin_outlasts fewer first second origin
    exact (same.resolve_left (searchWithin_not_cutOff enough ending)).symm
  | inr more =>
    have same := searchWithin_outlasts more first second origin
    exact same.resolve_left (searchWithin_not_cutOff enough' ending)

end

/-- The question for a common superclass has a result after finitely many steps, and then
after no more than there are classes, unless one of the ways up that are gone for it leads
into a cycle.  Then it has none, however many steps it may take. -/
theorem commonSuperclass_stops_iff (graph : ClassGraph) (directories : List Directory)
    (acts : List Act) (first second : String) :
    let now := (ofGraph graph directories).afterAll acts
    let asked := ((commonSuperclass first second).run now).1
    let within := fun steps => ((searchWithin steps first second).run now).1
    (Unending now.known first second → CutOff asked ∧ ∀ steps, CutOff (within steps)) ∧
      (¬ Unending now.known first second →
        ¬ CutOff asked ∧ ∀ steps, now.classCount < steps → within steps = asked) := by
  intro now asked within
  have learned : Learned now := (Learned.fresh graph directories).afterAll acts
  rcases searchCommon_run_eq now first second with ⟨steps, enough, run⟩
  have same : asked = within steps := by
    rw [show asked = _ from learned.commonSuperclass_eq first second, run]
  rw [same]
  constructor
  · intro unending
    have isCutOff : ∀ steps, CutOff (within steps) := fun steps =>
      (unending.searchWithin_isCutOff steps).cutOff
    exact ⟨isCutOff steps, isCutOff⟩
  · intro ending
    refine ⟨searchWithin_not_cutOff enough ending, fun other more => ?_⟩
    exact congrArg Prod.fst (searchWithin_eq (enough_of_classCount_lt more) enough ending)

/-! ## Two classes above each other -/

def ringFirst : ClassInfo :=
  ⟨{ text := "loop/A" }, some { text := "loop/B" }, [], .ofBits 0x21⟩

def ringSecond : ClassInfo :=
  ⟨{ text := "loop/B" }, some { text := "loop/A" }, [], .ofBits 0x21⟩

/-- The standard classes, and two of which each is the superclass of the other. -/
def ring : ClassGraph :=
  (ClassGraph.standard.add ringFirst).add ringSecond

theorem ring_holds : ring.Holds (ringSecond :: ringFirst :: ClassGraph.standardClasses) :=
  (ClassGraph.standard_holds.add (by decide)).add (by decide)

theorem ring_unending : Unending (ofGraph ring []).known "loop/A" "java/lang/String" := by
  rw [known_ofGraph]
  have isFirst := ring_holds.found ringFirst (by simp)
  have isSecond := ring_holds.found ringSecond (by simp)
  have isString := ring_holds.found (ClassGraph.standardClasses.get ⟨7, by decide⟩)
    (List.mem_cons_of_mem _ (List.mem_cons_of_mem _ (List.get_mem _ _)))
  have up : Above ring.find? "loop/A" "loop/B" := ⟨_, _, isFirst, rfl, rfl⟩
  have back : Above ring.find? "loop/B" "loop/A" := ⟨_, _, isSecond, rfl, rfl⟩
  refine ⟨_, _, isFirst, isString, by unfold Trivial; decide, .inl ?_⟩
  exact ⟨"loop/A", .refl, .tail (.single up) back⟩

/-- The search above a class of the ring has no end. -/
theorem commonSuperclass_ring :
    CutOff ((commonSuperclass "loop/A" "java/lang/String").run (ofGraph ring [])).1 ∧
      ¬ ∃ steps, ¬ CutOff ((searchWithin steps "loop/A" "java/lang/String").run (ofGraph ring [])).1 := by
  have isCutOff : ∀ steps,
      CutOff ((searchWithin steps "loop/A" "java/lang/String").run (ofGraph ring [])).1 :=
    fun steps => (ring_unending.searchWithin_isCutOff steps).cutOff
  constructor
  · rcases searchCommon_run_eq (ofGraph ring []) "loop/A" "java/lang/String" with ⟨steps, -, run⟩
    rw [(Learned.fresh ring []).commonSuperclass_eq, run]
    exact isCutOff steps
  · rintro ⟨steps, ends⟩
    exact ends (isCutOff steps)

/-- In the graph with the ring, the search from one of its classes has no end, and the one for
an interface and that class has. -/
theorem commonSuperclass_stops_iff_ring :
    CutOff ((commonSuperclass "loop/A" "java/lang/String").run (ofGraph ring [])).1 ∧
      ¬ CutOff ((commonSuperclass "java/lang/Runnable" "loop/A").run (ofGraph ring [])).1 := by
  have unending : Unending (ofGraph ring []).known "loop/A" "java/lang/String" := ring_unending
  have ending : ¬ Unending (ofGraph ring []).known "java/lang/Runnable" "loop/A" := by
    rw [known_ofGraph]
    rintro ⟨firstInfo, secondInfo, foundFirst, -, special, -⟩
    have isRunnable := ring_holds.found (ClassGraph.standardClasses.get ⟨3, by decide⟩)
      (List.mem_cons_of_mem _ (List.mem_cons_of_mem _ (List.get_mem _ _)))
    cases isRunnable.symm.trans foundFirst
    exact special (.inr (.inr (.inl (by decide))))
  exact ⟨((commonSuperclass_stops_iff ring [] [] "loop/A" "java/lang/String").1 unending).1,
    ((commonSuperclass_stops_iff ring [] [] "java/lang/Runnable" "loop/A").2 ending).1⟩

end Hierarchy
end ClassFile
