import ClassFile.Proofs.Hierarchy.Questions
import ClassFile.Proofs.Hierarchy.Standard

namespace ClassFile
namespace Hierarchy

/-!
# Sessions with a hierarchy

In a session questions are asked in any order, also ones that fail, while classes are
added or loaded from files.  An answer that is remembered is the one that a search would
find now, whichever of the two classes comes first.  Chains of superclasses need not
even end for that, since an answer was only ever given where those that matter do.  What
is said of a single class does not depend on the questions before.
-/

/-! ## Searching from either side -/

section

variable {known : String → Option ClassInfo} {name first second answer other : String}
  {names ancestors : List String}

theorem Meets.unique (meets : Meets known ancestors name answer)
    (again : Meets known ancestors name other) : answer = other := by
  induction meets with
  | here inside =>
    cases again with
    | here => rfl
    | up outside => exact absurd inside outside
    | apart outside => exact absurd inside outside
  | up outside found up _ ih =>
    cases again with
    | here inside => exact absurd inside outside
    | up _ found' up' meets =>
      rw [Option.some.inj (found.symm.trans found'), up'] at up
      obtain rfl := Option.some.inj up
      exact ih meets
    | apart _ found' top =>
      rw [Option.some.inj (found.symm.trans found'), top] at up
      cases up
  | apart outside found top =>
    cases again with
    | here inside => exact absurd inside outside
    | up _ found' up =>
      rw [Option.some.inj (found.symm.trans found'), up] at top
      cases top
    | apart => rfl

theorem Answered.unique (answered : Answered known first second answer)
    (again : Answered known first second other) : answer = other := by
  cases answered with
  | general foundFirst foundSecond atOnce =>
    cases again with
    | general => rfl
    | searched foundFirst' foundSecond' special =>
      rw [Option.some.inj (foundFirst.symm.trans foundFirst'),
        Option.some.inj (foundSecond.symm.trans foundSecond')] at atOnce
      exact absurd atOnce special
  | searched foundFirst foundSecond special chain meets =>
    cases again with
    | general foundFirst' foundSecond' atOnce =>
      rw [Option.some.inj (foundFirst'.symm.trans foundFirst),
        Option.some.inj (foundSecond'.symm.trans foundSecond)] at atOnce
      exact absurd atOnce special
    | searched _ _ _ chain' meets' =>
      rw [chain'.unique chain] at meets'
      exact meets.unique meets'

/-- Of two chains, the first class of the one that is on the other is also the first
class of the other that is on the one. -/
theorem Meets.symm (meets : Meets known ancestors second answer)
    (chain : IsChain known first ancestors) (opposite : IsChain known second names) :
    Meets known names first answer := by
  rcases meets.split opposite with ⟨inside, front, back, rfl, before⟩ | ⟨rfl, apart⟩
  · obtain ⟨lower, upper, rfl⟩ := List.append_of_mem inside
    refine chain.meets (fun name early member => ?_) (List.mem_append_right _ List.mem_cons_self)
    rcases List.mem_append.1 member with ahead | beyond
    · exact before name ahead (List.mem_append_left _ early)
    · -- From the answer on the chains are the same, and none visits a class twice.
      rw [opposite.suffix.unique chain.suffix] at beyond
      exact (List.nodup_append.1 chain.nodup).2.2 name early name beyond rfl
  · exact chain.meets_apart fun upper member shared => apart upper shared member

theorem Answered.symm (answered : Answered known first second answer) :
    Answered known second first answer := by
  cases answered with
  | general foundFirst foundSecond atOnce => exact .general foundSecond foundFirst atOnce.symm
  | searched foundFirst foundSecond special chain meets =>
    obtain ⟨names, opposite⟩ := meets.exists_chain chain
    exact .searched foundSecond foundFirst (fun atOnce => special atOnce.symm) opposite
      (meets.symm chain opposite)

theorem Common.answered (common : Common known first second answer) :
    Answered known first second answer :=
  common.elim id Answered.symm

end

/-- A hierarchy answers with what there is to be found, remembered or not. -/
theorem Learned.commonSuperclass_iff {hierarchy : Hierarchy} {first second answer : String}
    (learned : Learned hierarchy) :
    ((commonSuperclass first second).run hierarchy).1 = .ok answer ↔
      Answered hierarchy.known first second answer := by
  obtain ⟨result, after, run, lookup, -, -, -, partial_, total⟩ :=
    commonSuperclass_run learned.remembers first second
  have sameKnown : after.known = hierarchy.known := by
    funext name
    rw [known, lookup, known]
  have answered : ∀ found, result = .ok found → Answered hierarchy.known first second found := by
    intro found same
    rw [← sameKnown]
    exact (partial_ found same).answered.mono fun name info there => known_of_find? there
  rw [run]
  constructor
  · exact answered answer
  · intro expected
    obtain ⟨found, same⟩ := total answer expected
    rw [same, (answered found same).unique expected]

/-- Remembered or not, the question has the result of a new search. -/
theorem Learned.commonSuperclass_eq {hierarchy : Hierarchy} (learned : Learned hierarchy)
    (first second : String) :
    ((commonSuperclass first second).run hierarchy).1 =
      ((searchCommon first second).run hierarchy).1 := by
  obtain ⟨result, after, run, extends_, partial_, total⟩ := searchCommon_finds hierarchy first second
  rw [run]
  cases result with
  | ok answer =>
    apply learned.commonSuperclass_iff.2
    rw [← extends_.known]
    exact (partial_ answer rfl).mono fun _ _ there => known_of_find? there
  | error fault =>
    cases asked : ((commonSuperclass first second).run hierarchy).1 with
    | ok answer =>
      obtain ⟨_, same⟩ := total ⟨answer, learned.commonSuperclass_iff.1 asked⟩
      cases same
    | error other =>
      -- Nothing is remembered for these classes, so the fault is that of the search.
      rw [commonSuperclass, Query.run_bind_ok (Query.run_get hierarchy)] at asked
      split at asked
      · cases asked
      · rw [Query.run_bind_error run] at asked
        exact asked.symm

/-- A hierarchy with the same classes that was never asked for a common superclass. -/
def forget (hierarchy : Hierarchy) : Hierarchy :=
  ofGraph hierarchy.graph hierarchy.directories

/-! ## Sessions -/

/-- What may happen in a session. -/
inductive Act
  | commonSuperclass (first second : String)
  | superclass (name : String)
  | isInterface (name : String)
  | add (info : ClassInfo)

def Act.isAddition : Act → Bool
  | .add _ => true
  | _ => false

/-- The hierarchy after an act, whether that failed or not. -/
def act (hierarchy : Hierarchy) : Act → Hierarchy
  | .commonSuperclass first second => ((Hierarchy.commonSuperclass first second).run hierarchy).2
  | .superclass name => ((Hierarchy.superclass name).run hierarchy).2
  | .isInterface name => ((Hierarchy.isInterface name).run hierarchy).2
  | .add info => ((Hierarchy.add info).run hierarchy).2

/-- The hierarchy after a session. -/
def afterAll (hierarchy : Hierarchy) (acts : List Act) : Hierarchy :=
  acts.foldl act hierarchy

section

variable {hierarchy : Hierarchy}

/-- Asking about a single class leaves a hierarchy as finding the class does. -/
theorem after_map_find {α : Type} (name : String) (answer : ClassInfo → α) :
    ((do return answer (← find name) : Query α).run hierarchy).2 =
      ((find name).run hierarchy).2 := by
  obtain ⟨after, run, -⟩ := find_run hierarchy name
  rw [run]
  cases found : hierarchy.lookup name with
  | ok info =>
    rw [found] at run
    rw [Query.run_bind_ok run]
    rfl
  | error fault =>
    rw [found] at run
    rw [Query.run_bind_error run]

theorem Learned.act (learned : Learned hierarchy) (act : Act) : Learned (hierarchy.act act) := by
  cases act with
  | commonSuperclass first second => exact .asked learned rfl
  | superclass name =>
    have same : hierarchy.act (.superclass name) = ((find name).run hierarchy).2 :=
      after_map_find name fun info => info.superclass.map ClassName.text
    exact same ▸ .found learned rfl
  | isInterface name =>
    have same : hierarchy.act (.isInterface name) = ((find name).run hierarchy).2 :=
      after_map_find name fun info => info.access.isInterface
    exact same ▸ .found learned rfl
  | add info => exact .added learned rfl

theorem Learned.afterAll (learned : Learned hierarchy) (acts : List Act) :
    Learned (hierarchy.afterAll acts) := by
  induction acts generalizing hierarchy with
  | nil => exact learned
  | cons act acts ih => exact ih (learned.act act)

end

/-! ## Questions leave no trace -/

/-- Two hierarchies know the same of every class, and have the same files. -/
structure Alike (hierarchy unasked : Hierarchy) : Prop where
  lookup : hierarchy.lookup = unasked.lookup
  directories : hierarchy.directories = unasked.directories

section

variable {hierarchy unasked : Hierarchy}

theorem Extends.alike {after : Hierarchy} (extends_ : Extends hierarchy after) :
    Alike after hierarchy :=
  ⟨extends_.lookup, extends_.directories⟩

theorem Alike.trans {third : Hierarchy} (alike : Alike hierarchy unasked)
    (onward : Alike unasked third) : Alike hierarchy third :=
  ⟨alike.lookup.trans onward.lookup, alike.directories.trans onward.directories⟩

/-- A question leaves a hierarchy that knows the same. -/
theorem alike_act_of_question (learned : Learned hierarchy) {act : Act}
    (question : act.isAddition = false) : Alike (hierarchy.act act) hierarchy := by
  have found : ∀ name, Alike ((find name).run hierarchy).2 hierarchy := by
    intro name
    obtain ⟨after, run, extends_, -⟩ := find_run hierarchy name
    rw [run]
    exact extends_.alike
  cases act with
  | commonSuperclass first second =>
    obtain ⟨result, after, run, lookup, directories, -⟩ :=
      commonSuperclass_run learned.remembers first second
    have same : hierarchy.act (.commonSuperclass first second) = after := congrArg Prod.snd run
    exact same ▸ ⟨lookup, directories⟩
  | superclass name =>
    have same : hierarchy.act (.superclass name) = ((find name).run hierarchy).2 :=
      after_map_find name fun info => info.superclass.map ClassName.text
    exact same ▸ found name
  | isInterface name =>
    have same : hierarchy.act (.isInterface name) = ((find name).run hierarchy).2 :=
      after_map_find name fun info => info.access.isInterface
    exact same ▸ found name
  | add info => cases question

theorem find?_eq_of_lookup (alone : hierarchy.directories = []) (alike : Alike hierarchy unasked)
    (name : String) : hierarchy.graph.find? name = unasked.graph.find? name := by
  have same := congrFun alike.lookup name
  rw [lookup_of_no_directories alone, lookup_of_no_directories (alike.directories ▸ alone)] at same
  generalize hierarchy.graph.find? name = here at same ⊢
  generalize unasked.graph.find? name = there at same ⊢
  match here, there, same with
  | some _, some _, same => exact congrArg some (Except.ok.inj same)
  | none, none, _ => rfl

/-- A class that is added to graphs with the same classes. -/
theorem Alike.add (alone : hierarchy.directories = []) (alike : Alike hierarchy unasked)
    (info : ClassInfo) : Alike (hierarchy.act (.add info)) (unasked.act (.add info)) := by
  refine ⟨funext fun name => ?_, alike.directories⟩
  have alone' : unasked.directories = [] := alike.directories ▸ alone
  have same := find?_eq_of_lookup alone alike name
  have alone : (hierarchy.act (.add info)).directories = [] := alone
  have alone' : (unasked.act (.add info)).directories = [] := alone'
  rw [lookup_of_no_directories alone, lookup_of_no_directories alone']
  have added : ∀ hierarchy : Hierarchy, (hierarchy.act (.add info)).graph.find? name =
      (hierarchy.graph.add info).find? name := fun _ => rfl
  rw [added, added, find?_add, find?_add, same]

/-- A session knows what the additions in it alone would have made known. -/
theorem alike_afterAll (acts : List Act) (learned : Learned hierarchy)
    (alike : Alike hierarchy unasked)
    (separate : hierarchy.directories = [] ∨ ∀ act ∈ acts, act.isAddition = false) :
    Alike (hierarchy.afterAll acts) (unasked.afterAll (acts.filter Act.isAddition)) := by
  induction acts generalizing hierarchy unasked with
  | nil => exact alike
  | cons act acts ih =>
    cases addition : act.isAddition with
    | true =>
      have alone := separate.resolve_right fun none => by
        rw [none act List.mem_cons_self] at addition
        cases addition
      rw [List.filter_cons_of_pos addition]
      cases act with
      | add info => exact ih (learned.act (.add info)) (alike.add alone info) (.inl alone)
      | _ => cases addition
    | false =>
      rw [List.filter_cons_of_neg (by rw [addition]; exact Bool.false_ne_true)]
      have here := alike_act_of_question learned addition
      refine ih (learned.act act) (here.trans alike) ?_
      rw [here.directories]
      exact separate.imp id fun none act member => none act (List.mem_cons_of_mem _ member)

end

/-- No answer goes stale.  Whatever was asked and added before, the common superclass of
two classes is the one that would be found now with nothing remembered, in either order.
And unless classes are both added and loaded from files, all answers are what they would
be if nothing had been asked before. -/
theorem answers_current (graph : ClassGraph) (directories : List Directory) (acts : List Act) :
    let now := (ofGraph graph directories).afterAll acts
    (∀ first second answer, ((commonSuperclass first second).run now).1 = .ok answer →
      ((commonSuperclass first second).run now.forget).1 = .ok answer ∧
        ((commonSuperclass second first).run now.forget).1 = .ok answer) ∧
    (directories = [] ∨ (∀ act ∈ acts, act.isAddition = false) →
      let unasked := (ofGraph graph directories).afterAll (acts.filter Act.isAddition)
      (∀ first second answer, ((commonSuperclass first second).run now).1 = .ok answer ↔
        ((commonSuperclass first second).run unasked).1 = .ok answer) ∧
      ∀ name, ((superclass name).run now).1 = ((superclass name).run unasked).1 ∧
        ((isInterface name).run now).1 = ((isInterface name).run unasked).1) := by
  intro now
  have learned : Learned now := (Learned.fresh graph directories).afterAll acts
  have fresh : Learned now.forget := .fresh now.graph now.directories
  refine ⟨fun first second answer asked => ?_, fun separate => ?_⟩
  · have answered : Answered now.forget.known first second answer :=
      learned.commonSuperclass_iff.1 asked
    exact ⟨fresh.commonSuperclass_iff.2 answered, fresh.commonSuperclass_iff.2 answered.symm⟩
  · intro unasked
    have alike : Alike now unasked :=
      alike_afterAll acts (.fresh graph directories) ⟨rfl, rfl⟩ separate
    have learned' : Learned unasked := (Learned.fresh graph directories).afterAll _
    have sameKnown : now.known = unasked.known := by
      funext name
      rw [known, alike.lookup, known]
    refine ⟨fun first second answer => ?_, fun name => ?_⟩
    · rw [learned.commonSuperclass_iff, learned'.commonSuperclass_iff, sameKnown]
    · obtain ⟨_, above, -⟩ := superclass_run now name
      obtain ⟨_, above', -⟩ := superclass_run unasked name
      obtain ⟨_, kind, -⟩ := isInterface_run now name
      obtain ⟨_, kind', -⟩ := isInterface_run unasked name
      rw [above, above', kind, kind', alike.lookup]
      exact ⟨rfl, rfl⟩

/-- A class that comes late. -/
def overflow : ClassInfo :=
  ⟨{ text := "math/Overflow" }, some .throwable, [], .ofBits 0x21⟩

/-- A question about a class, which fails before that is added. -/
theorem answers_current_overflow :
    let acts := [.commonSuperclass "java/lang/Error" "math/Overflow", .add overflow,
      .superclass "math/Overflow"]
    let now := (ofGraph .standard []).afterAll acts
    let unasked := (ofGraph .standard []).afterAll [.add overflow]
    ((commonSuperclass "math/Overflow" "java/lang/Error").run now).1 = .ok "java/lang/Throwable" ∧
      ((commonSuperclass "math/Overflow" "java/lang/Error").run now.forget).1 =
        .ok "java/lang/Throwable" ∧
      ((commonSuperclass "java/lang/Error" "math/Overflow").run now.forget).1 =
        .ok "java/lang/Throwable" ∧
      ((commonSuperclass "math/Overflow" "java/lang/Error").run unasked).1 =
        .ok "java/lang/Throwable" ∧
      ((superclass "math/Overflow").run now).1 = ((superclass "math/Overflow").run unasked).1 := by
  intro acts now unasked
  have current := answers_current .standard [] acts
  have known_eq : now.known = (ClassGraph.standard.add overflow).find? := by
    have alike : Alike now unasked :=
      alike_afterAll acts (.fresh .standard []) ⟨rfl, rfl⟩ (.inl rfl)
    rw [← known_ofGraph]
    funext name
    rw [known, alike.lookup, known]
    rfl
  have found : ∀ info ∈ ClassGraph.standardClasses, now.known info.name.text = some info :=
    fun info member => known_eq ▸ find?_add_of_some (ClassGraph.standard_holds.found info member)
  have isOverflow : now.known "math/Overflow" = some overflow := by
    have missing : ClassGraph.standard.find? "math/Overflow" = none :=
      ClassGraph.standard_holds.missing _ (by decide)
    rw [known_eq, find?_add, if_pos ⟨rfl, missing⟩]
  have isError := found (ClassGraph.standardClasses.get ⟨21, by decide⟩) (List.get_mem _ _)
  have isThrowable := found (ClassGraph.standardClasses.get ⟨20, by decide⟩) (List.get_mem _ _)
  have isObject := found (ClassGraph.standardClasses.get ⟨0, by decide⟩) (List.get_mem _ _)
  have above : IsChain now.known "java/lang/Throwable" ["java/lang/Throwable", root] :=
    .next isThrowable rfl (.last isObject rfl)
  have answered : Answered now.known "math/Overflow" "java/lang/Error" "java/lang/Throwable" :=
    .searched isOverflow isError (by unfold Trivial; decide) (.next isOverflow rfl above)
      (.up (by decide) isError rfl (.here (by decide)))
  have asked := ((Learned.fresh .standard []).afterAll acts).commonSuperclass_iff.2 answered
  obtain ⟨here, swapped⟩ := current.1 _ _ _ asked
  obtain ⟨common, single⟩ := current.2 (.inl rfl)
  exact ⟨asked, here, swapped, (common _ _ _).1 asked, (single _).1⟩

end Hierarchy
end ClassFile
