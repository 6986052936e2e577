import ClassFile.Proofs.Hierarchy.Sessions

namespace ClassFile
namespace Hierarchy

/-!
# The closest common superclass

Two chains of superclasses that meet are the same from there on, so the first class of one
that lies on the other is below all the classes that they share.  The search finds it from
either side.  Chains need not end at the root: if they share no class the answer is the root
all the same, and it need not even be known.
-/

section

variable {known : String → Option ClassInfo} {first second answer : String}
  {firstChain secondChain : List String}

/-- A class on two chains that is below all the classes on both of them.  For chains that
share no class it is the root. -/
structure Closest (known : String → Option ClassInfo) (firstChain secondChain : List String)
    (answer : String) : Prop where
  shared : answer ∈ firstChain ∧ answer ∈ secondChain ∨
    answer = root ∧ firstChain.Disjoint secondChain
  least : ∀ upper ∈ firstChain, upper ∈ secondChain →
    ∃ names, IsChain known answer names ∧ upper ∈ names

theorem Meets.closest (meets : Meets known firstChain second answer)
    (other : IsChain known second secondChain) : Closest known firstChain secondChain answer := by
  rcases meets.split other with ⟨inside, front, back, rfl, before⟩ | ⟨same, apart⟩
  · constructor
    case shared => exact .inl ⟨inside, List.mem_append_right _ List.mem_cons_self⟩
    case least =>
      intro upper early late
      refine ⟨answer :: back, other.suffix, ?_⟩
      cases List.mem_append.1 late with
      | inl ahead => exact absurd early (before upper ahead)
      | inr beyond => exact beyond
  · constructor
    case shared => exact .inr ⟨same, fun upper early late => apart upper late early⟩
    case least =>
      intro upper early late
      exact absurd early (apart upper late)

/-- Two classes whose chains are known have a closest common superclass, which the search
finds. -/
theorem IsChain.exists_closest {firstInfo secondInfo : ClassInfo}
    (foundFirst : known first = some firstInfo) (foundSecond : known second = some secondInfo)
    (special : ¬ Trivial first second firstInfo secondInfo)
    (chain : IsChain known first firstChain) (other : IsChain known second secondChain) :
    ∃ answer, Answered known first second answer ∧ Closest known firstChain secondChain answer := by
  rcases other.exists_meets firstChain with ⟨answer, meets⟩
  exact ⟨answer, .searched foundFirst foundSecond special chain meets, meets.closest other⟩

end

section

variable {hierarchy : Hierarchy}

/-- Both classes are looked up before anything else, the first one first. -/
theorem searchCommon_of_lookup {first second : String} {fault : Fault}
    (absent : (do let _ ← hierarchy.lookup first; hierarchy.lookup second) = .error fault) :
    ((searchCommon first second).run hierarchy).1 = .error fault := by
  rw [searchCommon]
  rcases isInterface_run hierarchy first with ⟨middle, run, extends_, -⟩
  rcases isInterface_run middle second with ⟨after, run', -, -⟩
  cases foundFirst : hierarchy.lookup first with
  | error other =>
    rw [foundFirst] at run absent
    rw [Query.run_bind_error run, Except.error.inj absent]
  | ok firstInfo =>
    rw [foundFirst] at run absent
    rw [Query.run_bind_ok run]
    have isAbsent : hierarchy.lookup second = .error fault := absent
    rw [extends_.lookup, isAbsent] at run'
    rw [Query.run_bind_error run']

/-- Without directories, the question fails for the first class that is not in the graph. -/
theorem Learned.commonSuperclass_absent {first second : String} (learned : Learned hierarchy)
    (alone : hierarchy.directories = [])
    (absent : hierarchy.graph.find? first = none ∨ hierarchy.graph.find? second = none) :
    ((commonSuperclass first second).run hierarchy).1 =
      .error (.typeNotPresent (if hierarchy.graph.find? first = none then first else second)) := by
  rw [learned.commonSuperclass_eq]
  apply searchCommon_of_lookup
  rw [lookup_of_no_directories alone, lookup_of_no_directories alone]
  cases here : hierarchy.graph.find? first with
  | none => rfl
  | some info =>
    rw [absent.resolve_left (by simp [here])]
    rfl

/-- Questions and additions leave the directories as they are. -/
theorem directories_afterAll (learned : Learned hierarchy) (acts : List Act) :
    (hierarchy.afterAll acts).directories = hierarchy.directories := by
  induction acts generalizing hierarchy with
  | nil => rfl
  | cons act acts ih =>
    refine (ih (learned.act act)).trans ?_
    cases addition : act.isAddition with
    | false => exact (alike_act_of_question learned addition).directories
    | true =>
      cases act with
      | add info => rfl
      | _ => cases addition

end

/-- The question for a common superclass fails for the first class that is not known.  Of two
known classes the answer is the root if one of them is the root or an interface, and else the
closest common superclass where both chains are known.  The order of the classes does not
matter for whether there is an answer, nor for the answer. -/
theorem commonSuperclass_closest (graph : ClassGraph) (acts : List Act) (first second : String) :
    let now := (ofGraph graph []).afterAll acts
    let known := now.graph.find?
    let ask := fun one other => ((commonSuperclass one other).run now).1
    (known first = none ∨ known second = none →
      ask first second = .error (.typeNotPresent (if known first = none then first else second))) ∧
    (∀ firstInfo secondInfo, known first = some firstInfo → known second = some secondInfo →
      (Trivial first second firstInfo secondInfo → ask first second = .ok root) ∧
      (¬ Trivial first second firstInfo secondInfo → ∀ firstChain secondChain,
        IsChain known first firstChain → IsChain known second secondChain →
          ∃ answer, ask first second = .ok answer ∧
            Closest known firstChain secondChain answer)) ∧
    ∀ answer, ask first second = .ok answer ↔ ask second first = .ok answer := by
  intro now known ask
  have fresh : Learned (ofGraph graph []) := .fresh graph []
  have learned : Learned now := fresh.afterAll acts
  have alone : now.directories = [] := directories_afterAll fresh acts
  have asked : ∀ one other answer, ask one other = .ok answer ↔ Answered known one other answer := by
    intro one other answer
    rw [learned.commonSuperclass_iff, known_of_no_directories alone]
  refine ⟨fun absent => ?_, fun firstInfo secondInfo foundFirst foundSecond => ⟨fun atOnce => ?_,
    fun special firstChain secondChain chain other => ?_⟩, fun answer => ?_⟩
  · exact learned.commonSuperclass_absent alone absent
  · exact (asked first second root).2 (.general foundFirst foundSecond atOnce)
  · rcases chain.exists_closest foundFirst foundSecond special other with ⟨answer, answered, closest⟩
    exact ⟨answer, (asked first second answer).2 answered, closest⟩
  · rw [asked, asked]
    exact ⟨Answered.symm, Answered.symm⟩

/-- Two final classes, an interface, and a class that there is not. -/
theorem commonSuperclass_closest_standard :
    let ask := fun one other => ((commonSuperclass one other).run (ofGraph .standard [])).1
    ask root "demo/Missing" = .error (.typeNotPresent "demo/Missing") ∧
      ask "java/lang/Integer" "java/lang/Runnable" = .ok root ∧
      ask "java/lang/Integer" "java/lang/Long" = .ok "java/lang/Number" ∧
      ask "java/lang/Long" "java/lang/Integer" = .ok "java/lang/Number" := by
  intro ask
  have found : ∀ info ∈ ClassGraph.standardClasses,
      ClassGraph.standard.find? info.name.text = some info := ClassGraph.standard_holds.found
  have isObject := found (ClassGraph.standardClasses.get ⟨0, by decide⟩) (List.get_mem _ _)
  have isRunnable := found (ClassGraph.standardClasses.get ⟨3, by decide⟩) (List.get_mem _ _)
  have isNumber := found (ClassGraph.standardClasses.get ⟨9, by decide⟩) (List.get_mem _ _)
  have isInteger := found (ClassGraph.standardClasses.get ⟨10, by decide⟩) (List.get_mem _ _)
  have isLong := found (ClassGraph.standardClasses.get ⟨11, by decide⟩) (List.get_mem _ _)
  have missing : ClassGraph.standard.find? "demo/Missing" = none :=
    ClassGraph.standard_holds.missing _ (by decide)
  have top : IsChain ClassGraph.standard.find? root [root] := .last isObject rfl
  have above : IsChain ClassGraph.standard.find? "java/lang/Number" ["java/lang/Number", root] :=
    .next isNumber rfl top
  have absent := (commonSuperclass_closest .standard [] root "demo/Missing").1 (.inr missing)
  have general := ((commonSuperclass_closest .standard [] "java/lang/Integer"
    "java/lang/Runnable").2.1 _ _ isInteger isRunnable).1 (by unfold Trivial; decide)
  rcases commonSuperclass_closest .standard [] "java/lang/Integer" "java/lang/Long" with
    ⟨-, both, swapped⟩
  rcases (both _ _ isInteger isLong).2 (by unfold Trivial; decide) _ _
    (.next isInteger rfl above) (.next isLong rfl above) with ⟨answer, asked, closest⟩
  rcases closest.least "java/lang/Number" (by decide) (by decide) with ⟨names, chain, member⟩
  have isAnswer : answer = "java/lang/Number" := by
    cases closest.shared with
    | inr apart => exact (apart.2 (show root ∈ _ by decide) (by decide)).elim
    | inl inside =>
      have one : answer = "java/lang/Integer" ∨ answer = "java/lang/Number" ∨ answer = root := by
        simpa using inside.1
      have other : answer = "java/lang/Long" ∨ answer = "java/lang/Number" ∨ answer = root := by
        simpa using inside.2
      rcases one with same | same | same
      · subst same
        exact absurd other (by decide)
      · exact same
      · subst same
        rw [chain.unique top] at member
        exact absurd member (by decide)
  subst isAnswer
  have known : ClassGraph.standard.find? root ≠ none := fun none => by cases none.symm.trans isObject
  refine ⟨absent.trans ?_, general, asked, (swapped _).1 asked⟩
  exact congrArg (fun name => Except.error (Fault.typeNotPresent name)) (if_neg known)

end Hierarchy
end ClassFile
