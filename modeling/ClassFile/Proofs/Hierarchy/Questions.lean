import ClassFile.Proofs.Hierarchy.Superclasses

namespace ClassFile
namespace Hierarchy

/-!
# Questions to a hierarchy that learns

A computation asks many questions, and each may find the hierarchy further on
than the one before.  What is said of the answers here rests on what all questions
keep, which mostly is what the hierarchy knew at the start.  `Resolves` is about the
answer if there is one, and about the fault if there is none.  `Answers` and `Succeeds`
are the cases where any failure will do and where there is none.
-/

/-- A hierarchy that questions may have led to from another one. -/
structure Follows (origin hierarchy : Hierarchy) : Prop where
  learned : Learned hierarchy
  lookup : hierarchy.lookup = origin.lookup

theorem Learned.follows {hierarchy : Hierarchy} (learned : Learned hierarchy) :
    Follows hierarchy hierarchy :=
  ⟨learned, rfl⟩

theorem Follows.known {origin hierarchy : Hierarchy} (follows : Follows origin hierarchy) :
    hierarchy.known = origin.known := by
  funext name
  rw [Hierarchy.known, follows.lookup, Hierarchy.known]

namespace Query

variable {α β : Type} {keeps : Hierarchy → Prop}

/-- A question keeps a property of hierarchies.  If it fails then for reasons of one kind,
and if it has an answer then one with another property. -/
def Resolves (keeps : Hierarchy → Prop) (kind : Fault → Prop) (query : Query α)
    (holds : α → Prop) : Prop :=
  ∀ hierarchy, keeps hierarchy → ∃ result after, query.run hierarchy = (result, after) ∧
    keeps after ∧ (∀ fault, result = .error fault → kind fault) ∧
      ∀ answer, result = .ok answer → holds answer

/-- A question keeps a property of hierarchies, and if it has an answer then one
with another property. -/
def Answers (keeps : Hierarchy → Prop) (query : Query α) (holds : α → Prop) : Prop :=
  ∀ hierarchy, keeps hierarchy → ∃ result after, query.run hierarchy = (result, after) ∧
    keeps after ∧ ∀ answer, result = .ok answer → holds answer

/-- A question keeps a property of hierarchies and has an answer with another
property. -/
def Succeeds (keeps : Hierarchy → Prop) (query : Query α) (holds : α → Prop) : Prop :=
  ∀ hierarchy, keeps hierarchy → ∃ answer after,
    query.run hierarchy = (.ok answer, after) ∧ keeps after ∧ holds answer

/-! ## What is said of parts -/

section

variable {kind : Fault → Prop} {holds : α → Prop}

theorem resolves_pure {answer : α} (here : holds answer) :
    Resolves keeps kind (pure answer) holds := by
  intro hierarchy kept
  exact ⟨.ok answer, hierarchy, rfl, kept, nofun, fun _ same => Except.ok.inj same ▸ here⟩

theorem resolves_throw {fault : Fault} (here : kind fault) :
    Resolves keeps kind (throw fault : Query α) holds := by
  intro hierarchy kept
  exact ⟨.error fault, hierarchy, rfl, kept, fun _ same => Except.error.inj same ▸ here, nofun⟩

theorem resolves_lift {result : Except Fault α} (fails : ∀ fault, result = .error fault → kind fault) :
    Resolves keeps kind (liftM result : Query α) fun answer => result = .ok answer := by
  intro hierarchy kept
  exact ⟨result, hierarchy, run_lift hierarchy result, kept, fails, fun _ same => same⟩

theorem resolves_get : Resolves keeps kind (get : Query Hierarchy) keeps := by
  intro hierarchy kept
  exact ⟨.ok hierarchy, hierarchy, run_get hierarchy, kept, nofun, fun _ same => Except.ok.inj same ▸ kept⟩

theorem resolves_modify {change : Hierarchy → Hierarchy}
    (keep : ∀ hierarchy, keeps hierarchy → keeps (change hierarchy)) :
    Resolves keeps kind (modify change : Query Unit) fun _ => True := by
  intro hierarchy kept
  exact ⟨.ok (), change hierarchy, rfl, keep hierarchy kept, nofun, fun _ _ => trivial⟩

theorem Resolves.mono {query : Query α} {weaker : α → Prop} (resolves : Resolves keeps kind query holds)
    (weaken : ∀ answer, holds answer → weaker answer) : Resolves keeps kind query weaker := by
  intro hierarchy kept
  obtain ⟨result, after, run, kept', fails, here⟩ := resolves hierarchy kept
  exact ⟨result, after, run, kept', fails, fun answer same => weaken answer (here answer same)⟩

theorem Resolves.widen {query : Query α} {wider : Fault → Prop}
    (resolves : Resolves keeps kind query holds) (widen : ∀ fault, kind fault → wider fault) :
    Resolves keeps wider query holds := by
  intro hierarchy kept
  obtain ⟨result, after, run, kept', fails, here⟩ := resolves hierarchy kept
  exact ⟨result, after, run, kept', fun fault same => widen fault (fails fault same), here⟩

theorem Resolves.bind {query : Query α} {next : α → Query β} {result : β → Prop}
    (first : Resolves keeps kind query holds)
    (second : ∀ answer, holds answer → Resolves keeps kind (next answer) result) :
    Resolves keeps kind (query >>= next) result := by
  intro hierarchy kept
  obtain ⟨known, middle, run, kept', fails, here⟩ := first hierarchy kept
  cases known with
  | ok answer =>
    rw [run_bind_ok run]
    exact second answer (here answer rfl) middle kept'
  | error fault =>
    rw [run_bind_error run]
    exact ⟨.error fault, middle, rfl, kept', fun _ same => Except.error.inj same ▸ fails fault rfl,
      nofun⟩

/-- Questions about the elements of a list have their answers in order. -/
theorem resolves_mapM {question : α → Query β} {holds : α → β → Prop} {values : List α}
    (each : ∀ value ∈ values, Resolves keeps kind (question value) (holds value)) :
    Resolves keeps kind (values.mapM question) (List.Forall₂ holds values) := by
  induction values with
  | nil =>
    rw [List.mapM_nil]
    exact resolves_pure .nil
  | cons value values ih =>
    rw [List.mapM_cons]
    refine (each value List.mem_cons_self).bind fun first here => ?_
    refine (ih fun other member => each other (List.mem_cons_of_mem _ member)).bind
      fun rest others => ?_
    exact resolves_pure (.cons here others)

/-- A fold over a list, where what holds in between speaks of the elements taken
so far. -/
theorem resolves_foldlM {step : β → α → Query β} (holds : List α → β → Prop) {values : List α}
    (each : ∀ taken value left, taken ++ value :: left = values → ∀ state, holds taken state →
      Resolves keeps kind (step state value) (holds (taken ++ [value])))
    {start : β} (before : holds [] start) :
    Resolves keeps kind (values.foldlM step start) (holds values) := by
  have onward : ∀ left taken state, taken ++ left = values → holds taken state →
      Resolves keeps kind (left.foldlM step state) (holds values) := by
    intro left
    induction left with
    | nil =>
      intro taken state whole here
      rw [List.append_nil] at whole
      rw [List.foldlM_nil]
      exact resolves_pure (whole ▸ here)
    | cons value left ih =>
      intro taken state whole here
      rw [List.foldlM_cons]
      refine (each taken value left whole state here).bind fun next there => ?_
      exact ih (taken ++ [value]) next (by rw [List.append_assoc]; exact whole) there
  exact onward values [] start rfl before

/-- Two things said of a question that keeps different properties. -/
theorem Answers.resolves {query : Query α} {also : Hierarchy → Prop} {weaker : α → Prop}
    (answers : Answers keeps query holds) (resolves : Resolves also kind query weaker)
    (implied : ∀ hierarchy, keeps hierarchy → also hierarchy) : Resolves keeps kind query holds := by
  intro hierarchy kept
  obtain ⟨result, after, run, kept', here⟩ := answers hierarchy kept
  obtain ⟨other, last, run', -, fails, -⟩ := resolves hierarchy (implied hierarchy kept)
  obtain ⟨rfl, rfl⟩ := Prod.mk.inj (run.symm.trans run')
  exact ⟨result, after, run, kept', fails, here⟩

/-- An answer is all that counts where any failure will do. -/
theorem resolves_anyhow {query : Query α} :
    Resolves keeps (fun _ => True) query holds ↔ Answers keeps query holds := by
  refine forall₂_congr fun hierarchy kept => exists₂_congr fun result after => ?_
  simp

/-- A question that cannot fail has an answer. -/
theorem resolves_surely {query : Query α} :
    Resolves keeps (fun _ => False) query holds ↔ Succeeds keeps query holds := by
  constructor
  · intro resolves hierarchy kept
    obtain ⟨result, after, run, kept', fails, here⟩ := resolves hierarchy kept
    cases result with
    | ok answer => exact ⟨answer, after, run, kept', here answer rfl⟩
    | error fault => exact (fails fault rfl).elim
  · intro succeeds hierarchy kept
    obtain ⟨answer, after, run, kept', here⟩ := succeeds hierarchy kept
    exact ⟨.ok answer, after, run, kept', nofun, fun _ same => Except.ok.inj same ▸ here⟩

/-! ## Answers alone -/

theorem Succeeds.answers {query : Query α} (succeeds : Succeeds keeps query holds) :
    Answers keeps query holds :=
  resolves_anyhow.1 ((resolves_surely.2 succeeds).widen fun _ => False.elim)

theorem Answers.mono {query : Query α} {weaker : α → Prop}
    (answers : Answers keeps query holds) (weaken : ∀ answer, holds answer → weaker answer) :
    Answers keeps query weaker :=
  resolves_anyhow.1 ((resolves_anyhow.2 answers).mono weaken)

theorem Succeeds.mono {query : Query α} {weaker : α → Prop}
    (succeeds : Succeeds keeps query holds) (weaken : ∀ answer, holds answer → weaker answer) :
    Succeeds keeps query weaker :=
  resolves_surely.1 ((resolves_surely.2 succeeds).mono weaken)

theorem succeeds_pure {answer : α} (here : holds answer) : Succeeds keeps (pure answer) holds :=
  resolves_surely.1 (resolves_pure here)

theorem answers_throw {fault : Fault} : Answers keeps (throw fault : Query α) holds :=
  resolves_anyhow.1 (resolves_throw trivial)

theorem answers_lift (result : Except Fault α) :
    Answers keeps (liftM result : Query α) fun answer => result = .ok answer :=
  resolves_anyhow.1 (resolves_lift fun _ _ => trivial)

theorem answers_get : Answers keeps (get : Query Hierarchy) fun _ => True :=
  resolves_anyhow.1 (resolves_get.mono fun _ _ => trivial)

theorem Answers.bind {query : Query α} {next : α → Query β} {after : β → Prop}
    (first : Answers keeps query holds)
    (second : ∀ answer, holds answer → Answers keeps (next answer) after) :
    Answers keeps (query >>= next) after :=
  resolves_anyhow.1 ((resolves_anyhow.2 first).bind fun answer here =>
    resolves_anyhow.2 (second answer here))

end

theorem answers_mapM {question : α → Query β} {holds : α → β → Prop} {values : List α}
    (each : ∀ value ∈ values, Answers keeps (question value) (holds value)) :
    Answers keeps (values.mapM question) (List.Forall₂ holds values) :=
  resolves_anyhow.1 (resolves_mapM fun value member => resolves_anyhow.2 (each value member))

theorem answers_foldlM {step : β → α → Query β} (holds : List α → β → Prop) {values : List α}
    (each : ∀ taken value left, taken ++ value :: left = values → ∀ state, holds taken state →
      Answers keeps (step state value) (holds (taken ++ [value])))
    {start : β} (before : holds [] start) :
    Answers keeps (values.foldlM step start) (holds values) :=
  resolves_anyhow.1 (resolves_foldlM holds
    (fun taken value left whole state here => resolves_anyhow.2 (each taken value left whole state here))
    before)

end Query

/-- Any answer is a common superclass. -/
theorem commonSuperclass_answers {origin : Hierarchy} (first second : String) :
    Query.Answers (Follows origin) (commonSuperclass first second)
      (Common origin.known first second) := by
  intro hierarchy follows
  obtain ⟨result, after, run, lookup, -, -, -, partial_, -⟩ :=
    commonSuperclass_run follows.learned.remembers first second
  have follows' : Follows origin after :=
    ⟨.asked follows.learned run, lookup.trans follows.lookup⟩
  refine ⟨result, after, run, follows', fun answer same => ?_⟩
  rw [← follows'.known]
  exact (partial_ answer same).mono fun name info there => known_of_find? there

/-- Two known classes have a common superclass where all chains end at the
root. -/
theorem commonSuperclass_succeeds {origin : Hierarchy} (rooted : Rooted origin.known)
    {first second : String} (firstKnown : ∃ info, origin.known first = some info)
    (secondKnown : ∃ info, origin.known second = some info) :
    Query.Succeeds (Follows origin) (commonSuperclass first second) (Common origin.known first second) := by
  intro hierarchy follows
  obtain ⟨result, after, run, follows', common⟩ :=
    commonSuperclass_answers first second hierarchy follows
  obtain ⟨_, _, run', -, -, -, -, -, total⟩ :=
    commonSuperclass_run follows.learned.remembers first second
  obtain ⟨rfl, rfl⟩ := Prod.mk.inj (run.symm.trans run')
  rw [follows.known] at total
  obtain ⟨firstInfo, foundFirst⟩ := firstKnown
  obtain ⟨secondInfo, foundSecond⟩ := secondKnown
  obtain ⟨expected, answered⟩ := rooted.exists_answered foundFirst foundSecond
  obtain ⟨answer, rfl⟩ := total expected answered
  exact ⟨answer, after, run, follows', common answer rfl⟩

end Hierarchy
end ClassFile
