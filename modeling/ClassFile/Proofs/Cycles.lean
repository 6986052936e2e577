import Mathlib.Logic.Relation
import ClassFile.Fault

namespace ClassFile

/-!
# Relations that lead into cycles

Something that refers to other things may, by way of them, refer to itself.  From
where a cycle is reached a relation can be followed for as many steps as one likes.
Conversely, a walk that is longer than there are things to refer from has come back to one
of them.  Things that refer to the same others count as one there.

A computation that follows such references may take a number of steps only, and is cut off
after them.
-/

section

open Relation (ReflTransGen TransGen)

variable {α κ : Type} {refers : α → α → Prop} {start next : α}

/-- A relation leads from something to a cycle. -/
def LeadsToCycle (refers : α → α → Prop) (start : α) : Prop :=
  ∃ node, ReflTransGen refers start node ∧ TransGen refers node node

/-- A relation can be followed for a number of steps. -/
inductive GoesOn (refers : α → α → Prop) : Nat → α → Prop
  | here {start : α} : GoesOn refers 0 start
  | step {start next : α} {count : Nat} (refer : refers start next)
      (onward : GoesOn refers count next) : GoesOn refers (count + 1) start

theorem LeadsToCycle.of_next (refer : refers start next) (leads : LeadsToCycle refers next) :
    LeadsToCycle refers start := by
  rcases leads with ⟨node, path, cycle⟩
  exact ⟨node, path.head refer, cycle⟩

theorem LeadsToCycle.exists_next (leads : LeadsToCycle refers start) :
    ∃ next, refers start next ∧ LeadsToCycle refers next := by
  rcases leads with ⟨node, path, cycle⟩
  cases path.cases_head with
  | inl same =>
    subst same
    rcases TransGen.head'_iff.1 cycle with ⟨next, refer, back⟩
    exact ⟨next, refer, start, back, cycle⟩
  | inr onward =>
    rcases onward with ⟨next, refer, path⟩
    exact ⟨next, refer, node, path, cycle⟩

variable {key : α → κ} {bound count : Nat} {passed : List κ}

/-- A walk has passed some keys.  Under each of them something leads on to where it is now, so
it has closed a cycle when it comes to one of them again. -/
theorem GoesOn.leadsToCycle_of_passed
    (shared : ∀ one other next beyond, key one = key other → refers one next →
      refers other beyond → refers other next)
    (few : ∀ keys : List κ, keys.Nodup →
      (∀ known ∈ keys, ∃ one next, key one = known ∧ refers one next) → keys.length ≤ bound)
    (onward : GoesOn refers count start) (distinct : passed.Nodup)
    (leading : ∀ known ∈ passed, ∃ one next, key one = known ∧ refers one next ∧
      ReflTransGen refers next start)
    (long : bound < passed.length + count) : LeadsToCycle refers start := by
  classical
  induction onward generalizing passed with
  | here =>
    have short : passed.length ≤ bound := few passed distinct fun known member => by
      rcases leading known member with ⟨one, next, same, refer, -⟩
      exact ⟨one, next, same, refer⟩
    omega
  | @step start next count refer _ ih =>
    by_cases again : key start ∈ passed
    · rcases leading _ again with ⟨one, beyond, same, refer', back⟩
      have there : refers start beyond := shared one start beyond next same refer' refer
      exact ⟨start, .refl, TransGen.head' there back⟩
    · apply LeadsToCycle.of_next refer
      apply @ih (key start :: passed) (List.nodup_cons.2 ⟨again, distinct⟩)
      · intro known member
        cases List.mem_cons.1 member with
        | inl same => exact ⟨start, next, same.symm, refer, .refl⟩
        | inr earlier =>
          rcases leading known earlier with ⟨one, beyond, same, refer', back⟩
          exact ⟨one, beyond, same, refer', back.tail refer⟩
      · rw [List.length_cons]
        omega

/-- A walk that is longer than there are keys of what refers to something comes back to a
key that it has passed. -/
theorem GoesOn.leadsToCycle (key : α → κ)
    (shared : ∀ one other next beyond, key one = key other → refers one next →
      refers other beyond → refers other next)
    (few : ∀ keys : List κ, keys.Nodup →
      (∀ known ∈ keys, ∃ one next, key one = known ∧ refers one next) → keys.length ≤ bound)
    (onward : GoesOn refers count start) (long : bound < count) : LeadsToCycle refers start :=
  onward.leadsToCycle_of_passed shared few List.nodup_nil (by simp) (by simpa using long)

end

section

variable {α β : Type}

/-- A computation was cut off after the number of steps it may take. -/
def CutOff (result : Except Fault α) : Prop :=
  ∃ what, result = .error (.endless what)

theorem not_cutOff_ok {value : α} : ¬ CutOff (.ok value) := by
  rintro ⟨what, same⟩
  cases same

theorem cutOff_error {fault : Fault} :
    CutOff (.error fault : Except Fault α) ↔ ∃ what, fault = .endless what := by
  simp only [CutOff, Except.error.injEq]

/-- What is made of a result is cut off with it. -/
theorem cutOff_bind_iff {result : Except Fault α} {next : α → Except Fault β} :
    CutOff (result >>= next) ↔ CutOff result ∨ ∃ value, result = .ok value ∧ CutOff (next value) := by
  cases result with
  | ok value =>
    constructor
    · intro cut
      exact .inr ⟨value, rfl, cut⟩
    · rintro (cut | ⟨other, same, cut⟩)
      · exact absurd cut not_cutOff_ok
      · cases same
        exact cut
  | error fault =>
    constructor
    · intro cut
      exact .inl (cutOff_error.2 (cutOff_error.1 cut))
    · rintro (cut | ⟨other, same, cut⟩)
      · exact cutOff_error.2 (cutOff_error.1 cut)
      · cases same

theorem CutOff.bind {result : Except Fault α} (next : α → Except Fault β) (cut : CutOff result) :
    CutOff (result >>= next) :=
  cutOff_bind_iff.2 (.inl cut)

end

end ClassFile
