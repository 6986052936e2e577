import ClassFile.Hierarchy.Standard
import ClassFile.Proofs.Hierarchy.Superclasses

namespace ClassFile
namespace ClassGraph

/-!
# Graphs built from the root down

A graph whose classes were added after their superclasses has only chains that
end at the root.  The standard classes are listed in that way.
-/

/-- Every class of a list comes after its superclass, which is no interface, and
no name comes twice. -/
def isOrdered : (earlier classes : List ClassInfo) → Bool
  | _, [] => true
  | earlier, info :: classes =>
    earlier.all (fun other => other.name.text != info.name.text) &&
      earlier.any (fun above =>
        info.superclass == some above.name && !above.access.isInterface) &&
      isOrdered (info :: earlier) classes

/-- The classes of a graph, all under their own names. -/
structure Holds (graph : ClassGraph) (classes : List ClassInfo) : Prop where
  found : ∀ info ∈ classes, graph.find? info.name.text = some info
  missing : ∀ name, (∀ info ∈ classes, info.name.text ≠ name) → graph.find? name = none

theorem Holds.add {graph : ClassGraph} {classes : List ClassInfo} {info : ClassInfo}
    (holds : graph.Holds classes) (fresh : ∀ other ∈ classes, other.name.text ≠ info.name.text) :
    (graph.add info).Holds (info :: classes) := by
  have absent := holds.missing info.name.text fresh
  constructor
  case found =>
    intro other member
    rw [Hierarchy.find?_add]
    rcases List.mem_cons.1 member with rfl | earlier
    · exact if_pos ⟨rfl, absent⟩
    · rw [if_neg fun same => fresh other earlier same.1.symm]
      exact holds.found other earlier
  case missing =>
    intro name different
    rw [Hierarchy.find?_add, if_neg fun same => different info List.mem_cons_self same.1]
    exact holds.missing name fun other member => different other (List.mem_cons_of_mem _ member)

theorem isOrdered_cons {info : ClassInfo} {earlier classes : List ClassInfo}
    (ordered : isOrdered earlier (info :: classes) = true) :
    (∀ other ∈ earlier, other.name.text ≠ info.name.text) ∧
      (∃ above ∈ earlier, info.superclass = some above.name ∧
        above.access.isInterface = false) ∧ isOrdered (info :: earlier) classes = true := by
  rw [isOrdered, Bool.and_eq_true, Bool.and_eq_true, List.all_eq_true, List.any_eq_true] at ordered
  obtain ⟨⟨different, above, member, isAbove⟩, rest⟩ := ordered
  rw [Bool.and_eq_true, beq_iff_eq, Bool.not_eq_true'] at isAbove
  exact ⟨fun other earlier => bne_iff_ne.1 (different other earlier), ⟨above, member, isAbove⟩, rest⟩

theorem holds_foldl {graph : ClassGraph} {earlier classes : List ClassInfo}
    (holds : graph.Holds earlier) (ordered : isOrdered earlier classes = true) :
    (classes.foldl add graph).Holds (classes.reverse ++ earlier) := by
  induction classes generalizing graph earlier with
  | nil => exact holds
  | cons info classes ih =>
    obtain ⟨fresh, -, rest⟩ := isOrdered_cons ordered
    rw [List.reverse_cons, List.append_assoc]
    exact ih (holds.add fresh) rest

theorem rooted_foldl {graph : ClassGraph} {earlier classes : List ClassInfo}
    (holds : graph.Holds earlier) (rooted : Hierarchy.Rooted graph.find?)
    (ordered : isOrdered earlier classes = true) :
    Hierarchy.Rooted (classes.foldl add graph).find? := by
  induction classes generalizing graph earlier with
  | nil => exact rooted
  | cons info classes ih =>
    obtain ⟨fresh, ⟨above, member, up, plain⟩, rest⟩ := isOrdered_cons ordered
    have absent := holds.missing info.name.text fresh
    refine ih (holds.add fresh) (rooted.extend absent (fun name => ?_) up
      (holds.found above member) plain) rest
    rw [Hierarchy.find?_add]
    by_cases same : name = info.name.text
    · rw [if_pos ⟨same.symm, same ▸ absent⟩, if_pos same]
    · rw [if_neg fun both => same both.1.symm, if_neg same]

section

variable {info : ClassInfo} {classes : List ClassInfo}

theorem holds_empty : empty.Holds [] := by
  refine ⟨fun _ member => (by cases member), fun name _ => ?_⟩
  rw [find?, empty, Std.HashMap.getElem?_empty]

theorem holds_ofList (ordered : isOrdered [info] classes = true) :
    (ofList (info :: classes)).Holds (info :: classes) := by
  have first : (empty.add info).Holds [info] := holds_empty.add fun _ member => by cases member
  obtain ⟨found, missing⟩ := holds_foldl first ordered
  have same : ∀ other, other ∈ classes.reverse ++ [info] ↔ other ∈ info :: classes := by
    intro other
    rw [List.mem_append, List.mem_reverse, List.mem_singleton, or_comm, List.mem_cons]
  exact ⟨fun other member => found other ((same other).2 member),
    fun name different => missing name fun other member => different other ((same other).1 member)⟩

/-- The chains of superclasses of an ordered list that starts with the root. -/
theorem rooted_ofList (isRoot : info.name = .object) (top : info.superclass = none)
    (ordered : isOrdered [info] classes = true) :
    Hierarchy.Rooted (ofList (info :: classes)).find? := by
  have first : (empty.add info).Holds [info] := holds_empty.add fun _ member => by cases member
  have alone : ∀ name, (empty.add info).find? name =
      if name = Hierarchy.root then some info else none := by
    intro name
    have absent := holds_empty.missing name fun _ member => by cases member
    rw [Hierarchy.find?_add, isRoot]
    by_cases same : name = Hierarchy.root
    · rw [if_pos ⟨same.symm, absent⟩, if_pos same]
    · rw [if_neg same, if_neg fun both => same both.1.symm, absent]
  have rooted := rooted_foldl first (.alone alone top) ordered
  exact rooted

end

theorem standard_isOrdered : isOrdered (standardClasses.take 1) (standardClasses.drop 1) = true := by
  decide +kernel

/-- The chains of superclasses of the standard classes end at the root. -/
theorem standard_rooted : Hierarchy.Rooted standard.find? :=
  rooted_ofList rfl rfl standard_isOrdered

theorem standard_holds : standard.Holds standardClasses :=
  holds_ofList standard_isOrdered

theorem find?_standard {info : ClassInfo} (member : info ∈ standardClasses) :
    standard.find? info.name.text = some info :=
  standard_holds.found info member

end ClassGraph
end ClassFile
