import ClassFile.Proofs.Hierarchy.Faults

namespace ClassFile

/-!
# How far superclasses lead

The way up from a class ends at a class without a superclass or at one that is not known.
Where every way ends, none visits more classes than there are, so a search that may take
one step more than that is never cut off.  The length of the way ranks a class.  A common
superclass ranks below each of the two classes, unless it is that class.
-/

/-- Anything but having been cut off after too many steps. -/
def Fault.Finite (fault : Fault) : Prop :=
  ∀ what, fault ≠ .endless what

theorem Fault.Plain.finite {fault : Fault} (plain : fault.Plain) : fault.Finite := by
  rintro what rfl
  exact plain

namespace Hierarchy

open Fault (Finite Plain)

section

variable {known : String → Option ClassInfo} {name upper first second answer : String}
  {names others : List String}

/-- The known classes on the way up from a class, where it ends. -/
inductive Climb (known : String → Option ClassInfo) : String → List String → Prop
  | lost {name : String} (absent : known name = none) : Climb known name []
  | last {name : String} {info : ClassInfo} (found : known name = some info)
      (top : info.superclass = none) : Climb known name [name]
  | next {name : String} {info : ClassInfo} {above : ClassName} {rest : List String}
      (found : known name = some info) (up : info.superclass = some above)
      (climb : Climb known above.text rest) : Climb known name (name :: rest)

/-- No class has superclasses without end. -/
def ChainsEnd (known : String → Option ClassInfo) : Prop :=
  ∀ name, ∃ names, Climb known name names

theorem IsChain.climb (chain : IsChain known name names) : Climb known name names := by
  induction chain with
  | last found top => exact .last found top
  | next found up _ ih => exact .next found up ih

theorem Rooted.chainsEnd (rooted : Rooted known) : ChainsEnd known := by
  intro name
  cases found : known name with
  | none => exact ⟨[], .lost found⟩
  | some info =>
    obtain ⟨names, chain, -⟩ := rooted.chains name info found
    exact ⟨names, chain.climb⟩

theorem Climb.unique (climb : Climb known name names) (other : Climb known name others) :
    names = others := by
  induction climb generalizing others with
  | lost absent =>
    cases other with
    | lost => rfl
    | last found => cases absent.symm.trans found
    | next found => cases absent.symm.trans found
  | last found top =>
    cases other with
    | lost absent => cases absent.symm.trans found
    | last => rfl
    | next found' up =>
      obtain rfl := Option.some.inj (found.symm.trans found')
      cases top.symm.trans up
  | next found up climb ih =>
    cases other with
    | lost absent => cases absent.symm.trans found
    | last found' top =>
      obtain rfl := Option.some.inj (found.symm.trans found')
      cases top.symm.trans up
    | next found' up' climb' =>
      obtain rfl := Option.some.inj (found.symm.trans found')
      obtain rfl := Option.some.inj (up.symm.trans up')
      rw [ih climb']

/-- The way up gets shorter with every class on it. -/
theorem Climb.shorter (climb : Climb known name names) (member : upper ∈ names) :
    upper = name ∨ ∃ others, Climb known upper others ∧ others.length < names.length := by
  induction climb with
  | lost => cases member
  | last => exact .inl (List.mem_singleton.1 member)
  | @next name info above rest found up climb ih =>
    cases List.mem_cons.1 member with
    | inl same => exact .inl same
    | inr later =>
      right
      cases ih later with
      | inl same =>
        subst same
        exact ⟨rest, climb, Nat.lt_succ_self _⟩
      | inr less =>
        obtain ⟨others, climb', shorter⟩ := less
        exact ⟨others, climb', Nat.lt_succ_of_lt shorter⟩

theorem Climb.nodup (climb : Climb known name names) : names.Nodup := by
  induction climb with
  | lost => exact List.nodup_nil
  | last => exact List.nodup_singleton _
  | @next name info above rest found up climb ih =>
    apply List.nodup_cons.2
    constructor
    · intro member
      have whole : Climb known name (name :: rest) := .next found up climb
      cases climb.shorter member with
      | inl same =>
        have lengths := congrArg List.length (whole.unique (same ▸ climb))
        simp at lengths
      | inr less =>
        obtain ⟨others, climb', shorter⟩ := less
        rw [← whole.unique climb', List.length_cons] at shorter
        omega
    · exact ih

theorem Climb.found (climb : Climb known name names) : ∀ upper ∈ names, ∃ info, known upper = some info := by
  induction climb with
  | lost => simp
  | last found => simpa using ⟨_, found⟩
  | next found up climb ih => exact List.forall_mem_cons.2 ⟨⟨_, found⟩, ih⟩

/-- The way up visits no more classes than can be found. -/
theorem Climb.length_le {hierarchy : Hierarchy} (climb : Climb hierarchy.known name names) :
    names.length ≤ hierarchy.classCount :=
  length_le_classCount climb.nodup climb.found

/-! ## Ranks -/

/-- A common superclass is the root or on the way up from each of the classes. -/
theorem Common.above_first (common : Common known first second answer) :
    answer = root ∨ first ≠ root ∧ ∃ names, IsChain known first names ∧ answer ∈ names := by
  rcases common with answered | answered
  · cases answered with
    | general => exact .inl rfl
    | searched foundFirst foundSecond special chain meets =>
      obtain ⟨names, other⟩ := meets.exists_chain chain
      cases meets.split other with
      | inl inside => exact .inr ⟨fun same => special (.inl same), _, chain, inside.1⟩
      | inr apart => exact .inl apart.1
  · cases answered with
    | general => exact .inl rfl
    | searched foundSecond foundFirst special chain meets =>
      obtain ⟨names, other⟩ := meets.exists_chain chain
      cases meets.split other with
      | inl inside =>
        obtain ⟨-, front, back, rfl, -⟩ := inside
        refine .inr ⟨fun same => special (.inr (.inl same)), _, other, ?_⟩
        exact List.mem_append_right _ List.mem_cons_self
      | inr apart => exact .inl apart.1

/-- Ranks of classes, of which the root has the lowest and which a common superclass does
not raise. -/
structure Ranks (known : String → Option ClassInfo) (rank : String → Nat) : Prop where
  least : ∀ name, rank name = 0 ↔ name = root
  common : ∀ first second answer, Common known first second answer →
    answer = first ∨ rank answer < rank first

/-- Where every way up ends, its length ranks the classes. -/
theorem ChainsEnd.exists_ranks {hierarchy : Hierarchy} (ends : ChainsEnd hierarchy.known) :
    ∃ rank, Ranks hierarchy.known rank ∧ ∀ name, rank name ≤ hierarchy.classCount + 1 := by
  choose way climbs using ends
  refine ⟨fun name => if name = root then 0 else (way name).length + 1, ⟨?_, ?_⟩, ?_⟩
  · intro name
    simp
  · intro first second answer common
    by_cases top : answer = root
    · rw [if_pos top]
      by_cases same : first = root
      · exact .inl (top.trans same.symm)
      · rw [if_neg same]
        exact .inr (Nat.succ_pos _)
    · obtain ⟨proper, names, chain, member⟩ := common.above_first.resolve_left top
      rw [if_neg top, if_neg proper, (climbs first).unique chain.climb]
      cases chain.climb.shorter member with
      | inl same => exact .inl same
      | inr less =>
        obtain ⟨others, climb, shorter⟩ := less
        rw [(climbs answer).unique climb]
        exact .inr (Nat.succ_lt_succ shorter)
  · intro name
    dsimp only
    split
    · exact Nat.zero_le _
    · exact Nat.succ_le_succ (climbs name).length_le

end

/-! ## Searches are not cut off -/

/-- Hierarchies that say the same of every class. -/
def Agrees (origin hierarchy : Hierarchy) : Prop :=
  hierarchy.lookup = origin.lookup

section

open Query

variable {origin : Hierarchy} {name : String} {names : List String}

theorem Agrees.known {hierarchy : Hierarchy} (agrees : Agrees origin hierarchy) :
    hierarchy.known = origin.known := by
  funext name
  rw [Hierarchy.known, agrees, Hierarchy.known]

theorem find_resolves (origin : Hierarchy) (name : String) :
    Resolves (Agrees origin) Plain (find name) fun info => origin.known name = some info := by
  intro hierarchy agrees
  obtain ⟨after, run, extends_, -⟩ := find_run hierarchy name
  have fails := (find_ends name hierarchy).2
  rw [run] at fails
  refine ⟨_, after, run, extends_.lookup.trans agrees, fails, fun info found => ?_⟩
  rw [← agrees.known]
  exact known_eq_some.2 found

theorem isInterface_resolves (name : String) :
    Resolves (Agrees origin) Finite (isInterface name) fun _ => True := by
  have found := (find_resolves origin name).widen fun _ => Plain.finite
  exact found.bind fun info _ => resolves_pure trivial

/-- The way up from a class leads through its superclass. -/
theorem Climb.superclass (climb : Climb origin.known name names) :
    Resolves (Agrees origin) Finite (superclass name) fun above? =>
      ∀ above, above? = some above → ∃ rest, names = name :: rest ∧ Climb origin.known above rest := by
  have found := (find_resolves origin name).widen fun _ => Plain.finite
  refine found.bind fun info here => resolves_pure fun above same => ?_
  cases climb with
  | lost absent => cases absent.symm.trans here
  | last found top =>
    obtain rfl := Option.some.inj (found.symm.trans here)
    simp [top] at same
  | next found up climb =>
    obtain rfl := Option.some.inj (found.symm.trans here)
    simp only [up, Option.map_some, Option.some.injEq] at same
    exact ⟨_, rfl, same ▸ climb⟩

theorem chain_resolves {steps : Nat} (climb : Climb origin.known name names)
    (enough : names.length < steps) :
    Resolves (Agrees origin) Finite (chain steps name) fun _ => True := by
  induction steps generalizing name names with
  | zero => cases enough
  | succ steps ih =>
    apply climb.superclass.bind
    intro above? onward
    cases above? with
    | none => exact resolves_pure trivial
    | some above =>
      obtain ⟨rest, rfl, climb'⟩ := onward above rfl
      exact (ih climb' (Nat.lt_of_succ_lt_succ enough)).bind fun _ _ => resolves_pure trivial

theorem firstAmong_resolves (classes : List String) {steps : Nat}
    (climb : Climb origin.known name names) (enough : names.length < steps) :
    Resolves (Agrees origin) Finite (firstAmong classes steps name) fun _ => True := by
  induction steps generalizing name names with
  | zero => cases enough
  | succ steps ih =>
    rw [firstAmong]
    split
    · exact resolves_pure trivial
    · apply climb.superclass.bind
      intro above? onward
      cases above? with
      | none => exact resolves_pure trivial
      | some above =>
        obtain ⟨rest, rfl, climb'⟩ := onward above rfl
        exact ih climb' (Nat.lt_of_succ_lt_succ enough)

variable (ends : ChainsEnd origin.known) (first second : String)
include ends

theorem searchCommon_resolves :
    Resolves (Agrees origin) Finite (searchCommon first second) fun _ => True := by
  refine (isInterface_resolves first).bind fun _ _ => (isInterface_resolves second).bind fun _ _ => ?_
  split
  · exact resolves_pure trivial
  · refine resolves_get.bind fun hierarchy agrees => ?_
    have enough : ∀ {name names}, Climb origin.known name names →
        names.length < hierarchy.classCount + 1 := by
      intro name names climb
      rw [← agrees.known] at climb
      exact Nat.lt_succ_of_le climb.length_le
    obtain ⟨names, climb⟩ := ends first
    obtain ⟨others, climb'⟩ := ends second
    refine (chain_resolves climb (enough climb)).bind fun ancestors _ => ?_
    exact (firstAmong_resolves ancestors climb' (enough climb')).bind fun _ _ =>
      resolves_pure trivial

/-- Where every way up ends, the question for a common superclass is never cut off. -/
theorem commonSuperclass_resolves :
    Resolves (Follows origin) Finite (commonSuperclass first second)
      (Common origin.known first second) := by
  have asked : Resolves (Agrees origin) Finite (commonSuperclass first second) fun _ => True := by
    refine resolves_get.bind fun hierarchy _ => ?_
    split
    · exact resolves_pure trivial
    · refine (searchCommon_resolves ends first second).bind fun answer _ => ?_
      refine (resolves_modify fun hierarchy agrees => ?_).bind fun _ _ => resolves_pure trivial
      exact agrees
  exact (commonSuperclass_answers first second).resolves asked fun hierarchy follows => follows.lookup

end

end Hierarchy

end ClassFile
