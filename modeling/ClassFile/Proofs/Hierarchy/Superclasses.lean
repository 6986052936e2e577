import Mathlib.Data.List.Nodup
import ClassFile.Proofs.Hierarchy.Lookup

namespace ClassFile
namespace Hierarchy

/-!
# The common superclass of two classes

`Answered` says what a search for a common superclass finds, in terms of the
classes that are known alone.  What is known only grows, and an answer once given
stays one, so the answers that a hierarchy remembers are those that it would find
anew.  Where all chains of superclasses end at the root, an answer covers both
classes, and is one of them if that covers the other.  Nothing of this depends on
which of the two was searched from.
-/

/-! ## Chains of superclasses -/

section

variable {known : String → Option ClassInfo} {name lowest : String} {names others : List String}

/-- A class and its superclasses, up to one that has none. -/
inductive IsChain (known : String → Option ClassInfo) : String → List String → Prop
  | last {name : String} {info : ClassInfo} (found : known name = some info)
      (top : info.superclass = none) : IsChain known name [name]
  | next {name : String} {info : ClassInfo} {above : ClassName} {rest : List String}
      (found : known name = some info) (up : info.superclass = some above)
      (chain : IsChain known above.text rest) : IsChain known name (name :: rest)

theorem IsChain.of_top {info : ClassInfo} (chain : IsChain known name names)
    (found : known name = some info) (top : info.superclass = none) : names = [name] := by
  cases chain with
  | last => rfl
  | next found' up =>
    rw [Option.some.inj (found.symm.trans found'), up] at top
    cases top

theorem IsChain.above {info : ClassInfo} {above : ClassName} (chain : IsChain known name names)
    (found : known name = some info) (up : info.superclass = some above) :
    ∃ rest, names = name :: rest ∧ IsChain known above.text rest := by
  cases chain with
  | last found' top =>
    rw [Option.some.inj (found.symm.trans found'), top] at up
    cases up
  | next found' up' chain =>
    rw [Option.some.inj (found.symm.trans found'), up'] at up
    obtain rfl := Option.some.inj up
    exact ⟨_, rfl, chain⟩

theorem IsChain.unique (chain : IsChain known name names) (other : IsChain known name others) :
    names = others := by
  induction chain generalizing others with
  | last found top => exact (other.of_top found top).symm
  | next found up _ ih =>
    obtain ⟨rest, rfl, onward⟩ := other.above found up
    rw [ih onward]

theorem IsChain.head (chain : IsChain known name names) : ∃ rest, names = name :: rest := by
  cases chain with
  | last => exact ⟨[], rfl⟩
  | next => exact ⟨_, rfl⟩

theorem IsChain.mem_self (chain : IsChain known name names) : name ∈ names := by
  obtain ⟨rest, rfl⟩ := chain.head
  exact List.mem_cons_self

/-- The rest of a chain is the chain of any class on it. -/
theorem IsChain.suffix {front back : List String} {upper : String}
    (chain : IsChain known name (front ++ upper :: back)) :
    IsChain known upper (upper :: back) := by
  induction front generalizing name with
  | nil =>
    obtain ⟨rest, same⟩ := chain.head
    obtain ⟨rfl, -⟩ := List.cons.inj same
    exact chain
  | cons lower front ih =>
    generalize whole : lower :: front ++ upper :: back = list at chain
    cases chain with
    | last =>
      have lengths := congrArg List.length whole
      simp only [List.cons_append, List.length_cons, List.length_append, List.length_nil] at lengths
      omega
    | next found up chain =>
      obtain ⟨-, rfl⟩ := List.cons.inj whole
      exact ih chain

theorem IsChain.found (chain : IsChain known name names) {upper : String}
    (member : upper ∈ names) : ∃ info, known upper = some info := by
  obtain ⟨front, back, rfl⟩ := List.append_of_mem member
  cases chain.suffix with
  | last found => exact ⟨_, found⟩
  | next found => exact ⟨_, found⟩

/-- A class that is its own superclass would have no chain that ends. -/
theorem IsChain.nodup (chain : IsChain known name names) : names.Nodup := by
  induction chain with
  | last => exact List.nodup_singleton _
  | next found up chain ih =>
    refine List.nodup_cons.2 ⟨fun member => ?_, ih⟩
    obtain ⟨front, back, rfl⟩ := List.append_of_mem member
    have lengths := congrArg List.length (chain.suffix.unique (.next found up chain))
    simp only [List.length_cons, List.length_append] at lengths
    omega

theorem IsChain.mono {more : String → Option ClassInfo}
    (grows : ∀ name info, known name = some info → more name = some info)
    (chain : IsChain known name names) : IsChain more name names := by
  induction chain with
  | last found top => exact .last (grows _ _ found) top
  | next found up _ ih => exact .next (grows _ _ found) up ih

/-! ## What a search finds -/

/-- Going up from a class, the first one among some classes.  Where there is
none, it is the root. -/
inductive Meets (known : String → Option ClassInfo) (among : List String) : String → String → Prop
  | here {name : String} (inside : name ∈ among) : Meets known among name name
  | up {name answer : String} {info : ClassInfo} {above : ClassName} (outside : name ∉ among)
      (found : known name = some info) (up : info.superclass = some above)
      (meets : Meets known among above.text answer) : Meets known among name answer
  | apart {name : String} {info : ClassInfo} (outside : name ∉ among)
      (found : known name = some info) (top : info.superclass = none) :
      Meets known among name root

theorem Meets.mono {more : String → Option ClassInfo} {among : List String} {answer : String}
    (grows : ∀ name info, known name = some info → more name = some info)
    (meets : Meets known among name answer) : Meets more among name answer := by
  induction meets with
  | here inside => exact .here inside
  | up outside found up _ ih => exact .up outside (grows _ _ found) up ih
  | apart outside found top => exact .apart outside (grows _ _ found) top

/-- The classes before the answer of a search are not among those looked for. -/
theorem Meets.split {among : List String} {answer : String} (meets : Meets known among name answer)
    (chain : IsChain known name names) :
    (answer ∈ among ∧ ∃ front back, names = front ++ answer :: back ∧ ∀ lower ∈ front, lower ∉ among) ∨
      (answer = root ∧ ∀ upper ∈ names, upper ∉ among) := by
  induction meets generalizing names with
  | here inside =>
    obtain ⟨rest, rfl⟩ := chain.head
    exact .inl ⟨inside, [], rest, rfl, fun _ member => absurd member List.not_mem_nil⟩
  | @up name answer _ _ outside found up _ ih =>
    obtain ⟨rest, rfl, onward⟩ := chain.above found up
    rcases ih onward with ⟨inside, front, back, rfl, before⟩ | ⟨same, apart⟩
    · refine .inl ⟨inside, name :: front, back, rfl, fun lower member => ?_⟩
      rcases List.mem_cons.1 member with rfl | later
      · exact outside
      · exact before lower later
    · refine .inr ⟨same, fun upper member => ?_⟩
      rcases List.mem_cons.1 member with rfl | later
      · exact outside
      · exact apart upper later
  | apart outside found top =>
    obtain rfl := chain.of_top found top
    refine .inr ⟨rfl, fun upper member => ?_⟩
    rw [List.mem_singleton.1 member]
    exact outside

/-- What meets a chain has a chain itself. -/
theorem Meets.exists_chain {among : List String} {answer : String}
    (meets : Meets known among name answer) (chain : IsChain known lowest among) :
    ∃ names, IsChain known name names := by
  induction meets with
  | here inside =>
    obtain ⟨front, back, rfl⟩ := List.append_of_mem inside
    exact ⟨_, chain.suffix⟩
  | up outside found up _ ih =>
    obtain ⟨names, upper⟩ := ih
    exact ⟨_, .next found up upper⟩
  | apart outside found top => exact ⟨_, .last found top⟩

/-- Going up a chain meets the first class of it that is among some classes. -/
theorem IsChain.meets {among front back : List String} {upper : String}
    (chain : IsChain known name (front ++ upper :: back)) (before : ∀ lower ∈ front, lower ∉ among)
    (inside : upper ∈ among) : Meets known among name upper := by
  induction front generalizing name with
  | nil =>
    obtain ⟨rest, same⟩ := chain.head
    obtain ⟨rfl, -⟩ := List.cons.inj same
    exact .here inside
  | cons lower front ih =>
    rw [List.forall_mem_cons] at before
    generalize whole : lower :: front ++ upper :: back = list at chain
    cases chain with
    | last found top => simp at whole
    | next found up chain =>
      obtain ⟨rfl, rfl⟩ := List.cons.inj whole
      exact .up before.1 found up (ih chain before.2)

theorem IsChain.meets_apart {among : List String} (chain : IsChain known name names)
    (apart : ∀ upper ∈ names, upper ∉ among) : Meets known among name root := by
  induction chain with
  | last found top => exact .apart (apart _ List.mem_cons_self) found top
  | next found up chain ih =>
    rw [List.forall_mem_cons] at apart
    exact .up apart.1 found up (ih apart.2)

/-- Going up a chain meets something, whatever is looked for. -/
theorem IsChain.exists_meets (chain : IsChain known name names) (among : List String) :
    ∃ answer, Meets known among name answer := by
  cases met : names.find? fun upper => decide (upper ∈ among) with
  | none =>
    have apart : ∀ upper ∈ names, upper ∉ among := by simpa using met
    exact ⟨root, chain.meets_apart apart⟩
  | some upper =>
    obtain ⟨inside, front, back, rfl, before⟩ := List.find?_eq_some_iff_append.1 met
    exact ⟨upper, chain.meets (by simpa using before) (of_decide_eq_true inside)⟩

/-- A search for a common superclass ends at once. -/
def Trivial (first second : String) (firstInfo secondInfo : ClassInfo) : Prop :=
  first = root ∨ second = root ∨ firstInfo.access.isInterface = true ∨
    secondInfo.access.isInterface = true

/-- What a search for the common superclass of two classes finds. -/
inductive Answered (known : String → Option ClassInfo) (first second : String) : String → Prop
  | general {firstInfo secondInfo : ClassInfo} (foundFirst : known first = some firstInfo)
      (foundSecond : known second = some secondInfo)
      (atOnce : Trivial first second firstInfo secondInfo) : Answered known first second root
  | searched {firstInfo secondInfo : ClassInfo} {ancestors : List String} {answer : String}
      (foundFirst : known first = some firstInfo) (foundSecond : known second = some secondInfo)
      (special : ¬ Trivial first second firstInfo secondInfo)
      (chain : IsChain known first ancestors) (meets : Meets known ancestors second answer) :
      Answered known first second answer

theorem Answered.found {first second answer : String} (answered : Answered known first second answer) :
    (∃ info, known first = some info) ∧ ∃ info, known second = some info := by
  cases answered with
  | general foundFirst foundSecond => exact ⟨⟨_, foundFirst⟩, _, foundSecond⟩
  | searched foundFirst foundSecond => exact ⟨⟨_, foundFirst⟩, _, foundSecond⟩

theorem Answered.mono {more : String → Option ClassInfo} {first second answer : String}
    (grows : ∀ name info, known name = some info → more name = some info)
    (answered : Answered known first second answer) : Answered more first second answer := by
  cases answered with
  | general foundFirst foundSecond atOnce =>
    exact .general (grows _ _ foundFirst) (grows _ _ foundSecond) atOnce
  | searched foundFirst foundSecond special chain meets =>
    exact .searched (grows _ _ foundFirst) (grows _ _ foundSecond) special (chain.mono grows)
      (meets.mono grows)

/-! ## Covering classes -/

/-- Every chain of superclasses ends at the root, and no interface is a
superclass. -/
structure Rooted (known : String → Option ClassInfo) : Prop where
  chains : ∀ name info, known name = some info →
    ∃ names, IsChain known name names ∧ names.getLast? = some root
  classes : ∀ name info above aboveInfo, known name = some info →
    info.superclass = some above → known above.text = some aboveInfo →
      aboveInfo.access.isInterface = false

/-- A class stands for itself and for everything below it, where interfaces are
only below the root. -/
def Below (known : String → Option ClassInfo) (lower upper : String) : Prop :=
  lower = upper ∨ upper = root ∨
    (∃ info, known lower = some info ∧ info.access.isInterface = false) ∧
      ∃ names, IsChain known lower names ∧ upper ∈ names

variable {lower middle upper first second answer : String}

theorem Rooted.root_mem (rooted : Rooted known) (chain : IsChain known name names) :
    root ∈ names := by
  obtain ⟨info, found⟩ := chain.found chain.mem_self
  obtain ⟨others, other, last⟩ := rooted.chains name info found
  rw [chain.unique other]
  exact List.mem_of_getLast? last

/-- The root is on its own chain only. -/
theorem Rooted.chain_root (rooted : Rooted known) (chain : IsChain known root names) :
    names = [root] := by
  obtain ⟨info, found⟩ := chain.found chain.mem_self
  obtain ⟨others, other, last⟩ := rooted.chains root info found
  rw [← chain.unique other] at last
  obtain ⟨rest, rfl⟩ := chain.head
  cases rest with
  | nil => rfl
  | cons next rest =>
    rw [List.getLast?_cons_cons] at last
    exact absurd (List.mem_of_getLast? last) (List.nodup_cons.1 chain.nodup).1

/-- All classes on a chain but the first are superclasses. -/
theorem Rooted.not_interface (rooted : Rooted known) (chain : IsChain known name names)
    (member : upper ∈ names) (proper : upper ≠ name) {info : ClassInfo}
    (found : known upper = some info) : info.access.isInterface = false := by
  induction chain with
  | last => exact absurd (List.mem_singleton.1 member) proper
  | @next name nameInfo above rest foundName up chain ih =>
    rcases List.mem_cons.1 member with same | later
    · exact absurd same proper
    · by_cases here : upper = above.text
      · subst here
        exact rooted.classes name nameInfo above info foundName up found
      · exact ih later here

/-- The root alone. -/
theorem Rooted.alone {info : ClassInfo} (found : ∀ name, known name =
    if name = root then some info else none) (top : info.superclass = none) : Rooted known := by
  refine ⟨fun name other isKnown => ?_, fun name other above _ isKnown up => ?_⟩
  · rw [found] at isKnown
    split at isKnown
    · next isRoot =>
      subst isRoot
      exact ⟨[root], .last ((found root).trans (if_pos rfl)) top, rfl⟩
    · cases isKnown
  · rw [found] at isKnown
    split at isKnown
    · obtain rfl := Option.some.inj isKnown
      rw [top] at up
      cases up
    · cases isKnown

/-- One more class, below one that is known and no interface. -/
theorem Rooted.extend (rooted : Rooted known) {more : String → Option ClassInfo}
    {info aboveInfo : ClassInfo} {above : ClassName} (fresh : known info.name.text = none)
    (found : ∀ name, more name = if name = info.name.text then some info else known name)
    (up : info.superclass = some above) (isAbove : known above.text = some aboveInfo)
    (plain : aboveInfo.access.isInterface = false) : Rooted more := by
  have grows : ∀ name other, known name = some other → more name = some other := by
    intro name other isKnown
    have different : name ≠ info.name.text := by
      rintro rfl
      rw [fresh] at isKnown
      cases isKnown
    rw [found, if_neg different, isKnown]
  have own : more info.name.text = some info := (found _).trans (if_pos rfl)
  constructor
  case chains =>
    intro name other isKnown
    rw [found] at isKnown
    split at isKnown
    · next same =>
      subst same
      obtain ⟨names, chain, last⟩ := rooted.chains above.text aboveInfo isAbove
      refine ⟨info.name.text :: names, .next own up (chain.mono grows), ?_⟩
      obtain ⟨rest, rfl⟩ := chain.head
      rw [List.getLast?_cons_cons]
      exact last
    · obtain ⟨names, chain, last⟩ := rooted.chains name other isKnown
      exact ⟨names, chain.mono grows, last⟩
  case classes =>
    intro name other next nextInfo isKnown up' isNext
    rw [found] at isKnown
    split at isKnown
    · obtain rfl := Option.some.inj isKnown
      obtain rfl := Option.some.inj (up.symm.trans up')
      obtain rfl := Option.some.inj ((grows _ _ isAbove).symm.trans isNext)
      exact plain
    · obtain ⟨names, chain, -⟩ := rooted.chains name other isKnown
      obtain ⟨rest, rfl, onward⟩ := chain.above isKnown up'
      obtain ⟨info', isKnown'⟩ := onward.found onward.mem_self
      obtain rfl := Option.some.inj ((grows _ _ isKnown').symm.trans isNext)
      exact rooted.classes name other next info' isKnown up' isKnown'

theorem Below.trans (rooted : Rooted known) (first : Below known lower middle)
    (second : Below known middle upper) : Below known lower upper := by
  rcases second with rfl | rfl | ⟨plain, names, chain, member⟩
  · exact first
  · exact .inr (.inl rfl)
  · rcases first with rfl | rfl | ⟨plain', others, other, inside⟩
    · exact .inr (.inr ⟨plain, names, chain, member⟩)
    · rw [rooted.chain_root chain, List.mem_singleton] at member
      exact .inr (.inl member)
    · obtain ⟨front, back, rfl⟩ := List.append_of_mem inside
      rw [chain.unique other.suffix] at member
      exact .inr (.inr ⟨plain', _, other, List.mem_append_right _ member⟩)

theorem Below.eq_root (rooted : Rooted known) (below : Below known root upper) : upper = root := by
  rcases below with same | same | ⟨-, names, chain, member⟩
  · exact same.symm
  · exact same
  · rw [rooted.chain_root chain] at member
    exact List.mem_singleton.1 member

/-- Where all chains end at the root, two of them meet. -/
theorem Rooted.meets (rooted : Rooted known) {ancestors : List String}
    (chain : IsChain known first ancestors) (other : IsChain known second names)
    (meets : Meets known ancestors second answer) :
    answer ∈ ancestors ∧ ∃ front back, names = front ++ answer :: back ∧
      ∀ lower ∈ front, lower ∉ ancestors := by
  rcases meets.split other with found | ⟨-, apart⟩
  · exact found
  · exact absurd (rooted.root_mem chain) (apart root (rooted.root_mem other))

/-- Where all chains end at the root, a search for two known classes finds something. -/
theorem Rooted.exists_answered (rooted : Rooted known) {firstInfo secondInfo : ClassInfo}
    (foundFirst : known first = some firstInfo) (foundSecond : known second = some secondInfo) :
    ∃ answer, Answered known first second answer := by
  by_cases atOnce : Trivial first second firstInfo secondInfo
  · exact ⟨root, .general foundFirst foundSecond atOnce⟩
  · obtain ⟨ancestors, chain, -⟩ := rooted.chains first firstInfo foundFirst
    obtain ⟨names, other, -⟩ := rooted.chains second secondInfo foundSecond
    obtain ⟨answer, meets⟩ := other.exists_meets ancestors
    exact ⟨answer, .searched foundFirst foundSecond atOnce chain meets⟩

/-- The answer of a search covers both classes. -/
theorem Answered.below (rooted : Rooted known) (answered : Answered known first second answer) :
    Below known first answer ∧ Below known second answer := by
  cases answered with
  | general => exact ⟨.inr (.inl rfl), .inr (.inl rfl)⟩
  | searched foundFirst foundSecond special chain meets =>
    rw [Trivial] at special
    simp only [not_or, Bool.not_eq_true] at special
    obtain ⟨names, other, -⟩ := rooted.chains second _ foundSecond
    obtain ⟨inside, front, back, split, -⟩ := rooted.meets chain other meets
    refine ⟨.inr (.inr ⟨⟨_, foundFirst, special.2.2.1⟩, _, chain, inside⟩),
      .inr (.inr ⟨⟨_, foundSecond, special.2.2.2⟩, names, other, ?_⟩)⟩
    rw [split]
    exact List.mem_append_right _ List.mem_cons_self

theorem Trivial.symm {firstInfo secondInfo : ClassInfo}
    (atOnce : Trivial first second firstInfo secondInfo) :
    Trivial second first secondInfo firstInfo := by
  rcases atOnce with same | same | interface | interface
  · exact .inr (.inl same)
  · exact .inl same
  · exact .inr (.inr (.inr interface))
  · exact .inr (.inr (.inl interface))

/-- Of two classes with nothing but the root in common, only the root covers the
other one. -/
theorem Trivial.eq_root {firstInfo secondInfo : ClassInfo}
    (atOnce : Trivial first second firstInfo secondInfo) (rooted : Rooted known)
    (foundFirst : known first = some firstInfo) (foundSecond : known second = some secondInfo)
    (different : first ≠ second) (below : Below known second first) : first = root := by
  rcases below with same | same | ⟨⟨info, found, plain⟩, names, chain, member⟩
  · exact absurd same.symm different
  · exact same
  · rcases atOnce with same | same | interface | interface
    · exact same
    · subst same
      rw [rooted.chain_root chain] at member
      exact List.mem_singleton.1 member
    · rw [rooted.not_interface chain member different foundFirst] at interface
      cases interface
    · rw [Option.some.inj (foundSecond.symm.trans found), plain] at interface
      cases interface

/-- A class that covers the other one is the answer. -/
theorem Answered.eq_first (rooted : Rooted known) (answered : Answered known first second answer)
    (different : first ≠ second) (below : Below known second first) : answer = first := by
  cases answered with
  | general foundFirst foundSecond atOnce =>
    exact (atOnce.eq_root rooted foundFirst foundSecond different below).symm
  | searched foundFirst foundSecond special chain meets =>
    rcases below with same | same | ⟨-, names, other, member⟩
    · exact absurd same.symm different
    · exact absurd (.inl same) special
    · obtain ⟨inside, front, back, rfl, before⟩ := rooted.meets chain other meets
      rcases List.mem_append.1 member with early | late
      · exact absurd chain.mem_self (before first early)
      · -- The first class is on the chain of the answer, which is on that of the first class.
        obtain ⟨below, above, rfl⟩ := List.append_of_mem inside
        rw [other.suffix.unique chain.suffix] at late
        obtain ⟨rest, whole⟩ := chain.head
        cases below with
        | nil => exact (List.cons.inj whole).1
        | cons lower below =>
          obtain rfl : lower = first := (List.cons.inj whole).1
          exact absurd (List.mem_append_right below late) (List.nodup_cons.1 chain.nodup).1

theorem Answered.eq_second (rooted : Rooted known) (answered : Answered known first second answer)
    (different : first ≠ second) (below : Below known first second) : answer = second := by
  cases answered with
  | general foundFirst foundSecond atOnce =>
    exact (atOnce.symm.eq_root rooted foundSecond foundFirst different.symm below).symm
  | searched foundFirst foundSecond special chain meets =>
    rcases below with same | same | ⟨-, names, other, member⟩
    · exact absurd same different
    · exact absurd (.inr (.inl same)) special
    · rw [other.unique chain] at member
      cases meets with
      | here => rfl
      | up outside => exact absurd member outside
      | apart outside => exact absurd member outside

end

/-! ## Searching -/

section

variable {first second : String}

/-- A view of a class is that of what is known of it. -/
theorem find_map_run {α : Type} (view : ClassInfo → α) (hierarchy : Hierarchy) (name : String) :
    ∃ after, (do return view (← find name) : Query α).run hierarchy =
        ((hierarchy.lookup name).map view, after) ∧
      Extends hierarchy after ∧
      ∀ info, hierarchy.lookup name = .ok info → after.graph.find? name = some info := by
  obtain ⟨after, run, extends_, kept⟩ := find_run hierarchy name
  refine ⟨after, ?_, extends_, kept⟩
  cases found : hierarchy.lookup name with
  | error fault =>
    rw [found] at run
    exact Query.run_bind_error run
  | ok info =>
    rw [found] at run
    exact Query.run_bind_ok run

theorem superclass_run (hierarchy : Hierarchy) (name : String) :
    ∃ after, (superclass name).run hierarchy =
        ((hierarchy.lookup name).map fun info => info.superclass.map ClassName.text, after) ∧
      Extends hierarchy after ∧
      ∀ info, hierarchy.lookup name = .ok info → after.graph.find? name = some info :=
  find_map_run (fun info => info.superclass.map ClassName.text) hierarchy name

theorem isInterface_run (hierarchy : Hierarchy) (name : String) :
    ∃ after, (isInterface name).run hierarchy =
        ((hierarchy.lookup name).map fun info => info.access.isInterface, after) ∧
      Extends hierarchy after ∧
      ∀ info, hierarchy.lookup name = .ok info → after.graph.find? name = some info :=
  find_map_run (fun info => info.access.isInterface) hierarchy name

/-- A question only extends a hierarchy.  An answer is one by the classes that are in the
graph then, and there is an answer if it is expected. -/
def Finds {α : Type} (hierarchy : Hierarchy) (query : Query α)
    (holds : (String → Option ClassInfo) → α → Prop) (expected : Prop) : Prop :=
  ∃ result after, query.run hierarchy = (result, after) ∧ Extends hierarchy after ∧
    (∀ answer, result = .ok answer → holds after.graph.find? answer) ∧
    (expected → ∃ answer, result = .ok answer)

variable {α β : Type} {hierarchy : Hierarchy} {expected : Prop}
  {holds : (String → Option ClassInfo) → α → Prop}

theorem finds_pure {answer : α} (here : holds hierarchy.graph.find? answer) :
    Finds hierarchy (pure answer) holds expected := by
  refine ⟨_, hierarchy, rfl, .refl hierarchy, fun other same => ?_, fun _ => ⟨_, rfl⟩⟩
  exact Except.ok.inj same ▸ here

theorem finds_throw {fault : Fault} (unexpected : ¬ expected) :
    Finds hierarchy (throw fault) holds expected :=
  ⟨_, hierarchy, rfl, .refl hierarchy, nofun, fun isExpected => absurd isExpected unexpected⟩

theorem finds_get_bind {next : Hierarchy → Query α}
    (onward : Finds hierarchy (next hierarchy) holds expected) :
    Finds hierarchy (get >>= next) holds expected := by
  rw [Finds, Query.run_bind_ok (Query.run_get hierarchy)]
  exact onward

/-- The second question is asked of what the first one leaves.  Where an answer to both is
expected, there must be one to the first. -/
theorem Finds.bind {query : Query α} {next : α → Query β} {wanted : Prop}
    {result : (String → Option ClassInfo) → β → Prop} (finds : Finds hierarchy query holds expected)
    (needs : wanted → expected)
    (onward : ∀ answer after, Extends hierarchy after → holds after.graph.find? answer →
      Finds after (next answer) result wanted) :
    Finds hierarchy (query >>= next) result wanted := by
  obtain ⟨first, after, run, extends_, here, total⟩ := finds
  cases first with
  | error fault =>
    rw [Finds, Query.run_bind_error run]
    refine ⟨_, after, rfl, extends_, nofun, fun isWanted => ?_⟩
    obtain ⟨_, same⟩ := total (needs isWanted)
    cases same
  | ok answer =>
    obtain ⟨second, last, run', extends', there, total'⟩ := onward answer after extends_ (here answer rfl)
    exact ⟨second, last, (Query.run_bind_ok run).trans run', extends_.trans extends', there, total'⟩

theorem find_map_finds (view : ClassInfo → α) (hierarchy : Hierarchy) (name : String) :
    Finds hierarchy (do return view (← find name))
      (fun graph answer => ∃ info, graph name = some info ∧ answer = view info)
      (∃ info, hierarchy.known name = some info) := by
  obtain ⟨after, run, extends_, kept⟩ := find_map_run view hierarchy name
  refine ⟨_, after, run, extends_, fun answer same => ?_, ?_⟩
  · cases found : hierarchy.lookup name with
    | error fault =>
      rw [found] at same
      cases same
    | ok info =>
      rw [found] at same
      exact ⟨info, kept info found, (Except.ok.inj same).symm⟩
  · rintro ⟨info, isKnown⟩
    rw [known_eq_some.1 isKnown]
    exact ⟨_, rfl⟩

theorem superclass_finds (hierarchy : Hierarchy) (name : String) :
    Finds hierarchy (superclass name)
      (fun graph above? => ∃ info, graph name = some info ∧ above? = info.superclass.map ClassName.text)
      (∃ info, hierarchy.known name = some info) :=
  find_map_finds (fun info => info.superclass.map ClassName.text) hierarchy name

theorem isInterface_finds (hierarchy : Hierarchy) (name : String) :
    Finds hierarchy (isInterface name)
      (fun graph answer => ∃ info, graph name = some info ∧ answer = info.access.isInterface)
      (∃ info, hierarchy.known name = some info) :=
  find_map_finds (fun info => info.access.isInterface) hierarchy name

/-- Following superclasses gives the chain of a class, if it has one that is no
longer than the steps allowed. -/
theorem chain_finds (steps : Nat) (name : String) (hierarchy : Hierarchy) :
    Finds hierarchy (chain steps name) (fun graph names => IsChain graph name names)
      (∃ names, IsChain hierarchy.known name names ∧ names.length ≤ steps) := by
  induction steps generalizing name hierarchy with
  | zero =>
    refine finds_throw ?_
    rintro ⟨names, isChain, short⟩
    obtain ⟨rest, rfl⟩ := isChain.head
    cases short
  | succ steps ih =>
    refine (superclass_finds hierarchy name).bind ?_ fun above? after extends_ here => ?_
    · rintro ⟨names, isChain, -⟩
      exact isChain.found isChain.mem_self
    obtain ⟨info, found, rfl⟩ := here
    cases up : info.superclass with
    | none => exact finds_pure (.last found up)
    | some above =>
      refine (ih above.text after).bind ?_ fun rest last extends' isRest =>
        finds_pure (.next (extends'.grows _ _ found) up isRest)
      rintro ⟨names, isChain, short⟩
      obtain ⟨rest, rfl, onward⟩ :=
        isChain.above (extends_.known ▸ known_of_find? found) up
      exact ⟨rest, extends_.known ▸ onward, Nat.le_of_succ_le_succ short⟩

/-- Going up from a class meets the first one among some classes, if the chain is
no longer than the steps allowed. -/
theorem firstAmong_finds (among : List String) (steps : Nat) (name : String)
    (hierarchy : Hierarchy) :
    Finds hierarchy (firstAmong among steps name)
      (fun graph answer? => Meets graph among name (answer?.getD root))
      (∃ names, IsChain hierarchy.known name names ∧ names.length ≤ steps) := by
  induction steps generalizing name hierarchy with
  | zero =>
    refine finds_throw ?_
    rintro ⟨names, isChain, short⟩
    obtain ⟨rest, rfl⟩ := isChain.head
    cases short
  | succ steps ih =>
    rw [firstAmong]
    by_cases inside : name ∈ among
    · rw [if_pos (List.contains_iff_mem.2 inside)]
      exact finds_pure (.here inside)
    rw [if_neg fun contains => inside (List.contains_iff_mem.1 contains)]
    refine (superclass_finds hierarchy name).bind ?_ fun above? after extends_ here => ?_
    · rintro ⟨names, isChain, -⟩
      exact isChain.found isChain.mem_self
    obtain ⟨info, found, rfl⟩ := here
    cases up : info.superclass with
    | none => exact finds_pure (.apart inside found up)
    | some above =>
      obtain ⟨result, last, run, extends', meets, total⟩ := ih above.text after
      refine ⟨result, last, run, extends', fun answer? same => ?_, ?_⟩
      · exact .up inside (extends'.grows _ _ found) up (meets answer? same)
      · rintro ⟨names, isChain, short⟩
        obtain ⟨rest, rfl, onward⟩ :=
          isChain.above (extends_.known ▸ known_of_find? found) up
        exact total ⟨rest, extends_.known ▸ onward, Nat.le_of_succ_le_succ short⟩

theorem IsChain.length_le {hierarchy : Hierarchy} {name : String} {names : List String}
    (isChain : IsChain hierarchy.known name names) : names.length ≤ hierarchy.classCount + 1 :=
  Nat.le_succ_of_le (length_le_classCount isChain.nodup fun _ member => isChain.found member)

/-- A search finds what the classes in the graph say then.  It succeeds if the known
classes have something to be found. -/
theorem searchCommon_finds (hierarchy : Hierarchy) (first second : String) :
    Finds hierarchy (searchCommon first second)
      (fun graph answer => Answered graph first second answer)
      (∃ answer, Answered hierarchy.known first second answer) := by
  rw [searchCommon]
  refine (isInterface_finds hierarchy first).bind (fun ⟨_, answered⟩ => answered.found.1) ?_
  rintro _ middle extends₁ ⟨firstInfo, foundFirst, rfl⟩
  refine (isInterface_finds middle second).bind (fun ⟨_, answered⟩ => ?_) ?_
  · rw [extends₁.known]
    exact answered.found.2
  rintro _ after extends₂ ⟨secondInfo, foundSecond, rfl⟩
  replace foundFirst := extends₂.grows _ _ foundFirst
  have sameKnown : after.known = hierarchy.known := (extends₁.trans extends₂).known
  rw [← sameKnown]
  split
  · next atOnce => exact finds_pure (.general foundFirst foundSecond atOnce)
  next special =>
  -- What is to be found was not found at once, so it has chains on both sides.
  have searched : ∀ answer, Answered after.known first second answer →
      ∃ names, IsChain after.known first names ∧ Meets after.known names second answer := by
    rintro answer (⟨isFirst, isSecond, atOnce⟩ | ⟨-, -, -, isChain, meets⟩)
    · rw [Option.some.inj (isFirst.symm.trans (known_of_find? foundFirst)),
        Option.some.inj (isSecond.symm.trans (known_of_find? foundSecond))] at atOnce
      exact absurd atOnce special
    · exact ⟨_, isChain, meets⟩
  apply finds_get_bind
  refine (chain_finds (after.classCount + 1) first after).bind ?_ fun ancestors last extends₃ isChain => ?_
  · rintro ⟨answer, answered⟩
    obtain ⟨names, isChain, -⟩ := searched answer answered
    exact ⟨names, isChain, isChain.length_le⟩
  refine (firstAmong_finds ancestors (after.classCount + 1) second last).bind ?_
    fun answer? final extends₄ meets => finds_pure ?_
  · rintro ⟨answer, answered⟩
    obtain ⟨names, isFirst, meets⟩ := searched answer answered
    obtain ⟨others, isSecond⟩ := meets.exists_chain isFirst
    exact ⟨others, extends₃.known ▸ isSecond, isSecond.length_le⟩
  · have grows := (extends₃.trans extends₄).grows
    exact .searched (grows _ _ foundFirst) (grows _ _ foundSecond) special
      (isChain.mono extends₄.grows) meets

/-! ## Remembered answers -/

/-- A hierarchy as questions and new classes leave it. -/
inductive Learned : Hierarchy → Prop
  | fresh (graph : ClassGraph) (directories : List Directory) :
      Learned (ofGraph graph directories)
  | found {before after : Hierarchy} {name : String} {result : Except Fault ClassInfo}
      (learned : Learned before) (run : (find name).run before = (result, after)) : Learned after
  | asked {before after : Hierarchy} {first second : String} {result : Except Fault String}
      (learned : Learned before)
      (run : (commonSuperclass first second).run before = (result, after)) : Learned after
  | added {before after : Hierarchy} {info result : ClassInfo} (learned : Learned before)
      (run : (add info).run before = (result, after)) : Learned after

/-- The common superclass of two classes, in whichever order they were given. -/
def Common (known : String → Option ClassInfo) (first second answer : String) : Prop :=
  Answered known first second answer ∨ Answered known second first answer

theorem Common.mono {known more : String → Option ClassInfo} {answer : String}
    (grows : ∀ name info, known name = some info → more name = some info)
    (common : Common known first second answer) : Common more first second answer :=
  common.imp (·.mono grows) (·.mono grows)

theorem Common.below {known : String → Option ClassInfo} (rooted : Rooted known)
    {answer : String} (common : Common known first second answer) :
    Below known first answer ∧ Below known second answer := by
  rcases common with answered | answered
  · exact answered.below rooted
  · exact (answered.below rooted).symm

theorem Common.eq_first {known : String → Option ClassInfo} (rooted : Rooted known)
    {answer : String} (common : Common known first second answer) (different : first ≠ second)
    (below : Below known second first) : answer = first := by
  rcases common with answered | answered
  · exact answered.eq_first rooted different below
  · exact answered.eq_second rooted different.symm below

/-- A common superclass is the root or on the chain of one of the classes. -/
theorem Common.mem {known : String → Option ClassInfo} (rooted : Rooted known) {answer : String}
    (common : Common known first second answer) :
    ∃ names, (IsChain known first names ∨ IsChain known second names) ∧ answer ∈ names := by
  have each : ∀ {one two : String}, Answered known one two answer →
      ∃ names, IsChain known one names ∧ answer ∈ names := by
    intro one two answered
    cases answered with
    | general foundFirst =>
      obtain ⟨names, chain, -⟩ := rooted.chains one _ foundFirst
      exact ⟨names, chain, rooted.root_mem chain⟩
    | searched foundFirst foundSecond special chain meets =>
      obtain ⟨names, other, -⟩ := rooted.chains two _ foundSecond
      exact ⟨_, chain, (rooted.meets chain other meets).1⟩
  rcases common with answered | answered
  · obtain ⟨names, chain, member⟩ := each answered
    exact ⟨names, .inl chain, member⟩
  · obtain ⟨names, chain, member⟩ := each answered
    exact ⟨names, .inr chain, member⟩

theorem Common.found {known : String → Option ClassInfo} (rooted : Rooted known)
    {answer : String} (common : Common known first second answer) :
    ∃ info, known answer = some info := by
  obtain ⟨names, chain | chain, member⟩ := common.mem rooted
  · exact chain.found member
  · exact chain.found member

/-- Every remembered answer follows from classes in the graph. -/
def Remembers (hierarchy : Hierarchy) : Prop :=
  ∀ first second answer, hierarchy.answers[(first, second)]? = some answer →
    Common hierarchy.graph.find? first second answer

theorem Remembers.grow {before after : Hierarchy} (remembers : Remembers before)
    (answers : after.answers = before.answers)
    (grows : ∀ name info, before.graph.find? name = some info →
      after.graph.find? name = some info) : Remembers after := by
  intro first second answer there
  rw [answers] at there
  exact (remembers first second answer there).mono grows

/-- The question for a common superclass leaves what is known as it is.  Its
answer follows from classes in the graph, and there is one if the known classes have
something to be found. -/
theorem commonSuperclass_run {hierarchy : Hierarchy} (remembers : Remembers hierarchy)
    (first second : String) :
    ∃ result after, (commonSuperclass first second).run hierarchy = (result, after) ∧
      after.lookup = hierarchy.lookup ∧ after.directories = hierarchy.directories ∧
      Remembers after ∧
      (∀ name info, hierarchy.graph.find? name = some info →
        after.graph.find? name = some info) ∧
      (∀ answer, result = .ok answer → Common after.graph.find? first second answer) ∧
      ∀ expected, Answered hierarchy.known first second expected →
        ∃ answer, result = .ok answer := by
  rw [commonSuperclass, Query.run_bind_ok (Query.run_get hierarchy)]
  generalize paired : (if second < first then (second, first) else (first, second)) = pair
  have either : ∀ {known : String → Option ClassInfo} {answer : String},
      Common known pair.1 pair.2 answer ↔ Common known first second answer := by
    intro known answer
    rw [← paired]
    split
    · exact or_comm
    · exact Iff.rfl
  cases there : hierarchy.answers[pair]? with
  | some answer =>
    refine ⟨_, hierarchy, rfl, rfl, rfl, remembers, fun _ _ found => found, fun other same => ?_,
      fun _ _ => ⟨_, rfl⟩⟩
    obtain rfl := Except.ok.inj same
    exact either.1 (remembers _ _ _ there)
  | none =>
    obtain ⟨result, after, run, extends_, partial_, total⟩ :=
      searchCommon_finds hierarchy first second
    cases result with
    | error fault =>
      rw [Query.run_bind_error run]
      exact ⟨_, after, rfl, extends_.lookup, extends_.directories, remembers.grow extends_.answers extends_.grows,
        extends_.grows, nofun, fun expected answered => total ⟨expected, answered⟩⟩
    | ok answer =>
      rw [Query.run_bind_ok run]
      have common : Common after.graph.find? first second answer := .inl (partial_ answer rfl)
      refine ⟨_, { after with answers := after.answers.insert pair answer }, rfl,
        extends_.lookup, extends_.directories, ?_, extends_.grows, fun other same => ?_, fun _ _ => ⟨_, rfl⟩⟩
      · intro one two other found
        rw [Std.HashMap.getElem?_insert] at found
        split at found
        · next same =>
          obtain rfl := Option.some.inj found
          obtain rfl : pair = (one, two) := eq_of_beq same
          exact either.2 common
        · exact remembers.grow extends_.answers extends_.grows one two other found
      · obtain rfl := Except.ok.inj same
        exact common

theorem Learned.remembers {hierarchy : Hierarchy} (learned : Learned hierarchy) :
    Remembers hierarchy := by
  induction learned with
  | fresh graph directories =>
    intro first second answer there
    rw [ofGraph, Std.HashMap.getElem?_empty] at there
    cases there
  | @found before after name result learned run remembers =>
    obtain ⟨after', run', extends_, -⟩ := find_run before name
    obtain ⟨-, rfl⟩ := Prod.mk.inj (run.symm.trans run')
    exact remembers.grow extends_.answers extends_.grows
  | @asked before after first second result learned run remembers =>
    obtain ⟨_, after', run', -, -, remembers', -⟩ := commonSuperclass_run remembers first second
    obtain ⟨-, rfl⟩ := Prod.mk.inj (run.symm.trans run')
    exact remembers'
  | @added before after info result learned run remembers =>
    obtain ⟨-, rfl⟩ := Prod.mk.inj run
    exact remembers.grow rfl fun _ _ => find?_add_of_some

end

end Hierarchy
end ClassFile
