import Mathlib.Data.List.Induction
import ClassFile.Proofs.Class.Events

namespace ClassFile

/-!
# Building a class event by event

A class is built by any events in any order, of which some fail.  Whatever they
are, the pool stays grounded, the header is that of the last visit, and the
attributes of the class have names that are not that of the bootstrap methods.

The members and the attributes are those of the events that succeed, in their order.
What failed, and a method that was given up, have left nothing but constants.
-/

/-- Build by events one after the other, those that fail as far as they get. -/
def ClassBuilder.runAll (builder : ClassBuilder) (events : List ClassEvent) : ClassBuilder :=
  events.foldl (fun builder event => (event.build.run builder).2) builder

/-- The events that succeed where they are built one after the other. -/
def ClassBuilder.successes (builder : ClassBuilder) : List ClassEvent → List ClassEvent
  | [] => []
  | event :: events =>
    match event.build.run builder with
    | (.ok _, after) => event :: after.successes events
    | (.error _, after) => after.successes events

def lastVisit? (events : List ClassEvent) : Option Visit :=
  (events.filterMap ClassEvent.visit?).getLast?

namespace ClassEvent

/-- The field that an event asks for. -/
def field? : ClassEvent → Option (MemberHead .field)
  | field access name descriptor _ => some ⟨access, name, descriptor⟩
  | _ => none

/-- The method that an event asks for, unless it is given up. -/
def method? : ClassEvent → Option (MemberHead .method)
  | method access name descriptor _ true => some ⟨access, name, descriptor⟩
  | _ => none

/-- The attribute that an event asks for.  That of the bootstrap methods comes from
the pool. -/
def attr? : ClassEvent → Option (String × Bytes)
  | attr name info => if name = Attribute.bootstrapMethods then none else some (name, info)
  | _ => none

end ClassEvent

namespace ClassBuilder

variable {builder after : ClassBuilder} {event : ClassEvent} {answer : Except Fault Unit}

theorem runAll_cons (run : event.build.run builder = (answer, after)) (events : List ClassEvent) :
    builder.runAll (event :: events) = after.runAll events := by
  rw [runAll, List.foldl_cons, run]
  rfl

/-- What is known of a builder after a last visit. -/
structure Sound (visited : Option Visit) (builder : ClassBuilder) : Prop where
  grounded : Pool.Grounded builder.pool
  header : Option.Rel (fun visit header => visit.Describes builder.pool header) visited
    builder.header
  attributes : ∀ attr ∈ builder.attributes.toList, ∃ name,
    builder.pool.utf8 attr.name = .ok name ∧ name ≠ Attribute.bootstrapMethods

namespace Sound

variable {visited : Option Visit}

/-- Growth of the pool changes neither what the header nor what a name stands for. -/
theorem keeps (sound : Sound visited builder) (kept : Keeps builder after) :
    Sound visited after where
  grounded := kept.pool.grounded sound.grounded
  header := by
    rw [kept.header]
    exact optionRel_imp (fun _ _ describes => describes.grow kept.pool.extends_) sound.header
  attributes := by
    rw [kept.attributes]
    intro attr member
    rcases sound.attributes attr member with ⟨name, here, other⟩
    exact ⟨name, kept.pool.extends_.utf8 here, other⟩

theorem built (sound : Sound visited builder) (built : event.Built builder answer after) :
    Sound (event.visit?.or visited) after := by
  cases built with
  | failed keeps unvisited =>
    rw [unvisited]
    exact sound.keeps keeps
  | visit keeps describes =>
    have later := sound.keeps keeps
    exact ⟨later.grounded, .some describes, later.attributes⟩
  | field keeps | method keeps =>
    have later := sound.keeps keeps
    exact ⟨later.grounded, later.header, later.attributes⟩
  | givenUp keeps | symbol keeps => exact sound.keeps keeps
  | @attr name _ _ _ keeps other isName =>
    have later := sound.keeps keeps
    refine ⟨later.grounded, later.header, ?_⟩
    rw [Array.toList_push, List.forall_mem_append, List.forall_mem_singleton]
    exact ⟨later.attributes, name, isName, other⟩
  | place => exact ⟨sound.grounded, sound.header, sound.attributes⟩

/-- Every session is sound for its last visit. -/
theorem runAll (mode : ComputeMode) (hierarchy : Hierarchy) (events : List ClassEvent) :
    Sound (lastVisit? events) ((ofPool mode hierarchy .empty).runAll events) := by
  induction events using List.reverseRecOn with
  | nil => exact ⟨.empty, .none, fun _ member => absurd member List.not_mem_nil⟩
  | append_singleton events event ih =>
    have last : lastVisit? (events ++ [event]) = event.visit?.or (lastVisit? events) := by
      rw [lastVisit?, List.filterMap_append, List.getLast?_append]
      cases isVisit : event.visit? <;> simp [lastVisit?, isVisit]
    rw [last, ClassBuilder.runAll, List.foldl_append]
    exact ih.built (event.built _)

end Sound

/-! ## Members and attributes -/

/-- The members and the attributes of a class are those that events ask for. -/
structure Consists (events : List ClassEvent) (builder : ClassBuilder) : Prop where
  fields : List.Forall₂ (fun head field => head.Describes builder.pool field)
    (events.filterMap ClassEvent.field?) builder.fields.toList
  methods : List.Forall₂ (fun head method => head.Describes builder.pool method)
    (events.filterMap ClassEvent.method?) builder.methods.toList
  attributes : List.Forall₂ (fun asked attr =>
      builder.pool.utf8 attr.name = .ok asked.1 ∧ attr.info = asked.2)
    (events.filterMap ClassEvent.attr?) builder.attributes.toList

namespace Consists

variable {events : List ClassEvent}

theorem keeps (consists : Consists events builder) (kept : Keeps builder after) :
    Consists events after where
  fields := by
    rw [kept.fields]
    exact consists.fields.imp fun _ _ describes => describes.grow kept.pool.extends_
  methods := by
    rw [kept.methods]
    exact consists.methods.imp fun _ _ describes => describes.grow kept.pool.extends_
  attributes := by
    rw [kept.attributes]
    exact consists.attributes.imp fun _ _ known => ⟨kept.pool.extends_.utf8 known.1, known.2⟩

section

variable {α β : Type} {relation : α → β → Prop} {part? : ClassEvent → Option α} {parts : Array β}

theorem append_none (each : List.Forall₂ relation (events.filterMap part?) parts.toList)
    (none : part? event = none) :
    List.Forall₂ relation ((events ++ [event]).filterMap part?) parts.toList := by
  rwa [List.filterMap_append, List.filterMap_cons_none none, List.filterMap_nil, List.append_nil]

theorem append_some (each : List.Forall₂ relation (events.filterMap part?) parts.toList)
    {asked : α} {part : β} (some : part? event = some asked) (last : relation asked part) :
    List.Forall₂ relation ((events ++ [event]).filterMap part?) (parts.push part).toList := by
  rw [List.filterMap_append, List.filterMap_cons_some some, List.filterMap_nil, Array.toList_push]
  exact List.rel_append each (.cons last .nil)

end

/-- An event that succeeds comes last, and asks for one part at most. -/
theorem succeeded (consists : Consists events builder) (built : event.Built builder (.ok ⟨⟩) after) :
    Consists (events ++ [event]) after := by
  cases built with
  | field keeps describes =>
    have later := consists.keeps keeps
    exact ⟨append_some later.fields rfl describes, append_none later.methods rfl,
      append_none later.attributes rfl⟩
  | method keeps describes =>
    have later := consists.keeps keeps
    exact ⟨append_none later.fields rfl, append_some later.methods rfl describes,
      append_none later.attributes rfl⟩
  | attr keeps other isName =>
    have later := consists.keeps keeps
    exact ⟨append_none later.fields rfl, append_none later.methods rfl,
      append_some later.attributes (if_neg other) ⟨isName, rfl⟩⟩
  | visit keeps | givenUp keeps | symbol keeps =>
    have later := consists.keeps keeps
    exact ⟨append_none later.fields rfl, append_none later.methods rfl,
      append_none later.attributes rfl⟩
  | place =>
    exact ⟨append_none consists.fields rfl, append_none consists.methods rfl,
      append_none consists.attributes (by rw [ClassEvent.attr?, if_pos rfl])⟩

/-- An event that fails has left nothing. -/
theorem failed {fault : Fault} (consists : Consists events builder)
    (built : event.Built builder (.error fault) after) : Consists events after := by
  cases built with
  | failed keeps => exact consists.keeps keeps

theorem run (consists : Consists events builder) (more : List ClassEvent) :
    Consists (events ++ builder.successes more) (builder.runAll more) := by
  induction more generalizing events builder with
  | nil =>
    rw [successes, List.append_nil]
    exact consists
  | cons event more ih =>
    have built := event.built builder
    rcases ran : event.build.run builder with ⟨fault | _, after⟩
    all_goals rw [ran] at built
    all_goals rw [runAll_cons ran, successes, ran]
    · exact ih (consists.failed built)
    · have rest := ih (consists.succeeded built)
      rwa [List.append_assoc] at rest

/-- A class has the members and the attributes that were asked for by the events that
succeeded, in their order. -/
theorem runAll (mode : ComputeMode) (hierarchy : Hierarchy) (events : List ClassEvent) :
    Consists ((ofPool mode hierarchy .empty).successes events)
      ((ofPool mode hierarchy .empty).runAll events) :=
  @run _ [] ⟨.nil, .nil, .nil⟩ events

end Consists
end ClassBuilder
end ClassFile
