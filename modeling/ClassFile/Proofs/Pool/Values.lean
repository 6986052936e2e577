import Mathlib.Data.List.Perm.Subperm
import ClassFile.Pool.Value
import ClassFile.Proofs.Class.Transcript
import ClassFile.Proofs.Cycles
import ClassFile.Proofs.Hierarchy.Faults

namespace ClassFile

/-!
# Values without end

A computed constant has the arguments of its bootstrap method for parts, and nothing
checks them when a class file is read, so a constant may come to be a part of itself.
Reading its value goes down into the arguments one after the other and has no end if it gets
to such a constant.  `Pool.Awaits` says which argument it goes down into.  Where that leads
into no cycle, the value or a fault is there after no more levels than there are bootstrap
methods.
-/

open Fault (Plain)

section

variable {α β : Type}

theorem FailsOnly.not_cutOff {result : Except Fault α} (fails : FailsOnly Plain result) :
    ¬ CutOff result := by
  rintro ⟨what, same⟩
  exact fails _ same

/-- What is done to the elements of a list is cut off at the first one that it does not
succeed for. -/
theorem exists_of_cutOff_mapM {step : α → Except Fault β} {values : List α}
    (cut : CutOff (values.mapM step)) :
    ∃ before value after, values = before ++ value :: after ∧
      (∀ earlier ∈ before, ∃ done, step earlier = .ok done) ∧ CutOff (step value) := by
  induction values with
  | nil => exact absurd cut not_cutOff_ok
  | cons first rest ih =>
    rw [List.mapM_cons] at cut
    rcases cutOff_bind_iff.1 cut with cut | ⟨done, here, cut⟩
    · exact ⟨[], first, rest, rfl, by simp, cut⟩
    · rcases cutOff_bind_iff.1 cut with cut | ⟨others, -, cut⟩
      · rcases ih cut with ⟨before, value, after, rfl, earlier, cut⟩
        exact ⟨first :: before, value, after, rfl, List.forall_mem_cons.2 ⟨⟨done, here⟩, earlier⟩, cut⟩
      · exact absurd cut not_cutOff_ok

theorem cutOff_mapM {step : α → Except Fault β} {before after : List α} {value : α}
    (earlier : ∀ earlier ∈ before, CutOff (step earlier) ∨ ∃ done, step earlier = .ok done)
    (cut : CutOff (step value)) : CutOff ((before ++ value :: after).mapM step) := by
  induction before with
  | nil =>
    rw [List.nil_append, List.mapM_cons]
    exact cut.bind _
  | cons first before ih =>
    rw [List.cons_append, List.mapM_cons, cutOff_bind_iff]
    rcases List.forall_mem_cons.1 earlier with ⟨here | ⟨done, here⟩, earlier⟩
    · exact .inl here
    · exact .inr ⟨done, here, (ih earlier).bind _⟩

/-- A result is that of another computation unless that was cut off. -/
def Prolongs (long short : Except Fault α) : Prop :=
  CutOff short ∨ long = short

theorem Prolongs.refl (result : Except Fault α) : Prolongs result result :=
  .inr rfl

theorem Prolongs.of_ok {long short : Except Fault α} (prolongs : Prolongs long short) {value : α}
    (read : short = .ok value) : long = .ok value := by
  cases prolongs with
  | inl cut =>
    rw [read] at cut
    exact absurd cut not_cutOff_ok
  | inr same => exact same.trans read

theorem Prolongs.bind {long short : Except Fault α} {further next : α → Except Fault β}
    (prolongs : Prolongs long short) (onward : ∀ value, Prolongs (further value) (next value)) :
    Prolongs (long >>= further) (short >>= next) := by
  cases prolongs with
  | inl cut => exact .inl (cut.bind next)
  | inr same =>
    subst same
    cases long with
    | ok value => exact onward value
    | error fault => exact .refl _

theorem Prolongs.mapM {long short : α → Except Fault β}
    (each : ∀ value, Prolongs (long value) (short value)) (values : List α) :
    Prolongs (values.mapM long) (values.mapM short) := by
  induction values with
  | nil => exact .refl _
  | cons value values ih =>
    rw [List.mapM_cons, List.mapM_cons]
    exact (each value).bind fun _ => ih.bind fun _ => .refl _

end

namespace Pool

variable (pool : Pool)

theorem ownerIsInterface_plain (index : PoolIndex) : FailsOnly Plain (pool.ownerIsInterface index) := by
  refine (pool.entry_plain index).bind fun constant _ => ?_
  split
  · exact .ok _
  · exact .ok _

theorem handle_plain (index : PoolIndex) : FailsOnly Plain (pool.handle index) := by
  refine (pool.entry_plain index).bind fun constant _ => ?_
  split
  · refine (pool.ownerIsInterface_plain _).bind fun _ _ => ?_
    exact (pool.member_plain _).bind fun _ _ => .ok _
  · exact .error trivial

/-- A value is cut off where the arguments of its bootstrap method are, and only there. -/
theorem valueWithin_cutOff_iff {depth : Nat} {index : PoolIndex} :
    CutOff (pool.valueWithin (depth + 1) index) ↔ ∃ position signature texts method,
      pool.entry index = .ok (.dynamic position signature) ∧
      pool.signature signature = .ok texts ∧ pool.bootstraps[position]? = some method ∧
      CutOff (method.arguments.mapM (pool.valueWithin depth)) := by
  rw [valueWithin, cutOff_bind_iff]
  constructor
  · rintro (cut | ⟨constant, here, cut⟩)
    · exact absurd cut (pool.entry_plain index).not_cutOff
    · cases constant with
      | integer | float | long | double => exact absurd cut (FailsOnly.ok _).not_cutOff
      | string | cls | methodType =>
        exact absurd cut ((pool.utf8_plain _).bind fun _ _ => .ok _).not_cutOff
      | methodHandle =>
        exact absurd cut ((pool.handle_plain index).bind fun _ _ => .ok _).not_cutOff
      | dynamic position signature =>
        rcases cutOff_bind_iff.1 cut with cut | ⟨texts, isSignature, cut⟩
        · exact absurd cut (pool.signature_plain _).not_cutOff
        rcases cutOff_bind_iff.1 cut with cut | ⟨_, -, cut⟩
        · rw [bootstrapWith] at cut
          cases found : pool.bootstraps[position]? with
          | none =>
            rw [found] at cut
            exact absurd cut (FailsOnly.error trivial).not_cutOff
          | some method =>
            rw [found] at cut
            rcases cutOff_bind_iff.1 cut with cut | ⟨_, -, cut⟩
            · exact ⟨position, signature, texts, method, here, isSignature, found, cut⟩
            · exact absurd cut ((pool.handle_plain _).bind fun _ _ => .ok _).not_cutOff
        · exact absurd cut (FailsOnly.ok _).not_cutOff
      | _ => exact absurd cut (FailsOnly.error trivial).not_cutOff
  · rintro ⟨position, signature, texts, method, here, isSignature, found, cut⟩
    refine .inr ⟨_, here, cutOff_bind_iff.2 (.inr ⟨texts, isSignature, CutOff.bind _ ?_⟩)⟩
    rw [bootstrapWith, found]
    exact cut.bind _

theorem valueWithin_prolongs {depth more : Nat} (fewer : depth ≤ more) (index : PoolIndex) :
    Prolongs (pool.valueWithin more index) (pool.valueWithin depth index) := by
  induction depth generalizing more index with
  | zero => exact .inl ⟨_, rfl⟩
  | succ depth ih =>
    cases more with
    | zero => cases fewer
    | succ more =>
      rw [valueWithin, valueWithin]
      refine (Prolongs.refl _).bind fun constant => ?_
      cases constant with
      | dynamic position signature =>
        refine (Prolongs.refl _).bind fun texts => Prolongs.bind ?_ fun _ => .refl _
        rw [bootstrapWith, bootstrapWith]
        cases pool.bootstraps[position]? with
        | none => exact .refl _
        | some method =>
          have arguments := Prolongs.mapM (ih (Nat.le_of_succ_le_succ fewer)) method.arguments
          exact arguments.bind fun _ => .refl _
      | _ => exact .refl _

/-! ## Constants that need themselves -/

/-- There is a value at an index, through however many bootstrap methods. -/
def HasValue (index : PoolIndex) : Prop :=
  ∃ depth value, pool.valueWithin depth index = .ok value

/-- The value at an index is made of that at another one, which is read next if all the
arguments before it have values. -/
def Awaits (index argument : PoolIndex) : Prop :=
  ∃ position signature texts method before after,
    pool.entry index = .ok (.dynamic position signature) ∧
    pool.signature signature = .ok texts ∧ pool.bootstraps[position]? = some method ∧
    method.arguments = before ++ argument :: after ∧ ∀ earlier ∈ before, pool.HasValue earlier

variable {pool} {index : PoolIndex} {depth : Nat}

/-- What has a value is read to the end or not far enough. -/
theorem HasValue.cutOff_or (hasValue : pool.HasValue index) (depth : Nat) :
    CutOff (pool.valueWithin depth index) ∨ ∃ value, pool.valueWithin depth index = .ok value := by
  rcases hasValue with ⟨deep, value, here⟩
  cases Nat.le_total depth deep with
  | inl fewer =>
    cases pool.valueWithin_prolongs fewer index with
    | inl cut => exact .inl cut
    | inr same => exact .inr ⟨value, same.symm.trans here⟩
  | inr more =>
    cases pool.valueWithin_prolongs more index with
    | inl cut =>
      rw [here] at cut
      exact absurd cut not_cutOff_ok
    | inr same => exact .inr ⟨value, same.trans here⟩

theorem goesOn_of_cutOff (cut : CutOff (pool.valueWithin depth index)) :
    GoesOn pool.Awaits depth index := by
  induction depth generalizing index with
  | zero => exact .here
  | succ depth ih =>
    rcases pool.valueWithin_cutOff_iff.1 cut with
      ⟨position, signature, texts, method, here, isSignature, found, cut⟩
    rcases exists_of_cutOff_mapM cut with ⟨before, argument, after, whole, earlier, cut⟩
    refine .step ⟨position, signature, texts, method, before, after, here, isSignature, found, whole,
      fun other member => ?_⟩ (ih cut)
    exact ⟨depth, earlier other member⟩

theorem cutOff_of_leadsToCycle (leads : LeadsToCycle pool.Awaits index) (depth : Nat) :
    CutOff (pool.valueWithin depth index) := by
  induction depth generalizing index with
  | zero => exact ⟨_, rfl⟩
  | succ depth ih =>
    rcases leads.exists_next with ⟨argument, ⟨position, signature, texts, method, before, after, here,
      isSignature, found, whole, earlier⟩, leads⟩
    refine pool.valueWithin_cutOff_iff.2
      ⟨position, signature, texts, method, here, isSignature, found, ?_⟩
    rw [whole]
    exact cutOff_mapM (fun other member => (earlier other member).cutOff_or depth) (ih leads)

/-- The place of the bootstrap method of a computed constant. -/
def bootstrapPosition (pool : Pool) (index : PoolIndex) : Option Nat :=
  match pool.entry index with
  | .ok (.dynamic position _) => some position
  | _ => none

theorem Awaits.bootstrapPosition {argument : PoolIndex} (awaits : pool.Awaits index argument) :
    ∃ position < pool.bootstraps.size, pool.bootstrapPosition index = some position := by
  rcases awaits with ⟨position, signature, texts, method, before, after, here, -, found, -⟩
  have inside := (Array.getElem?_eq_some_iff.1 found).1
  exact ⟨position, inside, by rw [Pool.bootstrapPosition, here]⟩

/-- Constants of one bootstrap method have the same arguments. -/
theorem Awaits.of_bootstrapPosition {other argument beyond : PoolIndex}
    (same : pool.bootstrapPosition index = pool.bootstrapPosition other)
    (awaits : pool.Awaits index argument) (also : pool.Awaits other beyond) :
    pool.Awaits other argument := by
  rcases awaits with ⟨position, signature, texts, method, before, after, here, -, found, whole, earlier⟩
  rcases also with ⟨position', signature', texts', method', -, -, there, isSignature, -, -, -⟩
  rw [Pool.bootstrapPosition, here, Pool.bootstrapPosition, there] at same
  cases same
  exact ⟨position, signature', texts', method, before, after, there, isSignature, found, whole, earlier⟩

theorem not_cutOff_of_acyclic (acyclic : ¬ LeadsToCycle pool.Awaits index)
    (deep : pool.bootstraps.size < depth) : ¬ CutOff (pool.valueWithin depth index) := by
  intro cut
  refine acyclic ((goesOn_of_cutOff cut).leadsToCycle pool.bootstrapPosition ?_ ?_ deep)
  · intro one other next beyond same awaits also
    exact awaits.of_bootstrapPosition same also
  · intro keys distinct referring
    have contained : keys ⊆ (List.range pool.bootstraps.size).map some := by
      intro key member
      rcases referring key member with ⟨one, argument, rfl, awaits⟩
      rcases awaits.bootstrapPosition with ⟨position, inside, same⟩
      rw [same]
      exact List.mem_map_of_mem (List.mem_range.2 inside)
    simpa using (distinct.subperm contained).length_le

/-- What is read through any number of bootstrap methods is the value. -/
theorem value_eq_of_valueWithin {value : Loadable}
    (read : pool.valueWithin depth index = .ok value) : pool.value index = .ok value := by
  have acyclic : ¬ LeadsToCycle pool.Awaits index := by
    intro leads
    have cut := cutOff_of_leadsToCycle leads depth
    rw [read] at cut
    exact not_cutOff_ok cut
  have ends : ¬ CutOff (pool.value index) := not_cutOff_of_acyclic acyclic (Nat.lt_succ_self _)
  cases Nat.le_total depth (pool.bootstraps.size + 1) with
  | inl fewer => exact (pool.valueWithin_prolongs fewer index).of_ok read
  | inr more => exact ((pool.valueWithin_prolongs more index).resolve_left ends).symm.trans read

/-- Reading the value of a constant ends with a value or a fault, and then it goes down through
no more bootstrap methods than there are, unless it gets to a constant that needs itself.
Then it does not end, however many it may go down through. -/
theorem value_stops_iff (pool : Pool) (index : PoolIndex) :
    (LeadsToCycle pool.Awaits index →
      CutOff (pool.value index) ∧ ∀ depth, CutOff (pool.valueWithin depth index)) ∧
    (¬ LeadsToCycle pool.Awaits index →
      ¬ CutOff (pool.value index) ∧ ∀ depth, pool.bootstraps.size < depth →
        pool.valueWithin depth index = pool.value index) := by
  constructor
  · intro leads
    exact ⟨cutOff_of_leadsToCycle leads _, cutOff_of_leadsToCycle leads⟩
  · intro acyclic
    have ends : ¬ CutOff (pool.value index) := not_cutOff_of_acyclic acyclic (Nat.lt_succ_self _)
    refine ⟨ends, fun depth deep => ?_⟩
    exact (pool.valueWithin_prolongs (Nat.succ_le_of_lt deep) index).resolve_left ends

/-! ## A constant that is its own argument -/

/-- A class with a method that loads the constant 11.  The bootstrap method of that constant
has it as an argument. -/
def ownArgument : Bytes := [
  0xCA, 0xFE, 0xBA, 0xBE, 0, 0, 0, 55, 0, 15,
  1, 0, 1, 65, 7, 0, 1,
  1, 0, 16, 106, 97, 118, 97, 47, 108, 97, 110, 103, 47, 79, 98, 106, 101, 99, 116, 7, 0, 3,
  1, 0, 1, 102, 1, 0, 3, 40, 41, 86, 1, 0, 4, 67, 111, 100, 101,
  1, 0, 16, 66, 111, 111, 116, 115, 116, 114, 97, 112, 77, 101, 116, 104, 111, 100, 115,
  1, 0, 1, 73, 12, 0, 5, 0, 9, 17, 0, 0, 0, 10,
  12, 0, 5, 0, 6, 10, 0, 2, 0, 12, 15, 6, 0, 13,
  0, 0x21, 0, 2, 0, 4, 0, 0, 0, 0,
  0, 1, 0, 9, 0, 5, 0, 6, 0, 1, 0, 7, 0, 0, 0, 16,
  0, 1, 0, 0, 0, 0, 0, 4, 18, 11, 87, 177, 0, 0, 0, 0,
  0, 1, 0, 8, 0, 0, 0, 8, 0, 1, 0, 14, 0, 1, 0, 11]

/-- The class with its parts told apart. -/
def ownArgumentTranscript : Transcript where
  version := ⟨0, 55⟩
  entries := [
    (.utf8 "A", [1, 0, 1, 65]), (.cls 1, [7, 0, 1]),
    (.utf8 "java/lang/Object",
      [1, 0, 16, 106, 97, 118, 97, 47, 108, 97, 110, 103, 47, 79, 98, 106, 101, 99, 116]),
    (.cls 3, [7, 0, 3]), (.utf8 "f", [1, 0, 1, 102]), (.utf8 "()V", [1, 0, 3, 40, 41, 86]),
    (.utf8 "Code", [1, 0, 4, 67, 111, 100, 101]),
    (.utf8 "BootstrapMethods",
      [1, 0, 16, 66, 111, 111, 116, 115, 116, 114, 97, 112, 77, 101, 116, 104, 111, 100, 115]),
    (.utf8 "I", [1, 0, 1, 73]), (.nameAndType 5 9, [12, 0, 5, 0, 9]),
    (.dynamic 0 10, [17, 0, 0, 0, 10]), (.nameAndType 5 6, [12, 0, 5, 0, 6]),
    (.methodRef 2 12 false, [10, 0, 2, 0, 12]), (.methodHandle .invokeStatic 13, [15, 6, 0, 13])]
  flags := 0x21
  thisClass := 2
  superClass := some 4
  interfaces := []
  fields := []
  methods := [⟨9, 5, 6, [⟨7, [0, 1, 0, 0, 0, 0, 0, 4, 18, 11, 87, 177, 0, 0, 0, 0]⟩]⟩]
  attributes := [⟨8, [0, 1, 0, 14, 0, 1, 0, 11]⟩]

def ownArgumentImage : ClassImage :=
  ownArgumentTranscript.image [⟨14, [11]⟩]

theorem ownArgument_parsed : ClassImage.parse ownArgument = .ok ownArgumentImage := by
  have isWritten : Transcript.read.toEnd.runOn ownArgument = .ok ownArgumentTranscript := by
    decide +kernel
  have areBootstraps : ClassImage.readBootstraps ownArgumentTranscript.pool
      ownArgumentTranscript.attributes = .ok [⟨14, [11]⟩] := by
    decide +kernel
  exact Transcript.parse_eq_ok.2 ⟨_, _, isWritten, areBootstraps, rfl⟩

theorem ownArgument_awaits : ownArgumentImage.pool.Awaits 11 11 := by
  refine ⟨0, 10, ⟨"f", "I"⟩, ⟨14, [11]⟩, [], [], ?_, ?_, ?_, rfl, ?_⟩
  · decide +kernel
  · decide +kernel
  · decide +kernel
  · intro earlier member
    cases member

/-- The value of a constant in a class that is read without a fault may have no end. -/
theorem value_ownArgument : ∃ image, ClassImage.parse ownArgument = .ok image ∧
    CutOff (image.pool.value 11) ∧ ∀ depth, CutOff (image.pool.valueWithin depth 11) := by
  have leads : LeadsToCycle ownArgumentImage.pool.Awaits 11 :=
    ⟨11, .refl, .single ownArgument_awaits⟩
  exact ⟨_, ownArgument_parsed, cutOff_of_leadsToCycle leads _, cutOff_of_leadsToCycle leads⟩

/-- In that class, the constant that needs itself has no end, and that of a class has. -/
theorem value_stops_iff_ownArgument :
    CutOff (ownArgumentImage.pool.value 11) ∧ ¬ CutOff (ownArgumentImage.pool.value 4) := by
  have leads : LeadsToCycle ownArgumentImage.pool.Awaits 11 :=
    ⟨11, .refl, .single ownArgument_awaits⟩
  have acyclic : ¬ LeadsToCycle ownArgumentImage.pool.Awaits 4 := by
    intro leads
    rcases leads.exists_next with ⟨_, ⟨position, signature, _, _, _, _, here, -⟩, -⟩
    have isClass : ownArgumentImage.pool.entry 4 = .ok (.cls 3) := by decide +kernel
    cases isClass.symm.trans here
  exact ⟨((value_stops_iff ownArgumentImage.pool 11).1 leads).1,
    ((value_stops_iff ownArgumentImage.pool 4).2 acyclic).1⟩

end Pool
end ClassFile
