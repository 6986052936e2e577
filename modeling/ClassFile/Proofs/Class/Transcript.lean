import ClassFile.Proofs.Class.Reading

namespace ClassFile

/-!
# Transcripts

A transcript is a class file as it is written.  It keeps the bytes of every entry
of the pool and all bits of the flags, where a class image keeps what they mean.
To read an image is to read a transcript and to forget these.  Where nothing is
forgotten, the image is written with the bytes of the transcript.

Readers that keep more are related to those of the image by an equation: the one is
the other after a map.  Equations of readers in a row come from those of the parts.
-/

namespace Reader

variable {α β γ : Type}

/-- A value beside the bytes that were taken for it. -/
def spanned (reader : Reader α) : Reader (α × Bytes) := do
  let before ← get
  let value ← reader
  let after ← get
  return (value, before.rest.take (after.position - before.position))

/-- Nothing may be left over. -/
def toEnd (reader : Reader α) : Reader α := do
  let value ← reader
  unless (← get).atEnd do fail .trailingBytes
  return value

theorem map_fst_spanned (reader : Reader α) : Prod.fst <$> reader.spanned = reader := by
  funext cursor
  change ((reader cursor >>= fun _ => _) >>= fun _ => _) = _
  cases reader cursor <;> rfl

theorem manyOnto_map (change : α → β) (reader : Reader α) (already : Array α) (count : Nat) :
    manyOnto (change <$> reader) (already.map change) count =
      Array.map change <$> manyOnto reader already count := by
  induction count generalizing already with
  | zero => rfl
  | succ count ih =>
    rw [manyOnto, manyOnto, map_bind, bind_map_left]
    refine bind_congr fun value => ?_
    rw [← Array.map_push, ih]

/-- Values may be changed one by one or all at the end. -/
theorem many_map (change : α → β) (reader : Reader α) (count : Nat) :
    many count (change <$> reader) = List.map change <$> many count reader := by
  have mapped := manyOnto_map change reader #[] count
  rw [Array.map_empty] at mapped
  rw [many, many, mapped, Functor.map_map, Functor.map_map]
  simp only [Array.toList_map]

theorem fail_bind (cause : Malformation) (next : α → Reader β) :
    (fail cause >>= next : Reader β) = fail cause :=
  rfl

/-- A reader that reads more than its value says, before one that does too. -/
theorem bind_of_map {reader : Reader α} {raw : Reader β} {change : β → α} {next : α → Reader γ}
    (same : reader = change <$> raw) :
    reader >>= next = raw >>= fun value => next (change value) := by
  rw [same, bind_map_left]

end Reader

namespace Takes

variable {α : Type} {reader : Reader α} {holds : Bytes → α → Prop}

theorem spanned (takes : Takes reader holds) :
    Takes reader.spanned fun bytes value => value.2 = bytes ∧ holds bytes value.1 := by
  intro cursor value after run
  rw [Reader.spanned, StateT.run_bind, StateT.run_get] at run
  rcases bind_eq_ok.mp run with ⟨⟨_, _⟩, same, run'⟩
  cases same
  rw [StateT.run_bind] at run'
  rcases bind_eq_ok.mp run' with ⟨⟨value', after'⟩, ran, last⟩
  cases last
  rcases takes _ _ _ ran with ⟨bytes, whole, moved, same, known⟩
  refine ⟨bytes, whole, moved, same, ?_, known⟩
  dsimp only
  rw [moved, Nat.add_sub_cancel_left, whole, List.take_left]

/-- All bytes were taken where nothing may be left over. -/
theorem toEnd (takes : Takes reader holds) {bytes : Bytes} {value : α}
    (run : reader.toEnd.runOn bytes = .ok value) : holds bytes value := by
  rcases map_eq_ok.mp run with ⟨⟨_, last⟩, ran, rfl⟩
  rw [Reader.toEnd, StateT.run_bind] at ran
  rcases bind_eq_ok.mp ran with ⟨⟨value', after⟩, ran', rest⟩
  rcases takes _ _ _ ran' with ⟨taken, whole, moved, same, known⟩
  rw [StateT.run_bind, StateT.run_get] at rest
  change (if after.atEnd = true then _ else _ : Reader α).run after = _ at rest
  split at rest
  · next ended =>
    -- The position is behind all bytes, so none are left after it.
    have none : after.rest = [] := by
      rw [Cursor.atEnd, decide_eq_true_iff, same, moved] at ended
      apply List.eq_nil_of_length_eq_zero
      rw [after.length_rest, same, moved]
      omega
    change bytes = _ at whole
    rw [none, List.append_nil] at whole
    cases rest
    exact whole ▸ known
  · cases rest

end Takes

/-! ## Members -/

/-- Flags that all have a meaning are written as they were. -/
theorem Access.encode_ofBits {kind : AccessKind} {flags : UInt16}
    (known : flags &&& kind.known = flags) :
    (ofBits flags : Access kind).encode = Encoding.u2 flags :=
  congrArg Encoding.u2 known

/-- A member with its flags as they are written. -/
structure MemberTranscript where
  flags : UInt16
  name : PoolIndex
  descriptor : PoolIndex
  attributes : List Attribute
deriving DecidableEq, Repr

namespace MemberTranscript

def read : Reader MemberTranscript := do
  let flags ← Reader.u2
  let name ← Constant.readIndex
  let descriptor ← Constant.readIndex
  return ⟨flags, name, descriptor, ← Attribute.readAll⟩

def readAll : Reader (List MemberTranscript) := do
  Reader.many (← Reader.word 2) read

variable {kind : AccessKind}

def member (kind : AccessKind) (written : MemberTranscript) : Member kind :=
  ⟨.ofBits written.flags, written.name, written.descriptor, written.attributes⟩

theorem member_read : Member.read = member kind <$> read := by
  rw [Member.read, read, bind_map_left, map_bind]
  refine bind_congr fun flags => ?_
  rw [map_bind]
  refine bind_congr fun name => ?_
  rw [map_bind]
  refine bind_congr fun descriptor => ?_
  rw [map_bind]
  rfl

theorem member_readAll : Member.readAll = List.map (member kind) <$> readAll := by
  rw [Member.readAll, readAll, map_bind]
  refine bind_congr fun count => ?_
  rw [member_read, Reader.many_map]

/-- All flags have a meaning. -/
def IsKnown (kind : AccessKind) (written : MemberTranscript) : Prop :=
  written.flags &&& kind.known = written.flags

instance (written : MemberTranscript) : Decidable (written.IsKnown kind) :=
  inferInstanceAs (Decidable (written.flags &&& kind.known = written.flags))

theorem takes : Takes read fun bytes written =>
    written.IsKnown kind → (written.member kind).encode = .ok bytes := by
  refine Takes.u2.bind ?_
  rintro _ flags rfl
  refine Constant.takes_index.bind fun _ name isName => ?_
  refine Constant.takes_index.bind fun _ descriptor isDescriptor => ?_
  refine Attribute.takes_all.bind fun _ attributes areAttributes => Takes.pure fun known => ?_
  refine bind_eq_ok.mpr ⟨_, isName, bind_eq_ok.mpr ⟨_, isDescriptor,
    bind_eq_ok.mpr ⟨_, areAttributes, ?_⟩⟩⟩
  change Except.ok ((Access.ofBits flags).encode ++ _ ++ _ ++ _) = _
  rw [Access.encode_ofBits known]
  simp only [List.append_assoc, List.append_nil]

theorem takes_all : Takes readAll fun bytes all =>
    (∀ written ∈ all, written.IsKnown kind) →
      Encoding.sequence Member.encode (all.map (member kind)) = .ok bytes := by
  refine (Takes.word 2).bind ?_
  rintro _ count ⟨rfl, small⟩
  refine ((@takes kind).many count).mono ?_
  rintro _ all ⟨pieces, areAll, rfl, rfl⟩ known
  refine Encoding.sequence_eq_ok.mpr ⟨?_, pieces.flatten, Encoding.each_eq_ok.mpr ⟨pieces, ?_, rfl⟩, ?_⟩
  · rwa [List.length_map]
  · rw [List.forall₂_map_left_iff]
    clear small
    induction areAll with
    | nil => exact .nil
    | cons here _ ih =>
      rw [List.forall_mem_cons] at known
      exact .cons (here known.1) (ih known.2)
  · rw [List.length_map]

end MemberTranscript

/-! ## Classes -/

/-- A class file as it is written.  Each entry of the pool stands beside its bytes. -/
structure Transcript where
  version : Version
  entries : List (Constant × Bytes)
  flags : UInt16
  thisClass : PoolIndex
  superClass : Option PoolIndex
  interfaces : List PoolIndex
  fields : List MemberTranscript
  methods : List MemberTranscript
  attributes : List Attribute
deriving DecidableEq, Repr

namespace Transcript

/-- Read entries until their slots are used up. -/
def readEntries (count stop : Nat) : Reader (List (Constant × Bytes)) := do
  if stop < count then
    let entry ← Constant.read.spanned
    let entries ← readEntries count (stop + entry.1.width)
    return entry :: entries
  else if count < stop then Reader.fail .poolOverrun
  else return []
termination_by count - stop
decreasing_by
  have := entry.1.width_pos
  omega

def read : Reader Transcript := do
  if (← Reader.take 4) ≠ ClassImage.magic then Reader.fail .noMagic
  let minor ← Reader.u2
  let major ← Reader.u2
  let entries ← readEntries (← Reader.word 2) 1
  let flags ← Reader.u2
  let thisClass ← Constant.readIndex
  let superClass ← ClassImage.readOptional
  let interfaces ← Reader.many (← Reader.word 2) Constant.readIndex
  let fields ← MemberTranscript.readAll
  let methods ← MemberTranscript.readAll
  let attributes ← Attribute.readAll
  return {
    version := ⟨minor, major⟩
    entries, flags, thisClass, superClass, interfaces, fields, methods, attributes }

def constants (written : Transcript) : List Constant :=
  written.entries.map Prod.fst

/-- The pool of a transcript, without bootstrap methods. -/
def pool (written : Transcript) : Pool :=
  .ofLists written.constants []

/-- The image of a transcript, with the bootstrap methods of the class. -/
def image (written : Transcript) (bootstraps : List BootstrapMethod) : ClassImage where
  version := written.version
  pool := .ofLists written.constants bootstraps
  access := .ofBits written.flags
  thisClass := written.thisClass
  superClass := written.superClass
  interfaces := written.interfaces
  fields := written.fields.map (MemberTranscript.member .field)
  methods := written.methods.map (MemberTranscript.member .method)
  attributes := written.attributes

/-! ### Images are read from transcripts -/

theorem readConstantsOnto_eq (count : Nat) (pool : Pool) :
    ClassImage.readConstantsOnto count pool =
      (fun entries : List (Constant × Bytes) => (entries.map Prod.fst).foldl Pool.append pool) <$>
        readEntries count pool.count := by
  generalize position : pool.count = stop
  fun_induction readEntries count stop generalizing pool with
  | case1 stop inside ih =>
    rw [ClassImage.readConstantsOnto, if_pos (position ▸ inside), map_bind,
      Reader.bind_of_map (Reader.map_fst_spanned Constant.read).symm]
    refine bind_congr fun entry => ?_
    rw [ih entry (pool.append entry.1) (by rw [ClassImage.count_append, position]), map_bind,
      ← bind_pure_comp]
    refine bind_congr fun entries => ?_
    rfl
  | case2 stop outside passed =>
    rw [ClassImage.readConstantsOnto, position, if_neg outside, if_pos passed]
    rfl
  | case3 stop outside exact_ =>
    rw [ClassImage.readConstantsOnto, position, if_neg outside, if_neg exact_]
    rfl

theorem readPool_eq :
    ClassImage.readPool = (do
      let entries ← readEntries (← Reader.word 2) 1
      return .ofLists (entries.map Prod.fst) []) := by
  rw [ClassImage.readPool]
  refine bind_congr fun count => ?_
  rw [readConstantsOnto_eq, bind_pure_comp]
  rfl

/-- To read an image is to read a transcript. -/
theorem image_read : ClassImage.read = (image · []) <$> read.toEnd := by
  rw [ClassImage.read, read, Reader.toEnd, readPool_eq, MemberTranscript.member_readAll,
    MemberTranscript.member_readAll]
  simp only [map_bind, bind_assoc]
  refine bind_congr fun magic => ?_
  split
  · simp only [Reader.fail_bind]
  · -- Both read the same parts, and differ in what they return.
    simp only [bind_assoc, pure_bind, bind_map_left]
    repeat refine bind_congr fun _ => ?_
    split <;> rfl

/-- What is parsed is a transcript with the bootstrap methods that its attributes
tell. -/
theorem parse_eq_ok {bytes : Bytes} {image : ClassImage} :
    ClassImage.parse bytes = .ok image ↔
      ∃ written bootstraps, read.toEnd.runOn bytes = .ok written ∧
        ClassImage.readBootstraps written.pool written.attributes = .ok bootstraps ∧
        written.image bootstraps = image := by
  have images : ClassImage.read.runOn bytes = (Transcript.image · []) <$> read.toEnd.runOn bytes := by
    rw [Reader.runOn, Reader.runOn, image_read, StateT.run_map, Functor.map_map, Functor.map_map]
  rw [ClassImage.parse, images, bind_map_left, bind_eq_ok]
  constructor
  · rintro ⟨written, isWritten, rest⟩
    rcases bind_eq_ok.mp rest with ⟨bootstraps, areBootstraps, last⟩
    cases last
    exact ⟨written, bootstraps, isWritten, areBootstraps, rfl⟩
  · rintro ⟨written, bootstraps, isWritten, areBootstraps, rfl⟩
    exact ⟨written, isWritten, bind_eq_ok.mpr ⟨bootstraps, areBootstraps, rfl⟩⟩

/-! ### Images are written like transcripts -/

/-- An image keeps all that the transcript says: texts are spelled in the shortest
form, and all flags have a meaning. -/
structure Faithful (written : Transcript) : Prop where
  canonical : ∀ entry ∈ written.entries, entry.1.Canonical entry.2
  flags_known : written.flags &&& AccessKind.cls.known = written.flags
  fields_known : ∀ field ∈ written.fields, field.IsKnown .field
  methods_known : ∀ method ∈ written.methods, method.IsKnown .method

theorem takes_entries (count stop : Nat) : Takes (readEntries count stop) fun bytes entries =>
    (∀ entry ∈ entries, entry.1.Canonical entry.2) →
      stop + Wide.total (entries.map Prod.fst) = count ∧
        Encoding.each Constant.encode (entries.map Prod.fst) = .ok bytes := by
  fun_induction readEntries count stop with
  | case1 stop inside ih =>
    refine Constant.takes.spanned.bind ?_
    rintro _ ⟨constant, front⟩ ⟨rfl, isFront⟩
    refine (ih ⟨constant, front⟩).bind fun back entries areEntries => Takes.pure fun canonical => ?_
    rw [List.forall_mem_cons] at canonical
    rw [List.append_nil, List.map_cons, Wide.total_cons, ← Nat.add_assoc]
    have rest := areEntries canonical.2
    exact ⟨rest.1,
      Encoding.each_cons_eq_ok.mpr ⟨front, back, isFront canonical.1, rest.2, rfl⟩⟩
  | case2 => exact Takes.fail
  | case3 stop outside exact_ =>
    refine Takes.pure fun _ => ⟨?_, rfl⟩
    rw [List.map_nil, Wide.total_nil]
    omega

theorem takes_optional : Takes ClassImage.readOptional fun bytes index? =>
    ClassImage.encodeOptional index? = .ok bytes := by
  refine Constant.takes_index.bind fun bytes index encoded => Takes.pure ?_
  rw [List.append_nil]
  split
  · next none =>
    subst none
    exact encoded
  · exact encoded

/-- The pool of a transcript is written with the bytes of its entries. -/
theorem encode_pool {constants : List Constant} {count : Nat} {bytes : Bytes}
    (small : count < 65536) (total : 1 + Wide.total constants = count)
    (encoded : Encoding.each Constant.encode constants = .ok bytes)
    (bootstraps : List BootstrapMethod) :
    (Pool.ofLists constants bootstraps).encode = .ok (BigEndian.encode 2 count ++ bytes) := by
  rw [Pool.encode, Pool.count_ofLists, total, if_pos small, Pool.toList_ofLists, encoded]
  rfl

/-- A faithful image is written with all bytes that were read. -/
theorem takes : Takes read fun bytes written =>
    written.Faithful → ∀ bootstraps, (written.image bootstraps).encode = .ok bytes := by
  refine (Takes.take 4).bind ?_
  rintro _ magic ⟨rfl, -⟩
  split
  · exact Takes.fail
  · next isMagic =>
    rw [ne_eq, not_not] at isMagic
    refine Takes.u2.bind ?_
    rintro _ minor rfl
    refine Takes.u2.bind ?_
    rintro _ major rfl
    refine (Takes.word 2).bind ?_
    rintro _ count ⟨rfl, small⟩
    refine (takes_entries count 1).bind fun pool entries isPool => ?_
    refine Takes.u2.bind ?_
    rintro _ flags rfl
    refine Constant.takes_index.bind fun _ thisClass isThis => ?_
    refine takes_optional.bind fun _ superClass isSuper => ?_
    refine (Takes.word 2).bind ?_
    rintro _ few ⟨rfl, few_small⟩
    refine (Constant.takes_index.each few).bind ?_
    rintro _ interfaces ⟨each, rfl⟩
    have areInterfaces := Encoding.sequence_eq_ok.mpr ⟨few_small, _, each, rfl⟩
    refine (@MemberTranscript.takes_all .field).bind fun _ fields areFields => ?_
    refine (@MemberTranscript.takes_all .method).bind fun _ methods areMethods => ?_
    refine Attribute.takes_all.bind fun _ attributes areAttributes => ?_
    refine Takes.pure fun faithful bootstraps => ?_
    rcases isPool faithful.canonical with ⟨total, isPool⟩
    refine bind_eq_ok.mpr ⟨_, encode_pool small total isPool bootstraps, ?_⟩
    refine bind_eq_ok.mpr ⟨_, isThis, bind_eq_ok.mpr ⟨_, isSuper, ?_⟩⟩
    refine bind_eq_ok.mpr ⟨_, areInterfaces, ?_⟩
    refine bind_eq_ok.mpr ⟨_, areFields faithful.fields_known, ?_⟩
    refine bind_eq_ok.mpr ⟨_, areMethods faithful.methods_known, ?_⟩
    refine bind_eq_ok.mpr ⟨_, areAttributes, ?_⟩
    change Except.ok (ClassImage.magic ++ (Encoding.u2 minor ++ Encoding.u2 major) ++ _ ++
      (Access.ofBits flags).encode ++ _ ++ _ ++ _ ++ _ ++ _ ++ _) = _
    rw [Access.encode_ofBits faithful.flags_known, isMagic]
    simp only [List.append_assoc, List.append_nil]

end Transcript
end ClassFile
