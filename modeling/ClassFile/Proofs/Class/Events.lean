import ClassFile.Class.Builder
import ClassFile.Proofs.Pool.Additions
import ClassFile.Proofs.Pool.Along

namespace ClassFile

/-!
# Events that build a class

A class is built by events, of which some fail.  What fails is not undone: constants
that it added before stay in the pool.  So every step is first said to let the pool
grow, whatever comes of it, and the rest is put together from such steps.

What an event leaves is said once, by `ClassEvent.Built`.  An event that fails has
changed nothing but the pool.  One that succeeds has added at most one part to the
class, of which the names are in the pool.  A visit and an attribute cannot fail.
-/

/-- A piece of a method. -/
inductive MethodPiece
  | label (number : Nat)
  | newLabel
  | instruction (found : Instruction)
  | branch (found : Branch Nat Nat Unit)
  | lookupSwitch (otherwise : Nat) (pairs : List (Int32 × Nat))
  | returnResult
  | pushInt (value : Int32)
  | accessField (access : FieldAccess) (owner name descriptor : String)
  | invoke (kind : CallKind) (owner name descriptor : String) (ownerIsInterface : Bool)
  | invokeDynamic (name descriptor : String) (method : Handle) (arguments : List Loadable)
  | withClass (op : ClassOp) (name : String)
  | newMultiArray (descriptor : String) (dimensions : UInt8)
  | load (value : Loadable)
  | handler (start stop entry : Nat) (catches : Option String)
  | frame (locals operands : List BlockType)
  | limits (found : Limits)
  | attach (name : String) (info : Bytes)

namespace MethodPiece

def record : MethodPiece → Record Unit
  | label number => Record.label number
  | newLabel => do let _ ← Record.newLabels 1
  | instruction found => Record.instruction found
  | branch found => Record.branch found
  | lookupSwitch otherwise pairs => Record.lookupSwitch otherwise pairs
  | returnResult => Record.returnResult
  | pushInt value => Record.pushInt value
  | accessField access owner name descriptor => Record.accessField access owner name descriptor
  | invoke kind owner name descriptor ownerIsInterface =>
    Record.invoke kind owner name descriptor ownerIsInterface
  | invokeDynamic name descriptor method arguments =>
    Record.invokeDynamic name descriptor method arguments
  | withClass op name => Record.withClass op name
  | newMultiArray descriptor dimensions => Record.newMultiArray descriptor dimensions
  | load value => Record.load value
  | handler start stop entry catches => Record.handler start stop entry catches
  | frame locals operands => Record.frame locals operands
  | limits found => Record.limits found
  | attach name info => Record.attach name info

/-- Record pieces, skipping those that fail. -/
def recordAll (pieces : List MethodPiece) : Record Unit :=
  pieces.forM fun piece => tryCatch piece.record fun _ => return ()

end MethodPiece

/-- What is said about a class as a whole. -/
structure Visit where
  version : Version
  access : Access .cls
  name : String
  superName : Option String
  interfaceNames : List String

/-- A part of a class to be built.  A method that is not finished is given up. -/
inductive ClassEvent
  | visit (header : Visit)
  | field (access : Access .field) (name descriptor : String) (value : Option Loadable)
  | method (access : Access .method) (name descriptor : String) (pieces : List MethodPiece)
      (isFinished : Bool)
  | attr (name : String) (info : Bytes)
  | symbol (addition : Pool.Addition)

namespace ClassEvent

def build : ClassEvent → Build Unit
  | visit ⟨version, access, name, superName, interfaceNames⟩ =>
    Build.setHeader version access name superName interfaceNames
  | field access name descriptor value => Build.addField access name descriptor value
  | method access name descriptor pieces isFinished => do
    let draft ← Build.beginMethod access name descriptor
    let (_, draft) ← Build.recording draft (MethodPiece.recordAll pieces)
    if isFinished then Build.endMethod draft
  | attr name info => Build.addAttribute name info
  | symbol addition => do let _ ← Build.symbol addition.request

def visit? : ClassEvent → Option Visit
  | visit header => some header
  | _ => none

end ClassEvent

/-! ## Recording -/

/-- A method is the same one, whatever else was recorded of it. -/
structure MethodDraft.SameHead (before after : MethodDraft) : Prop where
  access : after.access = before.access
  name : after.name = before.name
  descriptor : after.descriptor = before.descriptor
  context : after.context = before.context

structure Record.State.Grows (before after : Record.State) : Prop where
  pool : Pool.Grows before.pool after.pool
  head : MethodDraft.SameHead before.draft after.draft

instance : IsPreorder Record.State Record.State.Grows where
  refl now := ⟨refl_of Pool.Grows now.pool, rfl, rfl, rfl, rfl⟩
  trans _ _ _ first second := ⟨trans_of Pool.Grows first.pool second.pool,
    second.head.access.trans first.head.access, second.head.name.trans first.head.name,
    second.head.descriptor.trans first.head.descriptor,
    second.head.context.trans first.head.context⟩

namespace Record

open Record.State

theorem along_symbol {α : Type} {request : Pool.Request α} (along : Along Pool.Grows request) :
    Along Grows (symbol request) :=
  fun now => ⟨along now.pool, rfl, rfl, rfl, rfl⟩

/-- Changes of the draft leave the pool alone. -/
theorem along_update {change : MethodDraft → MethodDraft}
    (same : ∀ draft : MethodDraft, draft.SameHead (change draft)) : Along Grows (update change) :=
  fun now => ⟨refl_of Pool.Grows now.pool, same now.draft⟩

theorem along_item (item : Item) : Along Grows (Record.item item) :=
  along_update fun _ => ⟨rfl, rfl, rfl, rfl⟩

theorem along_newLabels (count : Nat) : Along Grows (newLabels count) := by
  refine Along.get.bind fun _ => Along.bind ?_ fun _ => .pure _
  exact along_update fun _ => ⟨rfl, rfl, rfl, rfl⟩

theorem along_class (name : String) : Along Grows (symbol (Pool.addClass name)) :=
  along_symbol (Pool.Lasts.along fun _ => Pool.addClass_lasts name)

end Record

namespace MethodPiece

open Record Record.State

/-- A piece may add constants and then fail. -/
theorem along_record (piece : MethodPiece) : Along Grows piece.record := by
  cases piece with
  | label | instruction | branch | lookupSwitch | frame => exact along_item _
  | limits => exact along_update fun _ => .mk rfl rfl rfl rfl
  | newLabel => exact (along_newLabels 1).bind fun _ => .pure _
  | returnResult => exact Along.get.bind fun _ => along_item _
  | pushInt value =>
    rw [record, Record.pushInt]
    split
    · exact along_item _
    · exact (along_symbol (Pool.Lasts.along fun _ => Pool.addInteger_lasts value)).bind fun _ =>
        along_item _
  | accessField access owner name descriptor =>
    exact (Along.lift _).bind fun _ => (along_symbol (Pool.Lasts.along fun _ =>
      Pool.addFieldRef_lasts owner name descriptor)).bind fun _ => along_item _
  | invoke kind owner name descriptor ownerIsInterface =>
    refine (Along.lift _).bind fun parsed => (along_symbol (Pool.Lasts.along fun _ =>
      Pool.addMethodRef_lasts owner name descriptor ownerIsInterface)).bind fun _ => ?_
    split
    · exact along_item _
    · exact .throw _
  | invokeDynamic name descriptor method arguments =>
    exact (Along.lift _).bind fun _ => (along_symbol (Pool.Lasts.along fun _ =>
      Pool.addInvokeDynamic_lasts name descriptor method arguments)).bind fun _ => along_item _
  | withClass op name => exact (along_class name).bind fun _ => along_item _
  | newMultiArray descriptor dimensions =>
    exact (Along.lift _).bind fun _ => (along_class descriptor).bind fun _ => along_item _
  | load value =>
    exact (Along.lift _).bind fun _ => (along_symbol (Pool.Lasts.along fun _ =>
      Pool.addLoadable_lasts value)).bind fun _ => along_item _
  | handler start stop entry catches =>
    exact (Along.mapM_option along_class catches).bind fun _ =>
      along_update fun _ => .mk rfl rfl rfl rfl
  | attach name info =>
    exact (along_symbol (Pool.Lasts.along fun _ => Pool.addUtf8_lasts name)).bind fun _ =>
      along_update fun _ => .mk rfl rfl rfl rfl

theorem along_recordAll (pieces : List MethodPiece) : Along Grows (recordAll pieces) := by
  induction pieces with
  | nil => exact .pure _
  | cons piece pieces ih =>
    exact (Along.catch_ piece.along_record fun _ => .pure _).bind fun _ => ih

end MethodPiece

/-! ## Building -/

/-- Constants were added, and nothing else was built. -/
structure ClassBuilder.Keeps (before after : ClassBuilder) : Prop where
  pool : Pool.Grows before.pool after.pool
  header : after.header = before.header
  fields : after.fields = before.fields
  methods : after.methods = before.methods
  attributes : after.attributes = before.attributes

instance : IsPreorder ClassBuilder ClassBuilder.Keeps where
  refl now := ⟨refl_of Pool.Grows now.pool, rfl, rfl, rfl, rfl⟩
  trans _ _ _ first second := ⟨trans_of Pool.Grows first.pool second.pool,
    second.header.trans first.header, second.fields.trans first.fields,
    second.methods.trans first.methods, second.attributes.trans first.attributes⟩

namespace Build

open ClassBuilder

theorem along_symbol {α : Type} {request : Pool.Request α} (along : Along Pool.Grows request) :
    Along Keeps (symbol request) :=
  fun now => ⟨along now.pool, rfl, rfl, rfl, rfl⟩

theorem along_utf8 (text : String) : Along Keeps (symbol (Pool.addUtf8 text)) :=
  along_symbol (Pool.Lasts.along fun _ => Pool.addUtf8_lasts text)

theorem along_initialValue (value : Loadable) : Along Keeps (initialValue value) := by
  have ofConstant : ∀ index, Along Pool.Grows (Attribute.ofConstant index) := fun index =>
    (Pool.Lasts.along fun _ => Pool.addUtf8_lasts _).bind fun _ => (Along.lift _).bind fun _ =>
      .pure _
  exact (along_symbol (Pool.Lasts.along fun _ => Pool.addLoadable_lasts value)).bind fun index =>
    along_symbol (ofConstant index)

theorem along_beginMethod (access : Access .method) (name descriptor : String) :
    Along Keeps (beginMethod access name descriptor) := by
  refine Along.get.bind fun builder => ?_
  split
  · exact .throw _
  · refine (Along.lift _).bind fun _ => (Along.lift _).bind fun _ => ?_
    exact (along_utf8 name).bind fun _ => (along_utf8 descriptor).bind fun _ => .pure _

theorem along_recording {α : Type} {action : Record α} (along : Along Record.State.Grows action)
    (draft : MethodDraft) : Along Keeps (recording draft action) :=
  fun now => ⟨(along ⟨now.pool, draft⟩).pool, rfl, rfl, rfl, rfl⟩

/-- Code is laid out with the pool of the class, which has grown also when this
fails. -/
theorem along_codeAttribute (context : MethodContext) (body : MethodBody) :
    Along Keeps (codeAttribute context body) := by
  refine Along.get.bind fun builder => ?_
  have assembling : ∀ mode wantsFrames,
      Along Keeps (assembling (body.assemble context mode wantsFrames)) :=
    fun mode wantsFrames now =>
      ⟨Assembler.along_assemble body context mode wantsFrames ⟨now.pool, now.hierarchy⟩,
        rfl, rfl, rfl, rfl⟩
  exact (assembling _ _).bind fun _ => (along_utf8 _).bind fun _ => (Along.lift _).bind fun _ =>
    .pure _

variable {α : Type}

theorem run_symbol_of_run {request : Pool.Request α} {answer : Except Fault α} {pool : Pool}
    {builder : ClassBuilder} (run : request.run builder.pool = (answer, pool)) :
    (symbol request).run builder = (answer, { builder with pool }) := by
  change symbol request builder = _
  simp only [symbol, run]

theorem run_symbol {request : StateM Pool α} {value : α} {pool : Pool} {builder : ClassBuilder}
    (run : request.run builder.pool = (value, pool)) :
    (symbol (liftM request)).run builder = (.ok value, { builder with pool }) :=
  run_symbol_of_run (by rw [Pool.run_lift, run])

/-- A request that always answers leaves what it was asked for. -/
theorem symbol_answers {request : StateM Pool α} {holds : Pool → α → Prop}
    (lasts : ∀ before, Pool.Lasts before (liftM request) holds) (builder : ClassBuilder) :
    ∃ value after, (symbol (liftM request)).run builder = (.ok value, after) ∧
      Keeps builder after ∧ holds after.pool value := by
  rcases lasts builder.pool builder.pool (.refl _) with ⟨answer, pool, run, grows, grounded, known⟩
  rw [Pool.run_lift] at run
  cases run
  exact ⟨_, _, run_symbol rfl, ⟨⟨grows, grounded⟩, rfl, rfl, rfl, rfl⟩, (known _ rfl).1⟩

theorem utf8_answers (text : String) (builder : ClassBuilder) :
    ∃ index after, (symbol (Pool.addUtf8 text)).run builder = (.ok index, after) ∧
      Keeps builder after ∧ after.pool.utf8 index = .ok text :=
  symbol_answers (fun _ => Pool.addUtf8_lasts text) builder

theorem class_answers (name : String) (builder : ClassBuilder) :
    ∃ index after, (symbol (Pool.addClass name)).run builder = (.ok index, after) ∧
      Keeps builder after ∧ after.pool.className index = .ok name :=
  symbol_answers (fun _ => Pool.addClass_lasts name) builder

theorem classes_answer (names : List String) (builder : ClassBuilder) :
    ∃ indices after,
      (names.mapM fun name => symbol (Pool.addClass name)).run builder = (.ok indices, after) ∧
      Keeps builder after ∧
      List.Forall₂ (fun index name => after.pool.className index = .ok name) indices names := by
  induction names generalizing builder with
  | nil => exact ⟨[], builder, rfl, refl_of Keeps builder, .nil⟩
  | cons name names ih =>
    rcases class_answers name builder with ⟨index, between, run, keeps, here⟩
    rcases ih between with ⟨indices, after, run', keeps', there⟩
    refine ⟨index :: indices, after, ?_, trans_of Keeps keeps keeps',
      .cons (keeps'.pool.extends_.className here) there⟩
    rw [List.mapM_cons]
    exact run_bind_eq_ok.mpr ⟨index, between, run,
      run_bind_eq_ok.mpr ⟨indices, after, run', rfl⟩⟩

theorem class_answers_option (name? : Option String) (builder : ClassBuilder) :
    ∃ index? after,
      (name?.mapM fun name => symbol (Pool.addClass name)).run builder = (.ok index?, after) ∧
      Keeps builder after ∧
      Option.Rel (fun index name => after.pool.className index = .ok name) index? name? := by
  cases name? with
  | none => exact ⟨none, builder, rfl, refl_of Keeps builder, .none⟩
  | some name =>
    rcases class_answers name builder with ⟨index, after, run, keeps, here⟩
    refine ⟨some index, after, ?_, keeps, .some here⟩
    rw [Option.mapM_some, ← bind_pure_comp]
    exact run_bind_eq_ok.mpr ⟨index, after, run, rfl⟩

end Build

/-! ## Parts of a class -/

/-- A header is that of a visit, its classes in the pool. -/
structure Visit.Describes (visit : Visit) (pool : Pool) (header : Header) : Prop where
  version_eq : header.version = visit.version
  access_eq : header.access = visit.access
  thisClass : pool.className header.thisClass = .ok visit.name
  superClass : Option.Rel (fun index name => pool.className index = .ok name) header.superClass
    visit.superName
  interfaces : List.Forall₂ (fun index name => pool.className index = .ok name) header.interfaces
    visit.interfaceNames

theorem Visit.Describes.grow {visit : Visit} {before after : Pool} {header : Header}
    (grown : Pool.Extends before after) (describes : visit.Describes before header) :
    visit.Describes after header where
  version_eq := describes.version_eq
  access_eq := describes.access_eq
  thisClass := grown.className describes.thisClass
  superClass := optionRel_imp (fun _ _ known => grown.className known) describes.superClass
  interfaces := describes.interfaces.imp fun _ _ known => grown.className known

/-- What is said about a member of a class. -/
structure MemberHead (kind : AccessKind) where
  access : Access kind
  name : String
  descriptor : String

/-- A member is the one that was asked for, its texts in the pool. -/
structure MemberHead.Describes {kind : AccessKind} (head : MemberHead kind) (pool : Pool)
    (member : Member kind) : Prop where
  access_eq : member.access = head.access
  name : pool.utf8 member.name = .ok head.name
  descriptor : pool.utf8 member.descriptor = .ok head.descriptor

theorem MemberHead.Describes.grow {kind : AccessKind} {head : MemberHead kind} {before after : Pool}
    {member : Member kind} (grown : Pool.Extends before after)
    (describes : head.Describes before member) : head.Describes after member where
  access_eq := describes.access_eq
  name := grown.utf8 describes.name
  descriptor := grown.utf8 describes.descriptor

theorem MemberHead.Describes.congr {kind : AccessKind} {head : MemberHead kind} {first second : Pool}
    {member : Member kind} (same : second.constants = first.constants)
    (describes : head.Describes first member) : head.Describes second member where
  access_eq := describes.access_eq
  name := (Pool.utf8_congr same _).trans describes.name
  descriptor := (Pool.utf8_congr same _).trans describes.descriptor

namespace Build

open ClassBuilder

/-- What comes before a part is added may fail, and the adding does not. -/
theorem push_cases {α : Type} {action : Build α} {change : α → ClassBuilder → ClassBuilder}
    {whole : Build Unit} (same : whole = action >>= fun value => modify (change value))
    (along : Along Keeps action) (builder : ClassBuilder) :
    (∃ fault after, Keeps builder after ∧ whole.run builder = (.error fault, after)) ∨
      ∃ value between, Keeps builder between ∧ action.run builder = (.ok value, between) ∧
        whole.run builder = (.ok ⟨⟩, change value between) := by
  subst same
  have keeps := along builder
  rcases ran : action.run builder with ⟨fault | value, between⟩
  · rw [ran] at keeps
    exact .inl ⟨fault, between, keeps, run_bind_of_error ran⟩
  · rw [ran] at keeps
    exact .inr ⟨value, between, keeps, rfl, run_bind_of_ok ran⟩

variable {builder after : ClassBuilder} {name descriptor : String}

/-- A field that is to be added, its constants in the pool. -/
def makeField (access : Access .field) (name descriptor : String) (value : Option Loadable) :
    Build Field := do
  MemberName.require name
  let _ ← FieldType.parse descriptor
  let attr ← value.mapM initialValue
  let name ← symbol (Pool.addUtf8 name)
  let descriptor ← symbol (Pool.addUtf8 descriptor)
  return ⟨access, name, descriptor, attr.toList⟩

theorem addField_eq (access : Access .field) (name descriptor : String) (value : Option Loadable) :
    addField access name descriptor value = makeField access name descriptor value >>= pushField := by
  simp only [addField, makeField, bind_assoc, pure_bind]

theorem along_makeField (access : Access .field) (name descriptor : String)
    (value : Option Loadable) : Along Keeps (makeField access name descriptor value) := by
  refine (Along.lift _).bind fun _ => (Along.lift _).bind fun _ => ?_
  refine (Along.mapM_option along_initialValue value).bind fun _ => ?_
  exact (along_utf8 name).bind fun _ => (along_utf8 descriptor).bind fun _ => .pure _

/-- The two texts of a member, asked for one after the other. -/
theorem texts_of_run {index index' : PoolIndex} {between : ClassBuilder}
    (named : (symbol (Pool.addUtf8 name)).run builder = (.ok index, between))
    (typed : (symbol (Pool.addUtf8 descriptor)).run between = (.ok index', after)) :
    after.pool.utf8 index = .ok name ∧ after.pool.utf8 index' = .ok descriptor := by
  rcases utf8_answers name builder with ⟨_, _, run, -, isName⟩
  cases run.symm.trans named
  rcases utf8_answers descriptor between with ⟨_, _, run', keeps, isDescriptor⟩
  cases run'.symm.trans typed
  exact ⟨keeps.pool.extends_.utf8 isName, isDescriptor⟩

theorem describes_of_makeField {access : Access .field} {value : Option Loadable} {field : Field}
    (made : (makeField access name descriptor value).run builder = (.ok field, after)) :
    (MemberHead.mk access name descriptor).Describes after.pool field := by
  rcases run_bind_eq_ok.mp made with ⟨_, _, -, made⟩
  rcases run_bind_eq_ok.mp made with ⟨_, _, -, made⟩
  rcases run_bind_eq_ok.mp made with ⟨_, _, -, made⟩
  rcases run_bind_eq_ok.mp made with ⟨_, _, named, made⟩
  rcases run_bind_eq_ok.mp made with ⟨_, _, typed, made⟩
  cases made
  exact ⟨rfl, (texts_of_run named typed).1, (texts_of_run named typed).2⟩

/-- A method that is to be added, with all pieces that do not fail. -/
def makeMethod (access : Access .method) (name descriptor : String) (pieces : List MethodPiece) :
    Build Method := do
  let draft ← beginMethod access name descriptor
  let (_, draft) ← recording draft (MethodPiece.recordAll pieces)
  let code ← draft.body?.mapM (codeAttribute draft.context)
  return ⟨draft.access, draft.name, draft.descriptor, code.toList ++ draft.attributes.toList⟩

theorem build_method (access : Access .method) (name descriptor : String)
    (pieces : List MethodPiece) : (ClassEvent.method access name descriptor pieces true).build =
      makeMethod access name descriptor pieces >>= pushMethod := by
  simp only [ClassEvent.build, endMethod, makeMethod, bind_assoc, pure_bind, if_true]

theorem along_makeMethod (access : Access .method) (name descriptor : String)
    (pieces : List MethodPiece) : Along Keeps (makeMethod access name descriptor pieces) := by
  refine (along_beginMethod access name descriptor).bind fun draft => ?_
  refine (along_recording (MethodPiece.along_recordAll pieces) draft).bind fun recorded => ?_
  exact (Along.mapM_option (along_codeAttribute _) _).bind fun _ => .pure _

theorem along_givenUp (access : Access .method) (name descriptor : String)
    (pieces : List MethodPiece) :
    Along Keeps (ClassEvent.method access name descriptor pieces false).build := by
  refine (along_beginMethod access name descriptor).bind fun draft => ?_
  exact (along_recording (MethodPiece.along_recordAll pieces) draft).bind fun _ => .pure _

theorem describes_of_beginMethod {access : Access .method} {draft : MethodDraft}
    (begun : (beginMethod access name descriptor).run builder = (.ok draft, after)) :
    (MemberHead.mk access name descriptor).Describes after.pool
      ⟨draft.access, draft.name, draft.descriptor, []⟩ := by
  rw [beginMethod, run_get_bind] at begun
  split at begun
  · cases begun
  · rcases run_bind_eq_ok.mp begun with ⟨_, _, -, begun⟩
    rcases run_bind_eq_ok.mp begun with ⟨_, _, -, begun⟩
    rcases run_bind_eq_ok.mp begun with ⟨_, _, named, begun⟩
    rcases run_bind_eq_ok.mp begun with ⟨_, _, typed, begun⟩
    cases begun
    exact ⟨rfl, (texts_of_run named typed).1, (texts_of_run named typed).2⟩

/-- Nothing that is recorded makes another method of it. -/
theorem describes_of_makeMethod {access : Access .method} {pieces : List MethodPiece}
    {method : Method}
    (made : (makeMethod access name descriptor pieces).run builder = (.ok method, after)) :
    (MemberHead.mk access name descriptor).Describes after.pool method := by
  rcases run_bind_eq_ok.mp made with ⟨draft, first, begun, made⟩
  rcases run_bind_eq_ok.mp made with ⟨⟨answer, recorded⟩, second, isRecorded, made⟩
  rcases run_bind_eq_ok.mp made with ⟨code, third, coded, made⟩
  cases made
  have head := (MethodPiece.along_recordAll pieces ⟨first.pool, draft⟩).head
  have keeps := along_recording (MethodPiece.along_recordAll pieces) draft first
  have keeps' := Along.mapM_option (along_codeAttribute recorded.context) recorded.body? second
  rw [coded] at keeps'
  rw [isRecorded] at keeps
  have describes := (describes_of_beginMethod begun).grow
    (keeps.pool.extends_.trans keeps'.pool.extends_)
  cases isRecorded
  exact ⟨head.access.trans describes.access_eq, head.name ▸ describes.name,
    head.descriptor ▸ describes.descriptor⟩

theorem along_addition (addition : Pool.Addition) :
    Along Keeps (ClassEvent.symbol addition).build :=
  (along_symbol (Pool.Lasts.along fun before => addition.request_lasts before)).bind fun _ => .pure _

end Build

/-- What an event leaves of a class. -/
inductive ClassEvent.Built (before : ClassBuilder) :
    ClassEvent → Except Fault Unit → ClassBuilder → Prop
  | failed {event : ClassEvent} {fault : Fault} {after : ClassBuilder}
      (keeps : before.Keeps after) (unvisited : event.visit? = none) :
      Built before event (.error fault) after
  | visit {visit : Visit} {header : Header} {between : ClassBuilder} (keeps : before.Keeps between)
      (describes : visit.Describes between.pool header) :
      Built before (.visit visit) (.ok ⟨⟩) { between with header := some header }
  | field {access : Access .field} {name descriptor : String} {value : Option Loadable}
      {field : Field} {between : ClassBuilder} (keeps : before.Keeps between)
      (describes : (MemberHead.mk access name descriptor).Describes between.pool field) :
      Built before (.field access name descriptor value) (.ok ⟨⟩)
        { between with fields := between.fields.push field }
  | method {access : Access .method} {name descriptor : String} {pieces : List MethodPiece}
      {method : Method} {between : ClassBuilder} (keeps : before.Keeps between)
      (describes : (MemberHead.mk access name descriptor).Describes between.pool method) :
      Built before (.method access name descriptor pieces true) (.ok ⟨⟩)
        { between with methods := between.methods.push method }
  | givenUp {access : Access .method} {name descriptor : String} {pieces : List MethodPiece}
      {after : ClassBuilder} (keeps : before.Keeps after) :
      Built before (.method access name descriptor pieces false) (.ok ⟨⟩) after
  | attr {name : String} {info : Bytes} {index : PoolIndex} {between : ClassBuilder}
      (keeps : before.Keeps between) (other : name ≠ Attribute.bootstrapMethods)
      (isName : between.pool.utf8 index = .ok name) :
      Built before (.attr name info) (.ok ⟨⟩)
        { between with attributes := between.attributes.push ⟨index, info⟩ }
  | place {info : Bytes} :
      Built before (.attr Attribute.bootstrapMethods info) (.ok ⟨⟩)
        { before with bootstrapPlace := before.attributes.size }
  | symbol {addition : Pool.Addition} {after : ClassBuilder} (keeps : before.Keeps after) :
      Built before (.symbol addition) (.ok ⟨⟩) after

namespace ClassEvent

open Build

variable (builder : ClassBuilder)

theorem built_visit (visit : Visit) : Built builder (.visit visit)
    ((ClassEvent.visit visit).build.run builder).1
    ((ClassEvent.visit visit).build.run builder).2 := by
  rcases class_answers visit.name builder with ⟨thisClass, first, run, keeps, isThis⟩
  rcases class_answers_option visit.superName first with ⟨superClass, second, run', keeps', isSuper⟩
  rcases classes_answer visit.interfaceNames second with
    ⟨interfaces, third, run'', keeps'', areInterfaces⟩
  have whole : (ClassEvent.visit visit).build.run builder = (.ok ⟨⟩, { third with
      header := some ⟨visit.version, visit.access, visit.name, thisClass, superClass,
        interfaces⟩ }) :=
    run_bind_eq_ok.mpr ⟨thisClass, first, run, run_bind_eq_ok.mpr ⟨superClass, second, run',
      run_bind_eq_ok.mpr ⟨interfaces, third, run'', rfl⟩⟩⟩
  rw [whole]
  -- Each class was found when the pool was smaller, and is still there.
  refine .visit (trans_of ClassBuilder.Keeps (trans_of ClassBuilder.Keeps keeps keeps') keeps'')
    ⟨rfl, rfl, ?_, ?_, areInterfaces⟩
  · exact keeps''.pool.extends_.className (keeps'.pool.extends_.className isThis)
  · exact optionRel_imp (fun _ _ known => keeps''.pool.extends_.className known) isSuper

theorem built_attr (name : String) (info : Bytes) : Built builder (.attr name info)
    ((ClassEvent.attr name info).build.run builder).1
    ((ClassEvent.attr name info).build.run builder).2 := by
  rw [build, addAttribute]
  -- An attribute with the name of the bootstrap methods only leaves its place.
  split
  · next isTable =>
    rw [isTable]
    exact .place
  · next other =>
    rcases utf8_answers name builder with ⟨index, between, run, keeps, isName⟩
    rw [run_bind_of_ok run]
    exact .attr keeps other isName

/-- Every event leaves what is said of it, and failing ones only grow the pool. -/
theorem built (event : ClassEvent) :
    Built builder event (event.build.run builder).1 (event.build.run builder).2 := by
  cases event with
  | visit visit => exact built_visit builder visit
  | attr name info => exact built_attr builder name info
  | field access name descriptor value =>
    rcases push_cases (addField_eq access name descriptor value)
        (along_makeField access name descriptor value) builder with
      ⟨fault, after, keeps, run⟩ | ⟨field, between, keeps, made, run⟩
    · rw [build, run]
      exact .failed keeps rfl
    · rw [build, run]
      exact .field keeps (describes_of_makeField made)
  | method access name descriptor pieces isFinished =>
    cases isFinished with
    | false =>
      have keeps := along_givenUp access name descriptor pieces builder
      rcases ran : (method access name descriptor pieces false).build.run builder with
        ⟨fault | _, after⟩
      · rw [ran] at keeps
        exact .failed keeps rfl
      · rw [ran] at keeps
        exact .givenUp keeps
    | true =>
      rcases push_cases (build_method access name descriptor pieces)
          (along_makeMethod access name descriptor pieces) builder with
        ⟨fault, after, keeps, run⟩ | ⟨method, between, keeps, made, run⟩
      · rw [run]
        exact .failed keeps rfl
      · rw [run]
        exact .method keeps (describes_of_makeMethod made)
  | symbol addition =>
    have keeps := along_addition addition builder
    rcases ran : (symbol addition).build.run builder with ⟨fault | _, after⟩
    · rw [ran] at keeps
      exact .failed keeps rfl
    · rw [ran] at keeps
      exact .symbol keeps

end ClassEvent
end ClassFile
