import ClassFile.Proofs.Class.Finished
import ClassFile.Proofs.Class.Transcript
import ClassFile.Settings

namespace ClassFile

/-!
# Entries stay when a class is built again

A class that is built again starts from the pool that was read, and whatever is computed
anew only adds to that.  So the entries that were read are written in their places, each in
the one way in which it is written.
-/

/-! ## Recording decoded code -/

namespace DecodedCode

open Record.State (Grows)

/-- Every instruction is recorded as a piece of a method, its constants read first. -/
theorem along_recordInstruction (pool : Pool) (instruction : Instruction) :
    Along Grows (recordInstruction pool instruction) := by
  cases instruction with
  | loadConstant index | loadWideConstant index =>
    exact (Along.lift _).bind fun value => MethodPiece.along_record (.load value)
  | accessField access index =>
    exact (Along.lift _).bind fun member =>
      MethodPiece.along_record (.accessField access member.owner member.name member.descriptor)
  | invoke mode index =>
    exact (Along.lift _).bind fun ownerIsInterface => (Along.lift _).bind fun member =>
      MethodPiece.along_record
        (.invoke mode.kind member.owner member.name member.descriptor ownerIsInterface)
  | invokeDynamic index =>
    refine (Along.lift _).bind fun constant => ?_
    split
    · refine (Along.lift _).bind fun texts => (Along.lift _).bind fun bootstrap => ?_
      exact MethodPiece.along_record
        (.invokeDynamic texts.name texts.descriptor bootstrap.1 bootstrap.2)
    · exact .throw _
  | withClass op index =>
    exact (Along.lift _).bind fun name => MethodPiece.along_record (.withClass op name)
  | newMultiArray index dimensions =>
    exact (Along.lift _).bind fun name => MethodPiece.along_record (.newMultiArray name dimensions)
  | _ => exact MethodPiece.along_record (.instruction _)

theorem along_recordBranch (labels : Labels) (branch : Branch Nat Nat Unit) :
    Along Grows (recordBranch labels branch) := by
  refine (Along.lift _).bind fun relabelled => ?_
  split
  · exact MethodPiece.along_record (.branch _)
  · exact MethodPiece.along_record (.branch _)
  · exact MethodPiece.along_record (.lookupSwitch _ _)
  · exact MethodPiece.along_record .returnResult
  · exact MethodPiece.along_record (.branch _)

theorem along_recordOperation (pool : Pool) (labels : Labels) (operation : Operation) :
    Along Grows (recordOperation pool labels operation) := by
  cases operation with
  | instruction found => exact along_recordInstruction pool found
  | branch found => exact along_recordBranch labels found

theorem along_placeLabel (labels : Labels) (offset : Nat) :
    Along Grows (placeLabel labels offset) := by
  rw [placeLabel]
  split
  · exact MethodPiece.along_record (.label _)
  · exact .pure _

theorem along_recordFrame (labels : Labels) (frame : DecodedFrame) :
    Along Grows (recordFrame labels frame) :=
  (Along.lift _).bind fun locals => (Along.lift _).bind fun operands =>
    MethodPiece.along_record (.frame locals operands)

theorem along_recordHandler (labels : Labels) (handler : DecodedHandler) :
    Along Grows (recordHandler labels handler) :=
  (Along.lift _).bind fun start => (Along.lift _).bind fun stop => (Along.lift _).bind fun entry =>
    MethodPiece.along_record (.handler start stop entry handler.catches)

theorem along_record (code : DecodedCode) (pool : Pool) : Along Grows (code.record pool) := by
  refine (Record.along_newLabels _).bind fun first => Along.bind (Along.forIn (fun entry done => ?_) _ _)
    fun _ => ?_
  · refine (along_placeLabel _ _).bind fun _ => ?_
    dsimp only
    split
    · exact (along_recordFrame _ _).bind fun _ => (along_recordOperation _ _ _).bind fun _ => .pure _
    · exact (along_recordOperation _ _ _).bind fun _ => .pure _
  · refine (along_placeLabel _ _).bind fun _ => Along.bind (Along.forIn (fun handler done => ?_) _ _)
      fun _ => MethodPiece.along_record (.limits _)
    exact (along_recordHandler _ _).bind fun _ => .pure _

end DecodedCode

/-! ## Building -/

/-- More may have been built, and the pool has not lost anything. -/
def ClassBuilder.Grows (before after : ClassBuilder) : Prop :=
  Pool.Grows before.pool after.pool

instance : IsPreorder ClassBuilder ClassBuilder.Grows where
  refl now := refl_of Pool.Grows now.pool
  trans _ _ _ first second := trans_of Pool.Grows first second

namespace ClassImage

open ClassBuilder (Grows Keeps)

theorem along_of_keeps {α : Type} {action : Build α} (along : Along Keeps action) :
    Along Grows action :=
  along.mono fun _ _ keeps => keeps.pool

theorem along_pushField (field : Field) : Along Grows (Build.pushField field) :=
  fun now => refl_of Pool.Grows now.pool

theorem along_pushMethod (method : Method) : Along Grows (Build.pushMethod method) :=
  fun now => refl_of Pool.Grows now.pool

theorem along_setHeader (version : Version) (access : Access .cls) (name : String)
    (superName : Option String) (interfaceNames : List String) :
    Along Grows (Build.setHeader version access name superName interfaceNames) := by
  have cls : ∀ name, Along Grows (Build.symbol (Pool.addClass name)) := fun name =>
    along_of_keeps (Build.along_symbol (Pool.Lasts.along fun _ => Pool.addClass_lasts name))
  refine (cls name).bind fun _ => (Along.mapM_option cls superName).bind fun _ => ?_
  exact (Along.mapM cls interfaceNames).bind fun _ => fun now => refl_of Pool.Grows now.pool

theorem along_addAttribute (name : String) (info : Bytes) :
    Along Grows (Build.addAttribute name info) := by
  refine Along.ite (fun now => refl_of Pool.Grows now.pool) ?_
  exact (along_of_keeps (Build.along_utf8 name)).bind fun _ now => refl_of Pool.Grows now.pool

variable (image : ClassImage)

theorem along_replayField (sharesPool : Bool) (field : Field) :
    Along Grows (image.replayField sharesPool field) := by
  refine Along.ite (along_pushField field) ?_
  refine (Along.lift _).bind fun name => (Along.lift _).bind fun value => ?_
  refine (Along.lift _).bind fun descriptor => ?_
  rw [Build.addField_eq]
  exact (along_of_keeps (Build.along_makeField _ _ _ _)).bind along_pushField

theorem along_recordMethod (sharesPool wantsFrames : Bool) (context : MethodContext)
    (attributes : List Attribute) : Along Record.State.Grows
      (image.recordMethod sharesPool wantsFrames context attributes) := by
  refine Along.bind (Along.forIn (fun attr done => ?_) _ _) fun _ => .pure _
  refine (Along.lift _).bind fun name => ?_
  split
  · refine (Along.lift _).bind fun code => ?_
    exact (code.along_record image.pool).bind fun _ => .pure _
  · split
    · exact (MethodPiece.along_record (.attach _ _)).bind fun _ => .pure _
    · exact .pure _

theorem along_rebuildMethod (sharesPool wantsFrames : Bool) (method : Method) :
    Along Grows (image.rebuildMethod sharesPool wantsFrames method) := by
  refine (Along.lift _).bind fun name => (Along.lift _).bind fun descriptor => ?_
  refine (Along.lift _).bind fun _ => ?_
  refine (along_of_keeps (Build.along_beginMethod _ _ _)).bind fun draft => ?_
  refine (along_of_keeps (Build.along_recording (image.along_recordMethod _ _ _ _) draft)).bind
    fun recorded => (Along.lift _).bind fun _ => ?_
  exact (Along.mapM_option (fun body => along_of_keeps (Build.along_codeAttribute _ body)) _).bind
    fun _ => along_pushMethod _

theorem along_replayMethod (sharesPool : Bool) (method : Method) :
    Along Grows (image.replayMethod sharesPool method) :=
  Along.get.bind fun _ => Along.ite (along_pushMethod method)
    (image.along_rebuildMethod sharesPool _ method)

theorem along_replayAttribute (sharesPool : Bool) (attr : Attribute) :
    Along Grows (image.replayAttribute sharesPool attr) :=
  (Along.lift _).bind fun name => Along.ite (along_addAttribute name attr.info) (.pure _)

/-- Whatever comes of building a class again, its pool only grows. -/
theorem along_replay (sharesPool : Bool) : Along Grows (image.replay sharesPool) := by
  refine (Along.lift _).bind fun interfaces => (Along.lift _).bind fun name => ?_
  refine (Along.lift _).bind fun superName => (along_setHeader _ _ _ _ _).bind fun _ => ?_
  refine Along.bind (Along.forIn (fun field done => ?_) _ _) fun _ => ?_
  · exact (image.along_replayField sharesPool field).bind fun _ => .pure _
  refine Along.bind (Along.forIn (fun method done => ?_) _ _) fun _ => ?_
  · exact (image.along_replayMethod sharesPool method).bind fun _ => .pure _
  refine Along.bind (Along.forIn (fun attr done => ?_) _ _) fun _ => .pure _
  exact (image.along_replayAttribute sharesPool attr).bind fun _ => .pure _

end ClassImage

/-- The image of a class has the entries that the class was built with. -/
theorem ClassBuilder.extends_image {builder : ClassBuilder} {image : ClassImage}
    (made : builder.image = .ok image) : Pool.Extends builder.pool image.pool := by
  rcases image_eq_ok made with ⟨_, -, finished, -⟩
  rcases finish_cases finished with ⟨-, -, same⟩ | ⟨info, name, -, run, -⟩
  · rw [same]
    exact .refl _
  · have along := Pool.Lasts.along fun _ => Pool.addUtf8_lasts Attribute.bootstrapMethods
    have grows := along builder.pool
    rw [Pool.run_lift, run] at grows
    exact grows.extends_

/-- What is encoded again is a class with the entries that were read, and maybe more. -/
theorem Settings.reencode_extends {settings : Settings} {bytes out : Bytes} {image : ClassImage}
    (parsed : ClassImage.parse bytes = .ok image) (encoded : settings.reencode bytes = .ok out) :
    ∃ rebuilt : ClassImage, Pool.Extends image.pool rebuilt.pool ∧ rebuilt.encode = .ok out := by
  rw [Settings.reencode] at encoded
  rcases bind_eq_ok.1 encoded with ⟨_, same, encoded⟩
  cases parsed.symm.trans same
  have grows := image.along_replay true (.ofPool settings.mode settings.hierarchy image.pool)
  dsimp only at encoded
  rcases replayed : (image.replay true).run (.ofPool settings.mode settings.hierarchy image.pool) with
    ⟨answer, builder⟩
  rw [replayed] at encoded grows
  rcases bind_eq_ok.1 encoded with ⟨_, -, encoded⟩
  rcases bind_eq_ok.1 encoded with ⟨rebuilt, made, encoded⟩
  exact ⟨rebuilt, grows.extends_.trans (ClassBuilder.extends_image made), encoded⟩

/-! ## Entries in bytes -/

/-- Bytes hold others from a position on. -/
def StandsAt (position : Nat) (part whole : Bytes) : Prop :=
  ∃ front back, whole = front ++ part ++ back ∧ front.length = position

theorem StandsAt.of_append {position : Nat} {front part back : Bytes}
    (place : front.length = position) : StandsAt position part (front ++ (part ++ back)) :=
  ⟨front, back, (List.append_assoc _ _ _).symm, place⟩

/-- The entries of a class stand behind its version and their number. -/
theorem ClassImage.standsAt_of_encode {image : ClassImage} {out : Bytes}
    (encoded : image.encode = .ok out) : ∃ pieces,
      List.Forall₂ (fun constant piece => constant.encode = .ok piece) image.pool.constants.toList
        pieces ∧ StandsAt 10 pieces.flatten out := by
  rcases bind_eq_ok.1 encoded with ⟨pool, isPool, encoded⟩
  rcases bind_eq_ok.1 encoded with ⟨thisClass, -, encoded⟩
  rcases bind_eq_ok.1 encoded with ⟨superClass, -, encoded⟩
  rcases bind_eq_ok.1 encoded with ⟨interfaces, -, encoded⟩
  rcases bind_eq_ok.1 encoded with ⟨fields, -, encoded⟩
  rcases bind_eq_ok.1 encoded with ⟨methods, -, encoded⟩
  rcases bind_eq_ok.1 encoded with ⟨attributes, -, last⟩
  rw [Pool.encode] at isPool
  split at isPool
  · rcases bind_eq_ok.1 isPool with ⟨entries, areEntries, counted⟩
    rcases Encoding.each_eq_ok.1 areEntries with ⟨pieces, each, rfl⟩
    cases counted
    cases last
    refine ⟨pieces, each, magic ++ image.version.encode ++ BigEndian.encode 2 image.pool.count,
      image.access.encode ++ thisClass ++ superClass ++ interfaces ++ fields ++ methods ++ attributes,
      ?_, ?_⟩
    · simp only [List.append_assoc]
    · rw [List.length_append, List.length_append, BigEndian.length_encode]
      rfl
  · cases isPool

namespace Transcript

theorem takes_readFrom (count stop : Nat) : Takes (readEntries count stop) fun bytes entries =>
    bytes = (entries.map Prod.snd).flatten ∧ ∀ entry ∈ entries, entry.1.ReadFrom entry.2 := by
  fun_induction readEntries count stop with
  | case1 stop inside ih =>
    refine Constant.takes_readFrom.spanned.bind ?_
    rintro _ ⟨constant, front⟩ ⟨rfl, isFront⟩
    refine (ih ⟨constant, front⟩).bind ?_
    rintro _ entries ⟨rfl, areEntries⟩
    refine Takes.pure ⟨?_, List.forall_mem_cons.2 ⟨isFront, areEntries⟩⟩
    rw [List.append_nil, List.map_cons, List.flatten_cons]
  | case2 => exact Takes.fail
  | case3 => exact Takes.pure ⟨rfl, fun _ member => absurd member List.not_mem_nil⟩

/-- The entries of a class file stand in it as they are read, behind its version and their
number. -/
theorem takes_standsAt : Takes read fun bytes written =>
    StandsAt 10 (written.entries.map Prod.snd).flatten bytes ∧
      ∀ entry ∈ written.entries, entry.1.ReadFrom entry.2 := by
  refine (Takes.take 4).bind ?_
  rintro _ magic ⟨rfl, four⟩
  split
  · exact Takes.fail
  · refine Takes.u2.bind ?_
    rintro _ minor rfl
    refine Takes.u2.bind ?_
    rintro _ major rfl
    refine (Takes.word 2).bind ?_
    rintro _ count ⟨rfl, -⟩
    refine (takes_readFrom count 1).bind ?_
    rintro _ entries ⟨rfl, areEntries⟩
    refine Takes.u2.bind fun _ flags _ => ?_
    refine Constant.takes_index.bind fun _ thisClass _ => ?_
    refine takes_optional.bind fun _ superClass _ => ?_
    refine (Takes.word 2).bind fun _ few _ => ?_
    refine (Constant.takes_index.many few).bind fun _ interfaces _ => ?_
    refine (@MemberTranscript.takes_all .field).bind fun _ fields _ => ?_
    refine (@MemberTranscript.takes_all .method).bind fun _ methods _ => ?_
    refine Attribute.takes_all.bind fun _ attributes _ => Takes.pure ⟨?_, areEntries⟩
    rw [← List.append_assoc, ← List.append_assoc, ← List.append_assoc]
    refine .of_append ?_
    simp only [List.length_append, four, BigEndian.length_encode]
    rfl

end Transcript

theorem StandsAt.front {position : Nat} {first second whole : Bytes}
    (stands : StandsAt position (first ++ second) whole) : StandsAt position first whole := by
  rcases stands with ⟨front, back, rfl, place⟩
  exact ⟨front, second ++ back, by simp only [List.append_assoc], place⟩

/-- The entries that were read are encoded again in their places, one after the other. -/
theorem Settings.reencode_entries {settings : Settings} {bytes out : Bytes} {written : Transcript}
    (isWritten : Transcript.read.toEnd.runOn bytes = .ok written)
    (encoded : settings.reencode bytes = .ok out) : ∃ pieces,
      List.Forall₂ (fun entry piece => entry.1.encode = .ok piece) written.entries pieces ∧
        StandsAt 10 pieces.flatten out := by
  rcases bind_eq_ok.1 encoded with ⟨image, parsed, -⟩
  rcases reencode_extends parsed encoded with ⟨rebuilt, extends_, encoded⟩
  rcases Transcript.parse_eq_ok.1 parsed with ⟨_, bootstraps, same, -, rfl⟩
  cases isWritten.symm.trans same
  rcases ClassImage.standsAt_of_encode encoded with ⟨pieces, each, stands⟩
  have longer : written.constants <+: rebuilt.pool.constants.toList := by
    rw [← Pool.toList_ofLists written.constants bootstraps]
    exact extends_.entries.map Prod.snd
  have whole : pieces = pieces.take written.constants.length ++ pieces.drop written.constants.length :=
    (List.take_append_drop _ _).symm
  refine ⟨pieces.take written.constants.length, ?_, ?_⟩
  · have here := List.forall₂_take written.constants.length each
    rw [← List.prefix_iff_eq_take.1 longer] at here
    exact List.forall₂_map_left_iff.1 here
  · rw [whole, List.flatten_append] at stands
    exact stands.front

end ClassFile
