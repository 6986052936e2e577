import ClassFile.Class.Image
import ClassFile.Proofs.Bytes.Sequences
import ClassFile.Proofs.Pool.Entries

namespace ClassFile

/-!
# Parts of a class read back

Attributes, members and bootstrap methods are read back as they were written, and a
pool entry by entry.
-/

variable {start : Nat} {bytes : Bytes}

namespace Attribute

theorem reads {attr : Attribute} (encoded : attr.encode = .ok bytes) :
    Reads read start bytes attr := by
  rcases bind_eq_ok.mp encoded with ⟨front, isName, rest⟩
  rcases bind_eq_ok.mp rest with ⟨back, isInfo, last⟩
  cases last
  refine (Constant.reads_index isName).bind ?_
  rcases Encoding.payload_eq_ok.mp isInfo with ⟨small, rfl⟩
  exact (Reads.word small).bind ((Reads.take attr.info).bind_pure (.pure attr))

theorem reads_all {attributes : List Attribute}
    (encoded : Encoding.sequence encode attributes = .ok bytes) :
    Reads readAll start bytes attributes :=
  Reads.sequence (fun _ _ _ isPiece _ => reads isPiece) encoded

theorem takes : Takes read fun bytes attr => attr.encode = .ok bytes := by
  refine Constant.takes_index.bind fun front name isName => ?_
  refine (Takes.word 4).bind ?_
  rintro _ length ⟨rfl, small⟩
  refine (Takes.take length).bind ?_
  rintro info _ ⟨rfl, rfl⟩
  refine Takes.pure (bind_eq_ok.mpr ⟨front, isName, bind_eq_ok.mpr ⟨_, ?_, rfl⟩⟩)
  rw [List.append_nil]
  exact Encoding.payload_eq_ok.mpr ⟨small, rfl⟩

theorem takes_all : Takes readAll fun bytes attributes =>
    Encoding.sequence encode attributes = .ok bytes :=
  takes.sequence

end Attribute

theorem Access.reads {kind : AccessKind} (access : Access kind) :
    Reads (Access.ofBits <$> Reader.u2) start access.encode access := by
  have read := (@Reads.u2 start access.bits).map (@Access.ofBits kind)
  rwa [Access.ofBits_bits] at read

namespace Member

variable {kind : AccessKind}

theorem reads {member : Member kind} (encoded : member.encode = .ok bytes) :
    Reads read start bytes member := by
  rcases bind_eq_ok.mp encoded with ⟨name, isName, rest⟩
  rcases bind_eq_ok.mp rest with ⟨descriptor, isDescriptor, rest'⟩
  rcases bind_eq_ok.mp rest' with ⟨attributes, areAttributes, last⟩
  cases last
  rw [List.append_assoc, List.append_assoc]
  refine (Access.reads member.access).bind ?_
  refine (Constant.reads_index isName).bind ?_
  refine (Constant.reads_index isDescriptor).bind ?_
  exact (Attribute.reads_all areAttributes).bind_pure (.pure member)

theorem reads_all {members : List (Member kind)}
    (encoded : Encoding.sequence encode members = .ok bytes) :
    Reads readAll start bytes members :=
  Reads.sequence (fun _ _ _ isPiece _ => reads isPiece) encoded

end Member

namespace BootstrapMethod

theorem reads {method : BootstrapMethod} (encoded : method.encode = .ok bytes) :
    Reads read start bytes method := by
  rcases bind_eq_ok.mp encoded with ⟨front, isHandle, rest⟩
  rcases bind_eq_ok.mp rest with ⟨back, areArguments, last⟩
  cases last
  refine (Constant.reads_index isHandle).bind ?_
  rcases Encoding.sequence_eq_ok.mp areArguments with ⟨small, pieces, all, rfl⟩
  refine (Reads.word small).bind ?_
  refine (Reads.each (fun _ _ _ isPiece _ => Constant.reads_index isPiece) all).bind_pure ?_
  exact .pure method

theorem encodeTable_eq_sequence {methods : List BootstrapMethod} :
    encodeTable methods = .ok bytes ↔ Encoding.sequence encode methods = .ok bytes := by
  rw [encodeTable, Encoding.sequence]
  split
  · exact Iff.rfl
  · constructor <;> intro run <;> cases run

theorem reads_table {methods : List BootstrapMethod} (encoded : encodeTable methods = .ok bytes) :
    Reads readTable start bytes methods :=
  Reads.sequence (fun _ _ _ isPiece _ => reads isPiece) (encodeTable_eq_sequence.mp encoded)

theorem takes : Takes read fun bytes method => method.encode = .ok bytes := by
  refine Constant.takes_index.bind fun front handle isHandle => ?_
  refine (Takes.word 2).bind ?_
  rintro _ count ⟨rfl, small⟩
  refine (Constant.takes_index.each count).bind ?_
  rintro back arguments ⟨all, rfl⟩
  refine Takes.pure (bind_eq_ok.mpr ⟨front, isHandle, bind_eq_ok.mpr ⟨_, ?_, rfl⟩⟩)
  rw [List.append_nil]
  exact Encoding.sequence_eq_ok.mpr ⟨small, back, all, rfl⟩

theorem takes_table : Takes readTable fun bytes methods => encodeTable methods = .ok bytes :=
  (takes.sequence).mono fun _ _ encoded => encodeTable_eq_sequence.mpr encoded

end BootstrapMethod

/-! ## Pools -/

namespace ClassImage

theorem count_append (pool : Pool) (constant : Constant) :
    (pool.append constant).count = pool.count + constant.width :=
  rfl

/-- Entries are read onto a pool until they fill its slots. -/
theorem reads_constants {constants : List Constant} {pool : Pool} {count : Nat}
    (total : pool.count + Wide.total constants = count)
    (small : ∀ constant ∈ constants, ∀ position, constant.bootstrap? = some position →
      position < 65536)
    (encoded : Encoding.each Constant.encode constants = .ok bytes) :
    Reads (readConstantsOnto count pool) start bytes (constants.foldl Pool.append pool) := by
  induction constants generalizing start bytes pool with
  | nil =>
    cases encoded
    rw [Wide.total_nil, Nat.add_zero] at total
    rw [readConstantsOnto, if_neg (by omega), if_neg (by omega)]
    exact .pure pool
  | cons constant constants ih =>
    rcases Encoding.each_cons_eq_ok.mp encoded with ⟨front, back, isFront, isBack, rfl⟩
    rw [Wide.total_cons] at total
    rw [List.forall_mem_cons] at small
    have wide : 0 < Wide.width constant := constant.width_pos
    rw [readConstantsOnto, if_pos (by omega)]
    refine (Constant.reads small.1 isFront).bind (ih ?_ small.2 isBack)
    rw [count_append, ← total, Nat.add_assoc]
    rfl

/-- A pool whose entries start at slot one is read back entry by entry. -/
theorem reads_pool {pool : Pool} (first : pool.constants.start = 1)
    (small : ∀ constant ∈ pool.constants.toList, ∀ position,
      constant.bootstrap? = some position → position < 65536)
    (encoded : pool.encode = .ok bytes) :
    Reads readPool start bytes (.ofLists pool.constants.toList []) := by
  rw [Pool.encode] at encoded
  split at encoded
  · next fits =>
    rcases bind_eq_ok.mp encoded with ⟨back, each, last⟩
    cases last
    refine (Reads.word fits).bind (reads_constants ?_ small each)
    have total := pool.constants.laid.stop_eq
    rw [first] at total
    exact total.symm
  · cases encoded

end ClassImage
end ClassFile
