import ClassFile.Proofs.Bytes.Takes
import ClassFile.Proofs.Pool.Grounded
import ClassFile.Proofs.Text.Units

namespace ClassFile
namespace Constant

/-!
# Entries read back

An entry that was written is read back, as long as its place in the bootstrap table
fits in the word for it.  The other way round, the bytes of an entry that was read
are what is written for it, unless they spell a text in a longer form than is
needed.
-/

variable {start : Nat} {bytes : Bytes}

theorem reads_index {index : PoolIndex} (encoded : Encoding.index index = .ok bytes) :
    Reads readIndex start bytes index := by
  rw [Encoding.index] at encoded
  split at encoded
  · next small =>
    cases encoded
    exact Reads.word small
  · cases encoded

theorem length_index {index : PoolIndex} (encoded : Encoding.index index = .ok bytes) :
    bytes.length = 2 := by
  rw [Encoding.index] at encoded
  split at encoded
  · cases encoded
    exact BigEndian.length_encode 2 index
  · cases encoded

theorem takes_index : Takes readIndex fun bytes index => Encoding.index index = .ok bytes := by
  refine (Takes.word 2).mono ?_
  rintro _ index ⟨rfl, small⟩
  exact if_pos small

/-! ## Written and read -/

theorem reads_text {text : String} (small : (ModifiedUtf8.encode text).length < 65536) :
    Reads readText start
      (BigEndian.encode 2 (ModifiedUtf8.encode text).length ++ ModifiedUtf8.encode text) text := by
  apply Reads.bind (Reads.word small)
  apply Reads.bind_pure (Reads.take _)
  rw [ModifiedUtf8.decode_encode]
  exact .pure text

theorem reads_handleKind (kind : HandleKind) : Reads readHandleKind start [kind.code] kind := by
  apply Reads.bind_pure (Reads.u1 kind.code)
  rw [HandleKind.ofCode_code]
  exact .pure kind

/-- An index of an entry made of one. -/
theorem reads_one {index : PoolIndex} {make : PoolIndex → Constant}
    (encoded : Encoding.index index = .ok bytes) :
    Reads (do return make (← readIndex)) start bytes (make index) :=
  (reads_index encoded).bind_pure (.pure _)

/-- The indices of an entry made of two. -/
theorem reads_two {first second : PoolIndex} {make : PoolIndex → PoolIndex → Constant}
    (encoded : (do return (← Encoding.index first) ++ (← Encoding.index second)) = .ok bytes) :
    Reads (do return make (← readIndex) (← readIndex)) start bytes (make first second) := by
  rcases bind_eq_ok.mp encoded with ⟨front, isFirst, rest⟩
  rcases bind_eq_ok.mp rest with ⟨back, isSecond, last⟩
  cases last
  exact (reads_index isFirst).bind (reads_one isSecond)

/-- A place in the bootstrap table and an index. -/
theorem reads_computed {position : Nat} {signature : PoolIndex} {make : Nat → PoolIndex → Constant}
    (small : position < 65536)
    (encoded : (do return BigEndian.encode 2 position ++ (← Encoding.index signature)) = .ok bytes) :
    Reads (do return make (← Reader.word 2) (← readIndex)) start bytes (make position signature) := by
  rcases bind_eq_ok.mp encoded with ⟨back, isSignature, last⟩
  cases last
  exact (Reads.word small).bind (reads_one isSignature)

theorem reads {constant : Constant}
    (small : ∀ position, constant.bootstrap? = some position → position < 65536)
    (encoded : constant.encode = .ok bytes) : Reads read start bytes constant := by
  rcases bind_eq_ok.mp encoded with ⟨body, isBody, last⟩
  cases last
  cases constant with
  | utf8 text =>
    rw [encodeBody] at isBody
    split at isBody
    · next short =>
      cases isBody
      exact (Reads.u1 1).bind ((reads_text short).bind_pure (.pure _))
    · cases isBody
  | integer value =>
    cases isBody
    exact (Reads.u1 3).bind ((Reads.s4 value).bind_pure (.pure _))
  | float bits =>
    cases isBody
    exact (Reads.u1 4).bind ((Reads.u4 bits).bind_pure (.pure _))
  | long value =>
    cases isBody
    exact (Reads.u1 5).bind ((Reads.s8 value).bind_pure (.pure _))
  | double bits =>
    cases isBody
    exact (Reads.u1 6).bind ((Reads.u8 bits).bind_pure (.pure _))
  | cls index => exact (Reads.u1 7).bind (reads_one isBody)
  | string index => exact (Reads.u1 8).bind (reads_one isBody)
  | methodType index => exact (Reads.u1 16).bind (reads_one isBody)
  | module index => exact (Reads.u1 19).bind (reads_one isBody)
  | package index => exact (Reads.u1 20).bind (reads_one isBody)
  | fieldRef first second => exact (Reads.u1 9).bind (reads_two isBody)
  | methodRef first second ownerIsInterface =>
    cases ownerIsInterface with
    | false => exact (Reads.u1 10).bind (@reads_two _ _ _ _ (.methodRef · · false) isBody)
    | true => exact (Reads.u1 11).bind (@reads_two _ _ _ _ (.methodRef · · true) isBody)
  | nameAndType first second => exact (Reads.u1 12).bind (reads_two isBody)
  | methodHandle kind member =>
    rcases bind_eq_ok.mp isBody with ⟨back, isMember, last⟩
    cases last
    exact (Reads.u1 15).bind ((reads_handleKind kind).bind (reads_one isMember))
  | dynamic position signature =>
    exact (Reads.u1 17).bind (reads_computed (small position rfl) isBody)
  | invokeDynamic position signature =>
    exact (Reads.u1 18).bind (reads_computed (small position rfl) isBody)

/-! ## Read and written -/

/-- The bytes of an entry spell its text in the shortest form, if it has one. -/
def Canonical (bytes : Bytes) : Constant → Prop
  | utf8 text => bytes.drop 3 = ModifiedUtf8.encode text
  | _ => True

/-- The bytes of a text entry by those of its text. -/
def textBytes (content : Bytes) : Bytes :=
  [1] ++ (BigEndian.encode 2 content.length ++ content)

/-- Bytes that an entry is read from.  They are the ones it is written with, except that a text
may be spelled in other ways. -/
def ReadFrom (bytes : Bytes) : Constant → Prop
  | utf8 text => ∃ content, bytes = textBytes content ∧ content.length < 65536 ∧
      ModifiedUtf8.decode content = .ok text
  | constant => constant.encode = .ok bytes

theorem takes_text : Takes readText fun bytes text =>
    ∃ content, bytes = BigEndian.encode 2 content.length ++ content ∧ content.length < 65536 ∧
      ModifiedUtf8.decode content = .ok text := by
  refine (Takes.word 2).bind ?_
  rintro _ length ⟨rfl, small⟩
  refine (Takes.take length).bind ?_
  rintro content _ ⟨same, rfl⟩
  subst same
  split
  · next text decoded =>
    refine Takes.pure ⟨_, ?_, small, decoded⟩
    rw [List.append_nil]
  · exact Takes.fail

theorem code_of_ofCode {code : UInt8} {kind : HandleKind} (found : HandleKind.ofCode? code = some kind) :
    kind.code = code := by
  unfold HandleKind.ofCode? at found
  split at found <;> cases found <;> rfl

theorem takes_handleKind : Takes readHandleKind fun bytes kind => bytes = [kind.code] := by
  refine Takes.u1.bind ?_
  rintro _ code rfl
  split
  · next kind found =>
    apply Takes.pure
    rw [code_of_ofCode found]
    rfl
  · exact Takes.fail

theorem takes_one {make : PoolIndex → Constant} {holds : Bytes → Constant → Prop}
    (known : ∀ bytes index, Encoding.index index = .ok bytes → holds bytes (make index)) :
    Takes (do return make (← readIndex)) holds := by
  refine takes_index.bind fun bytes index encoded => Takes.pure ?_
  rw [List.append_nil]
  exact known bytes index encoded

theorem takes_two {make : PoolIndex → PoolIndex → Constant} {holds : Bytes → Constant → Prop}
    (known : ∀ bytes first second,
      (do return (← Encoding.index first) ++ (← Encoding.index second)) = .ok bytes →
        holds bytes (make first second)) :
    Takes (do return make (← readIndex) (← readIndex)) holds :=
  takes_index.bind fun _ first isFirst => takes_one fun _ second isSecond =>
    known _ first second (bind_eq_ok.mpr ⟨_, isFirst, bind_eq_ok.mpr ⟨_, isSecond, rfl⟩⟩)

theorem takes_computed {make : Nat → PoolIndex → Constant} {holds : Bytes → Constant → Prop}
    (known : ∀ bytes position signature,
      (do return BigEndian.encode 2 position ++ (← Encoding.index signature)) = .ok bytes →
        holds bytes (make position signature)) :
    Takes (do return make (← Reader.word 2) (← readIndex)) holds := by
  refine (Takes.word 2).bind ?_
  rintro _ position ⟨rfl, -⟩
  exact takes_one fun _ signature isSignature =>
    known _ position signature (bind_eq_ok.mpr ⟨_, isSignature, rfl⟩)

/-- What follows a tag is the body of an entry. -/
theorem encode_of_body {constant : Constant} (encoded : constant.encodeBody = .ok bytes) :
    constant.encode = .ok ([constant.tag] ++ bytes) :=
  bind_eq_ok.mpr ⟨bytes, encoded, rfl⟩

theorem takes_readFrom : Takes read fun bytes constant => constant.ReadFrom bytes := by
  refine Takes.u1.bind ?_
  rintro _ tag rfl
  split
  case h_1 =>
    refine takes_text.bind ?_
    rintro bytes text ⟨content, rfl, small, decoded⟩
    refine Takes.pure ⟨content, ?_, small, decoded⟩
    rw [List.append_nil, textBytes]
  case h_2 =>
    refine Takes.s4.bind ?_
    rintro _ value rfl
    exact Takes.pure rfl
  case h_3 =>
    refine Takes.u4.bind ?_
    rintro _ value rfl
    exact Takes.pure rfl
  case h_4 =>
    refine Takes.s8.bind ?_
    rintro _ value rfl
    exact Takes.pure rfl
  case h_5 =>
    refine Takes.u8.bind ?_
    rintro _ value rfl
    exact Takes.pure rfl
  case h_6 | h_7 | h_13 | h_16 | h_17 => exact takes_one fun _ _ encoded => encode_of_body encoded
  case h_8 | h_9 | h_10 | h_11 => exact takes_two fun _ _ _ encoded => encode_of_body encoded
  case h_12 =>
    refine takes_handleKind.bind ?_
    rintro _ kind rfl
    exact takes_one fun _ member isMember =>
      encode_of_body (bind_eq_ok.mpr ⟨_, isMember, rfl⟩)
  case h_14 | h_15 => exact takes_computed fun _ _ _ encoded => encode_of_body encoded
  case h_18 => exact Takes.fail

theorem encode_utf8 {text : String} (small : (ModifiedUtf8.encode text).length < 65536) :
    (utf8 text).encode = .ok (textBytes (ModifiedUtf8.encode text)) :=
  encode_of_body (if_pos small)

theorem drop_textBytes (content : Bytes) : (textBytes content).drop 3 = content := by
  rw [textBytes, ← List.append_assoc]
  exact List.drop_left' (by simp [BigEndian.length_encode])

theorem ReadFrom.encode {constant : Constant} (readFrom : constant.ReadFrom bytes)
    (canonical : constant.Canonical bytes) : constant.encode = .ok bytes := by
  cases constant with
  | utf8 text =>
    rcases readFrom with ⟨content, rfl, small, decoded⟩
    rw [Canonical, drop_textBytes] at canonical
    subst canonical
    exact encode_utf8 small
  | _ => exact readFrom

theorem takes : Takes read fun bytes constant =>
    constant.Canonical bytes → constant.encode = .ok bytes :=
  takes_readFrom.mono fun _ _ => ReadFrom.encode

end Constant
end ClassFile
